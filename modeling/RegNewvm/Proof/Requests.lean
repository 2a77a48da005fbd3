import RegNewvm.Lib.Joined
import RegNewvm.Proof.Session

/-!
# What the requests carry

The three URLs are a base without `#` and `?`, a `?`, and parameters written by plain concatenation
(`IsQuery`), the last of which has a value.  So what a reader gets back from the URL that is sent is
settled by `Url.UriRules.readBack_trim_iff` (`IsQuery.sent_iff`), and for the list of VM names in
the last value by the rules of `RegNewvm.Lib.Joined`.  `requests_read_back_iff` puts the three
together, and `sub_requests_read_back_iff` says it of the requests that the three subs make.
-/

namespace RegNewvm

open Interaction Perl Url

/-- A character from space to `~`. -/
def Printable (c : Char) : Prop := 32 ≤ c.toNat ∧ c.toNat ≤ 126

instance : DecidablePred Printable := fun c =>
  inferInstanceAs (Decidable (32 ≤ c.toNat ∧ c.toNat ≤ 126))

def PrintableText (s : List Char) : Prop := ∀ c ∈ s, Printable c

instance : DecidablePred PrintableText := fun s =>
  decidable_of_iff (s.all fun c => decide (Printable c)) (by simp [PrintableText])

abbrev PrintableAscii (s : String) : Prop := PrintableText s.toList

/-- A text that can stand before the `?` of the URL. -/
def BeforeQuery (s : String) : Prop := PrintableAscii s ∧ '#' ∉ s.toList ∧ '?' ∉ s.toList

instance : DecidablePred BeforeQuery := fun s =>
  inferInstanceAs (Decidable (PrintableAscii s ∧ '#' ∉ s.toList ∧ '?' ∉ s.toList))

/-- What the reader finds in the URL that is sent. -/
def sentParams (U : UriRules) (url : String) : List Param := readQuery (U.uri url.toList)

theorem sentParams_eq (U : UriRules) {url : String} (h : PrintableText url.toList) :
    sentParams U url = readQuery (U.trim url.toList) := by
  refine U.readQuery_uri fun c hc => ?_
  have := (h c hc).2
  omega

/-- In a printable URL the appliance reads what is sent. -/
theorem readParams_eq_sentParams {url : String} (h : PrintableText url.toList) :
    readParams url = sentParams defaultRules url :=
  (sentParams_eq defaultRules h).symm

/-! ## The URLs as parameters -/

abbrev param (key value : String) : Param := (key.toList, some value.toList)

def loginParams (name pswd vdrk : String) : List Param :=
  [param "name" name, param "password" pswd, param "vendorkey" vdrk]

def lshostParams (sessionid : String) : List Param := [param "sessionid" sessionid]

def vmdiscoveryParams (sessionid vcentHname vmHosts : String) : List Param :=
  [param "sessionid" sessionid, ("addvms".toList, none), param "host" vcentHname,
    param "cluster" "192.168.99.85", param "vms" vmHosts]

/-- The URL up to the `?`. -/
def apiBase (actifio path : String) : List Char :=
  "https://".toList ++ actifio.toList ++ "/actifio/api/".toList ++ path.toList

theorem loginUrl_eq (actifio name pswd vdrk : String) : (loginUrl actifio name pswd vdrk).toList =
    apiBase actifio "login" ++ '?' :: render (loginParams name pswd vdrk) := by
  unfold loginUrl apiBase loginParams param
  simp [render, renderParam]

theorem lshostUrl_eq (actifio sessionid : String) : (lshostUrl actifio sessionid).toList =
    apiBase actifio "info/lshost" ++ '?' :: render (lshostParams sessionid) := by
  unfold lshostUrl apiBase lshostParams param
  simp [render, renderParam]

theorem vmdiscoveryUrl_eq (actifio sessionid vcentHname vmHosts : String) :
    (vmdiscoveryUrl actifio sessionid vcentHname vmHosts).toList =
      apiBase actifio "task/vmdiscovery" ++
        '?' :: render (vmdiscoveryParams sessionid vcentHname vmHosts) := by
  unfold vmdiscoveryUrl apiBase vmdiscoveryParams param
  simp [render, renderParam]

/-! ## Reading them back -/

/-- The paths of the three calls. -/
def apiPaths : List String := ["login", "info/lshost", "task/vmdiscovery"]

section Sent

variable (U : UriRules) {actifio path url : String} {init params : List Param} {key v : String}

theorem apiBase_clean (hactifio : BeforeQuery actifio) (hpath : path ∈ apiPaths) :
    PrintableText (apiBase actifio path) ∧ '#' ∉ apiBase actifio path ∧
      '?' ∉ apiBase actifio path := by
  have hhttps : BeforeQuery "https://" := by decide
  have hapi : BeforeQuery "/actifio/api/" := by decide
  have hpaths : ∀ path ∈ apiPaths, BeforeQuery path := by decide
  obtain ⟨hprint, hhash, hquestion⟩ := hpaths path hpath
  unfold apiBase
  refine ⟨?_, ?_, ?_⟩
  · unfold PrintableText
    simp only [List.forall_mem_append]
    exact ⟨⟨⟨hhttps.1, hactifio.1⟩, hapi.1⟩, hprint⟩
  · simp only [List.mem_append, not_or]
    exact ⟨⟨⟨hhttps.2.1, hactifio.2.1⟩, hapi.2.1⟩, hhash⟩
  · simp only [List.mem_append, not_or]
    exact ⟨⟨⟨hhttps.2.2, hactifio.2.2⟩, hapi.2.2⟩, hquestion⟩

theorem head_apiBase (actifio path : String) : (apiBase actifio path).head? = some 'h' := by
  unfold apiBase
  simp

/-- What the URLs of the scripts have in common, whatever the values: a plain base, plain and
different keys, and a value at the end. -/
structure IsQuery (url actifio path : String) (params init : List Param) (key v : String) :
    Prop where
  path_mem : path ∈ apiPaths
  url_eq : url.toList = apiBase actifio path ++ '?' :: render params
  params_eq : params = init ++ [param key v]
  nodup : (params.map (·.1)).Nodup
  keys : ∀ k ∈ params.map (·.1), PlainKey k ∧ PrintableText k

/-- Every value is printable. -/
def PrintableValues (params : List Param) : Prop :=
  ∀ p ∈ params, ∀ v, p.2 = some v → PrintableText v

section IsQuery

variable (hq : IsQuery url actifio path params init key v) (hactifio : BeforeQuery actifio)

include hq hactifio

/-- What is read in the URL without the blanks at its end. -/
theorem IsQuery.read_iff :
    (ReadBack params (readQuery (U.trim url.toList)) ↔
        AllCarried params ∧ ¬ U.EndsBlank v.toList) ∧
      (AllCarried params ∧ ¬ U.EndsBlank v.toList → readQuery (U.trim url.toList) = params) := by
  obtain ⟨hpath, hurl, rfl, hnodup, hkeys⟩ := hq
  obtain ⟨-, hhash, hquestion⟩ := apiBase_clean hactifio hpath
  have hplain : ∀ p ∈ init ++ [param key v], PlainKey p.1 :=
    fun p hp => (hkeys p.1 (List.mem_map_of_mem hp)).1
  have hhead := head_apiBase actifio path
  have hblank : (apiBase actifio path).head?.any U.blank = false := by
    rw [hhead, Option.any_some]
    exact U.not_blank_of_uric (U.uric_alphanum 'h' (by decide))
  have hne : apiBase actifio path ≠ [] := by
    intro hnil
    rw [hnil] at hhead
    cases hhead
  rw [hurl]
  refine ⟨U.readBack_trim_iff hhash hquestion hblank hne hnodup hplain, ?_⟩
  rintro ⟨hcarried, hend⟩
  exact U.readQuery_trim hhash hquestion hblank hne hplain hcarried hend

theorem IsQuery.printable (hprint : PrintableValues params) : PrintableText url.toList := by
  obtain ⟨hpath, hurl, -, -, hkeys⟩ := hq
  have hrender := forall_mem_render (P := Printable) (by decide) (by decide) fun p hp =>
    ⟨(hkeys p.1 (List.mem_map_of_mem hp)).2, hprint p hp⟩
  rw [hurl]
  unfold PrintableText
  rw [List.forall_mem_append, List.forall_mem_cons]
  exact ⟨(apiBase_clean hactifio hpath).1, by decide, hrender⟩

/-- What is read in the URL that is sent. -/
theorem IsQuery.sent_iff (hprint : PrintableValues params) :
    (ReadBack params (sentParams U url) ↔ AllCarried params ∧ ¬ U.EndsBlank v.toList) ∧
      (AllCarried params ∧ ¬ U.EndsBlank v.toList → sentParams U url = params) := by
  rw [sentParams_eq U (hq.printable hactifio hprint)]
  exact hq.read_iff U hactifio

end IsQuery

end Sent

theorem isQuery_login (actifio name pswd vdrk : String) :
    IsQuery (loginUrl actifio name pswd vdrk) actifio "login" (loginParams name pswd vdrk)
      [param "name" name, param "password" pswd] "vendorkey" vdrk where
  path_mem := by decide
  url_eq := loginUrl_eq actifio name pswd vdrk
  params_eq := rfl
  nodup := by
    show ["name".toList, "password".toList, "vendorkey".toList].Nodup
    decide
  keys := by
    show ∀ k ∈ ["name".toList, "password".toList, "vendorkey".toList],
      PlainKey k ∧ PrintableText k
    decide

theorem isQuery_lshost (actifio sessionid : String) :
    IsQuery (lshostUrl actifio sessionid) actifio "info/lshost" (lshostParams sessionid)
      [] "sessionid" sessionid where
  path_mem := by decide
  url_eq := lshostUrl_eq actifio sessionid
  params_eq := rfl
  nodup := by
    show ["sessionid".toList].Nodup
    decide
  keys := by
    show ∀ k ∈ ["sessionid".toList], PlainKey k ∧ PrintableText k
    decide

theorem isQuery_vmdiscovery (actifio sessionid vcentHname vmHosts : String) :
    IsQuery (vmdiscoveryUrl actifio sessionid vcentHname vmHosts) actifio "task/vmdiscovery"
      (vmdiscoveryParams sessionid vcentHname vmHosts)
      [param "sessionid" sessionid, ("addvms".toList, none), param "host" vcentHname,
        param "cluster" "192.168.99.85"] "vms" vmHosts where
  path_mem := by decide
  url_eq := vmdiscoveryUrl_eq actifio sessionid vcentHname vmHosts
  params_eq := rfl
  nodup := by
    show ["sessionid".toList, "addvms".toList, "host".toList, "cluster".toList,
      "vms".toList].Nodup
    decide
  keys := by
    show ∀ k ∈ ["sessionid".toList, "addvms".toList, "host".toList, "cluster".toList,
      "vms".toList], PlainKey k ∧ PrintableText k
    decide

/-! ## The list of VM names -/

theorem toList_joinVmHosts (vmHosts : List String) :
    (joinVmHosts vmHosts).toList = [':'].intercalate (vmHosts.map String.toList) := by
  unfold joinVmHosts
  rw [String.toList_intercalate]
  rfl

theorem splitVmHosts_eq_iff {vms : String} {vmHosts : List String} :
    splitVmHosts vms = vmHosts ↔ vms.toList.splitOn ':' = vmHosts.map String.toList := by
  unfold splitVmHosts
  constructor
  · rintro rfl
    simp
  · intro h
    simp [h]

theorem split_joinVmHosts_iff {vmHosts : List String} (hne : vmHosts ≠ []) :
    splitVmHosts (joinVmHosts vmHosts) = vmHosts ↔ ∀ vm ∈ vmHosts, ':' ∉ vm.toList := by
  rw [splitVmHosts_eq_iff, toList_joinVmHosts, splitOn_join_iff (by simpa using hne)]
  simp

theorem carried_joinVmHosts_iff (vmHosts : List String) :
    Carried (joinVmHosts vmHosts).toList ↔ ∀ vm ∈ vmHosts, Carried vm.toList := by
  rw [toList_joinVmHosts, carried_join_iff (by decide) (by decide) (by decide)]
  simp

theorem printable_joinVmHosts {vmHosts : List String} (h : ∀ vm ∈ vmHosts, PrintableAscii vm) :
    PrintableAscii (joinVmHosts vmHosts) := by
  intro c hc
  rw [toList_joinVmHosts] at hc
  by_cases hcolon : c = ':'
  · subst hcolon
    decide
  · rw [mem_join_iff hcolon] at hc
    obtain ⟨s, hs, hmem⟩ := hc
    obtain ⟨vm, hvm, rfl⟩ := List.mem_map.1 hs
    exact h vm hvm c hmem

theorem endsBlank_joinVmHosts_iff (U : UriRules) {vmHosts : List String} (hne : vmHosts ≠ []) :
    U.EndsBlank (joinVmHosts vmHosts).toList ↔ U.EndsBlank (vmHosts.getLast hne).toList := by
  have hcolon : U.blank ':' = false := U.not_blank_of_uric (U.uric_reserved ':' (by decide))
  rw [toList_joinVmHosts, endsBlank_join_iff U hcolon (by simpa using hne), List.getLast_map]

/-! ## The three requests -/

section Requests

variable (U : UriRules) (actifio name pswd vdrk sessionid vcentHname : String)
  (vmHosts : List String)

/-- The three values of `act_login` are read back. -/
def LoginReadBack : Prop :=
  ReadBack (loginParams name pswd vdrk) (sentParams U (loginUrl actifio name pswd vdrk))

/-- The value of `act_lshost` is read back. -/
def LshostReadBack : Prop :=
  ReadBack (lshostParams sessionid) (sentParams U (lshostUrl actifio sessionid))

/-- The four values of `act_vmdiscovery` are read back, and its `vms` splits into the names. -/
def VmdiscoveryReadBack : Prop :=
  ReadBack (vmdiscoveryParams sessionid vcentHname (joinVmHosts vmHosts))
      (sentParams U (vmdiscoveryUrl actifio sessionid vcentHname (joinVmHosts vmHosts))) ∧
    splitVmHosts (joinVmHosts vmHosts) = vmHosts

def LoginCarries : Prop :=
  (∀ value ∈ [name, pswd, vdrk], Carried value.toList) ∧ ¬ U.EndsBlank vdrk.toList

def LshostCarries : Prop := Carried sessionid.toList ∧ ¬ U.EndsBlank sessionid.toList

def VmdiscoveryCarries : Prop :=
  (∀ value ∈ sessionid :: vcentHname :: vmHosts, Carried value.toList) ∧
    (∀ vm ∈ vmHosts, ':' ∉ vm.toList) ∧ ¬ U.EndsBlank (vmHosts.getLastD "").toList

end Requests

section Carries

variable {U : UriRules} {actifio name pswd vdrk sessionid vcentHname : String}
  {vmHosts vmHosts' : List String}

theorem login_readBack (hactifio : BeforeQuery actifio)
    (hvalues : ∀ value ∈ [name, pswd, vdrk], PrintableAscii value) :
    (LoginReadBack U actifio name pswd vdrk ↔ LoginCarries U name pswd vdrk) ∧
      (LoginCarries U name pswd vdrk →
        sentParams U (loginUrl actifio name pswd vdrk) = loginParams name pswd vdrk) := by
  have hcarried : AllCarried (loginParams name pswd vdrk) ↔
      ∀ value ∈ [name, pswd, vdrk], Carried value.toList := by
    simp [AllCarried, loginParams]
  have hprint : PrintableValues (loginParams name pswd vdrk) := by
    simpa [PrintableValues, PrintableAscii, loginParams] using hvalues
  unfold LoginReadBack LoginCarries
  rw [← hcarried]
  exact (isQuery_login actifio name pswd vdrk).sent_iff U hactifio hprint

theorem allCarried_lshostParams_iff :
    AllCarried (lshostParams sessionid) ↔ Carried sessionid.toList := by
  simp [AllCarried, lshostParams]

/-- When the appliance reads the session id that it is asked in. -/
theorem valuesOf_sessionid_iff (hactifio : BeforeQuery actifio) :
    valuesOf "sessionid".toList (readParams (lshostUrl actifio sessionid)) =
        [some sessionid.toList] ↔ LshostCarries defaultRules sessionid := by
  have hread : ReadBack (lshostParams sessionid) (readParams (lshostUrl actifio sessionid)) ↔
      valuesOf "sessionid".toList (readParams (lshostUrl actifio sessionid)) =
        [some sessionid.toList] := by
    simp [ReadBack, lshostParams]
  unfold LshostCarries
  rw [← hread, ← allCarried_lshostParams_iff]
  exact ((isQuery_lshost actifio sessionid).read_iff defaultRules hactifio).1

theorem lshost_readBack (hactifio : BeforeQuery actifio) (hsessionid : PrintableAscii sessionid) :
    (LshostReadBack U actifio sessionid ↔ LshostCarries U sessionid) ∧
      (LshostCarries U sessionid →
        sentParams U (lshostUrl actifio sessionid) = lshostParams sessionid) := by
  have hprint : PrintableValues (lshostParams sessionid) := by
    simpa [PrintableValues, PrintableAscii, lshostParams] using hsessionid
  unfold LshostReadBack LshostCarries
  rw [← allCarried_lshostParams_iff]
  exact (isQuery_lshost actifio sessionid).sent_iff U hactifio hprint

theorem forall_vmdiscovery_values {P : List Char → Prop} (hcluster : P "192.168.99.85".toList)
    (sessionid vcentHname vms : String) :
    (∀ p ∈ vmdiscoveryParams sessionid vcentHname vms, ∀ v, p.2 = some v → P v) ↔
      P sessionid.toList ∧ P vcentHname.toList ∧ P vms.toList := by
  unfold vmdiscoveryParams param
  revert hcluster
  generalize "192.168.99.85".toList = cluster
  intro hcluster
  simp [hcluster]

theorem vmdiscovery_readBack (hactifio : BeforeQuery actifio)
    (hvalues : ∀ value ∈ sessionid :: vcentHname :: vmHosts, PrintableAscii value)
    (hne : vmHosts ≠ []) :
    (VmdiscoveryReadBack U actifio sessionid vcentHname vmHosts ↔
        VmdiscoveryCarries U sessionid vcentHname vmHosts) ∧
      (VmdiscoveryCarries U sessionid vcentHname vmHosts →
        sentParams U (vmdiscoveryUrl actifio sessionid vcentHname (joinVmHosts vmHosts)) =
          vmdiscoveryParams sessionid vcentHname (joinVmHosts vmHosts)) := by
  have hcarried : AllCarried (vmdiscoveryParams sessionid vcentHname (joinVmHosts vmHosts)) ↔
      ∀ value ∈ sessionid :: vcentHname :: vmHosts, Carried value.toList := by
    unfold AllCarried
    rw [forall_vmdiscovery_values (by decide), carried_joinVmHosts_iff, List.forall_mem_cons,
      List.forall_mem_cons]
  have hprint : PrintableValues (vmdiscoveryParams sessionid vcentHname (joinVmHosts vmHosts)) := by
    rw [List.forall_mem_cons, List.forall_mem_cons] at hvalues
    unfold PrintableValues
    rw [forall_vmdiscovery_values (by decide)]
    exact ⟨hvalues.1, hvalues.2.1, printable_joinVmHosts hvalues.2.2⟩
  obtain ⟨hiff, heq⟩ :=
    (isQuery_vmdiscovery actifio sessionid vcentHname (joinVmHosts vmHosts)).sent_iff U hactifio
      hprint
  have hlast : vmHosts.getLastD "" = vmHosts.getLast hne := by
    rw [List.getLastD_eq_getLast?, List.getLast?_eq_some_getLast hne, Option.getD_some]
  rw [hcarried, endsBlank_joinVmHosts_iff U hne, ← hlast] at hiff heq
  unfold VmdiscoveryReadBack VmdiscoveryCarries
  refine ⟨?_, fun h => heq ⟨h.1, h.2.2⟩⟩
  rw [hiff, split_joinVmHosts_iff hne, and_assoc, and_comm (a := ¬ _)]

/-- Lists of names that are carried are told apart by the requests. -/
theorem vmdiscovery_injective (hactifio : BeforeQuery actifio)
    (hvalues : ∀ value ∈ sessionid :: vcentHname :: vmHosts, PrintableAscii value)
    (hvalues' : ∀ value ∈ sessionid :: vcentHname :: vmHosts', PrintableAscii value)
    (hne : vmHosts ≠ []) (hne' : vmHosts' ≠ [])
    (h : VmdiscoveryCarries U sessionid vcentHname vmHosts)
    (h' : VmdiscoveryCarries U sessionid vcentHname vmHosts')
    (heq : U.uri (vmdiscoveryUrl actifio sessionid vcentHname (joinVmHosts vmHosts)).toList =
      U.uri (vmdiscoveryUrl actifio sessionid vcentHname (joinVmHosts vmHosts')).toList) :
    vmHosts = vmHosts' := by
  have hparams : vmdiscoveryParams sessionid vcentHname (joinVmHosts vmHosts) =
      vmdiscoveryParams sessionid vcentHname (joinVmHosts vmHosts') := by
    rw [← (vmdiscovery_readBack hactifio hvalues hne).2 h,
      ← (vmdiscovery_readBack hactifio hvalues' hne').2 h']
    unfold sentParams
    rw [heq]
  have hjoined : joinVmHosts vmHosts = joinVmHosts vmHosts' := by
    simpa [vmdiscoveryParams, String.toList_inj] using hparams
  rw [← (split_joinVmHosts_iff hne).2 h.2.1, hjoined, (split_joinVmHosts_iff hne').2 h'.2.1]

/-- When the requests carry their values: each URL is read back exactly if no value contains a `&`,
a `#` or a percent escape, no VM name contains a `:`, and the value at its end does not end in a
blank.  Then nothing but the parameters is read, and the names can be told from the request. -/
theorem requests_read_back_iff (U : UriRules) (hactifio : BeforeQuery actifio)
    (hcredentials : ∀ value ∈ [name, pswd, vdrk], PrintableAscii value)
    (hvalues : ∀ value ∈ sessionid :: vcentHname :: vmHosts, PrintableAscii value)
    (hne : vmHosts ≠ []) :
    (LoginReadBack U actifio name pswd vdrk ↔ LoginCarries U name pswd vdrk) ∧
      (LshostReadBack U actifio sessionid ↔ LshostCarries U sessionid) ∧
      (VmdiscoveryReadBack U actifio sessionid vcentHname vmHosts ↔
        VmdiscoveryCarries U sessionid vcentHname vmHosts) ∧
      (LoginCarries U name pswd vdrk →
        sentParams U (loginUrl actifio name pswd vdrk) = loginParams name pswd vdrk) ∧
      (LshostCarries U sessionid →
        sentParams U (lshostUrl actifio sessionid) = lshostParams sessionid) ∧
      (VmdiscoveryCarries U sessionid vcentHname vmHosts →
        sentParams U (vmdiscoveryUrl actifio sessionid vcentHname (joinVmHosts vmHosts)) =
          vmdiscoveryParams sessionid vcentHname (joinVmHosts vmHosts)) ∧
      ∀ vmHosts', vmHosts' ≠ [] → (∀ vm ∈ vmHosts', PrintableAscii vm) →
        VmdiscoveryCarries U sessionid vcentHname vmHosts →
        VmdiscoveryCarries U sessionid vcentHname vmHosts' →
        U.uri (vmdiscoveryUrl actifio sessionid vcentHname (joinVmHosts vmHosts)).toList =
          U.uri (vmdiscoveryUrl actifio sessionid vcentHname (joinVmHosts vmHosts')).toList →
        vmHosts = vmHosts' := by
  have hlogin := login_readBack (U := U) hactifio hcredentials
  have hsessionid := (List.forall_mem_cons.1 hvalues).1
  have hvcent := (List.forall_mem_cons.1 (List.forall_mem_cons.1 hvalues).2).1
  have hlshost := lshost_readBack (U := U) hactifio hsessionid
  have hvmdiscovery := vmdiscovery_readBack (U := U) hactifio hvalues hne
  refine ⟨hlogin.1, hlshost.1, hvmdiscovery.1, hlogin.2, hlshost.2, hvmdiscovery.2, ?_⟩
  intro vmHosts' hne' hvms' hcarries hcarries' heq
  have hvalues' : ∀ value ∈ sessionid :: vcentHname :: vmHosts', PrintableAscii value :=
    List.forall_mem_cons.2 ⟨hsessionid, List.forall_mem_cons.2 ⟨hvcent, hvms'⟩⟩
  exact vmdiscovery_injective hactifio hvalues hvalues' hne hne' hcarries hcarries' heq

end Carries

instance (U : UriRules) (name pswd vdrk : String) : Decidable (LoginCarries U name pswd vdrk) :=
  inferInstanceAs (Decidable (_ ∧ _))

instance (U : UriRules) (sessionid : String) : Decidable (LshostCarries U sessionid) :=
  inferInstanceAs (Decidable (_ ∧ _))

instance (U : UriRules) (sessionid vcentHname : String) (vmHosts : List String) :
    Decidable (VmdiscoveryCarries U sessionid vcentHname vmHosts) :=
  inferInstanceAs (Decidable (_ ∧ _ ∧ _))

/-- The configured credentials and ordinary names are carried. -/
theorem requests_read_back_configured :
    LoginReadBack defaultRules Config.actifio Config.name Config.pswd Config.vdrk ∧
      LshostReadBack defaultRules Config.actifio "41b6f3" ∧
      VmdiscoveryReadBack defaultRules Config.actifio "41b6f3" Config.vcentHname
        ["rhel5 ora11", "win-2012/sql"] := by
  obtain ⟨hlogin, hlshost, hvmdiscovery, -⟩ :=
    @requests_read_back_iff Config.actifio Config.name Config.pswd Config.vdrk "41b6f3"
      Config.vcentHname ["rhel5 ora11", "win-2012/sql"] defaultRules (by decide) (by decide)
      (by decide) (by decide)
  exact ⟨hlogin.2 (by decide), hlshost.2 (by decide), hvmdiscovery.2 (by decide)⟩

/-- A name with a percent escape in it is read as another name, and a name with a `:` in it gives
the request of two names. -/
theorem requests_escaped_name :
    sentParams defaultRules (vmdiscoveryUrl Config.actifio "41b6f3" Config.vcentHname
        (joinVmHosts ["a%2fb"])) = vmdiscoveryParams "41b6f3" Config.vcentHname "a/b" ∧
      ¬ VmdiscoveryReadBack defaultRules Config.actifio "41b6f3" Config.vcentHname ["a%2fb"] ∧
      vmdiscoveryUrl Config.actifio "41b6f3" Config.vcentHname (joinVmHosts ["a:b"]) =
        vmdiscoveryUrl Config.actifio "41b6f3" Config.vcentHname (joinVmHosts ["a", "b"]) := by
  refine ⟨by decide +kernel, ?_, by decide⟩
  rw [(vmdiscovery_readBack (by decide) (by decide) (by decide)).1]
  decide

/-! ## The requests of the three subs -/

section Subs

variable {σ α : Type} (decode : Decoder) (peer : Peer Op Ans σ) (s : σ)

/-- The requests that a run makes against a peer, in order. -/
def requests (p : Script α) : List Request := (calls peer p s).filterMap requestOf

/-- What is called after a request is no other. -/
theorem requests_request_bind {method : Method} {url : String} {k : Reply → Script α}
    (hk : ∀ reply, Only (fun op => requestOf op = none) (k reply)) :
    requests peer s (request method url >>= k) = [⟨method, url⟩] := by
  have hrest (reply : Reply) (t : σ) : requests peer t (k reply) = [] :=
    List.filterMap_eq_nil_iff.2 fun op hop => (hk reply).mem_calls hop
  exact congrArg (List.cons (⟨method, url⟩ : Request)) (hrest (peer s (.http ⟨method, url⟩)).1 _)

theorem requests_actLogin (want : Want) (actifio name pswd vdrk : String) :
    requests peer s (actLogin decode want actifio name pswd vdrk) =
      [⟨.get, loginUrl actifio name pswd vdrk⟩] := by
  unfold actLogin
  refine requests_request_bind peer s fun reply => ?_
  split_ifs
  · exact (Only.ofExcept _).bind fun _ => (Only.ofExcept _).bind fun _ => Only.pure _
  · exact Only.pure _

theorem requests_actLshost (want : Want) (actifio : String) (sessionid : Value) :
    requests peer s (actLshost decode want actifio sessionid) =
      [⟨.get, lshostUrl actifio sessionid.str⟩] := by
  unfold actLshost
  refine requests_request_bind peer s fun reply => ?_
  split_ifs
  · exact (Only.ofExcept _).bind fun _ => (Only.ofExcept _).bind fun _ =>
      (Only.ofExcept _).bind fun elems =>
        (only_pushHostnames (fun _ => rfl) elems []).bind fun _ => Only.pure _
  · exact Only.pure _

theorem requests_actVmdiscovery (actifio : String) (sessionid : Value)
    (vcentHname vmHosts : String) :
    requests peer s (actVmdiscovery actifio sessionid vcentHname vmHosts) =
      [⟨.post, vmdiscoveryUrl actifio sessionid.str vcentHname vmHosts⟩] := by
  unfold actVmdiscovery
  exact requests_request_bind peer s fun reply => Only.ask rfl

variable {actifio name pswd vdrk vcentHname : String} {vmHosts : List String} {sessionid : Value}

/-- Whoever answers, each of the three subs makes one request, whose values are read back exactly if
none of them contains a `&`, a `#` or a percent escape, no VM name a `:`, and the last one does not
end in a blank. -/
theorem sub_requests_read_back_iff (want : Want) (U : UriRules) (hactifio : BeforeQuery actifio)
    (hcredentials : ∀ value ∈ [name, pswd, vdrk], PrintableAscii value)
    (hvalues : ∀ value ∈ sessionid.str :: vcentHname :: vmHosts, PrintableAscii value)
    (hne : vmHosts ≠ []) :
    (∃ url, requests peer s (actLogin decode want actifio name pswd vdrk) = [⟨.get, url⟩] ∧
      (ReadBack (loginParams name pswd vdrk) (sentParams U url) ↔ LoginCarries U name pswd vdrk)) ∧
    (∃ url, requests peer s (actLshost decode want actifio sessionid) = [⟨.get, url⟩] ∧
      (ReadBack (lshostParams sessionid.str) (sentParams U url) ↔
        LshostCarries U sessionid.str)) ∧
    ∃ url, requests peer s (actVmdiscovery actifio sessionid vcentHname (joinVmHosts vmHosts)) =
        [⟨.post, url⟩] ∧
      (ReadBack (vmdiscoveryParams sessionid.str vcentHname (joinVmHosts vmHosts))
          (sentParams U url) ∧ splitVmHosts (joinVmHosts vmHosts) = vmHosts ↔
        VmdiscoveryCarries U sessionid.str vcentHname vmHosts) := by
  have hsessionid := (List.forall_mem_cons.1 hvalues).1
  refine ⟨⟨_, requests_actLogin decode peer s want actifio name pswd vdrk, ?_⟩,
    ⟨_, requests_actLshost decode peer s want actifio sessionid, ?_⟩,
    ⟨_, requests_actVmdiscovery peer s actifio sessionid vcentHname (joinVmHosts vmHosts), ?_⟩⟩
  · exact (login_readBack hactifio hcredentials).1
  · exact (lshost_readBack hactifio hsessionid).1
  · exact (vmdiscovery_readBack hactifio hvalues hne).1

end Subs

/-- The request for two ordinary names. -/
theorem sub_requests_read_back_configured :
    ∃ url, requests Site.answer ⟨[], [], []⟩ (actVmdiscovery Config.actifio (.text "41b6f3")
        Config.vcentHname (joinVmHosts ["rhel5 ora11", "win-2012/sql"])) = [⟨.post, url⟩] ∧
      ReadBack (vmdiscoveryParams "41b6f3" Config.vcentHname
        (joinVmHosts ["rhel5 ora11", "win-2012/sql"])) (sentParams defaultRules url) := by
  obtain ⟨-, -, url, hurl, hiff⟩ :=
    @sub_requests_read_back_iff Site sampleDecoder Site.answer ⟨[], [], []⟩ Config.actifio
      Config.name Config.pswd Config.vdrk Config.vcentHname ["rhel5 ora11", "win-2012/sql"]
      (.text "41b6f3") .scalar defaultRules (by decide) (by decide) (by decide) (by decide)
  exact ⟨url, hurl, (hiff.2 (by decide)).1⟩

end RegNewvm
