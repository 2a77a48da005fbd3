import RegNewvm.Model.Main
import RegNewvm.Model.Site

/-!
# From the replies to the request

A run of `main` is settled by the replies to its two GETs: `loginResult` and `lshostResult` say what
the two subs make of a reply.  Only the end of `main` posts, so a run posts exactly when both subs
return (`posted_main`), and that is the case for every pair of replies that stops neither
(`posted_main_ne_nil_iff`): a status other than 200 stops none.  `posted_only_if_iff` compares this
with the intention that only a session and a host list may lead to a request.
-/

namespace RegNewvm

open Interaction Perl

variable (decode : Decoder)

/-! ## What the subs make of a reply -/

/-- The value of `act_login` in scalar context. -/
def loginResult (reply : Reply) : Except String Value :=
  if reply.rc = 200 then do
    let items ← decode reply.content
    items.field "sessionid"
  else return .text ""

/-- The fields `hostname` of a result list. -/
def hostnamesOf (elems : List Value) : Except String (List Value) := elems.mapM (·.field "hostname")

/-- The values of `act_lshost` in list context. -/
def lshostResult (reply : Reply) : Except String (List Value) :=
  if reply.rc = 200 then do
    let items ← decode reply.content
    let lists ← items.field "result"
    let elems ← lists.elems
    hostnamesOf elems
  else return [.text ""]

/-! ## Runs of the subs -/

section Runs

variable {decode} {reply : Reply} {replies : List Reply} {vms : List Vm} {hosts : List String}

@[simp] theorem result_print (text : String) (site : Site) :
    result Site.answer (print text) site = (.ok ⟨⟩, site) := rfl

@[simp] theorem result_get (url : String) :
    result Site.answer (request .get url) ⟨reply :: replies, vms, hosts⟩ =
      (.ok reply, ⟨replies, vms, hosts⟩) := rfl

theorem result_actLogin (actifio name pswd vdrk : String) :
    result Site.answer (actLogin decode .scalar actifio name pswd vdrk)
        ⟨reply :: replies, vms, hosts⟩ =
      ((loginResult decode reply).map ([·]), ⟨replies, vms, hosts⟩) := by
  unfold actLogin loginResult
  rw [result_bind_of_ok Site.answer (result_get _)]
  split_ifs
  · rw [result_ofExcept_bind]
    cases decode reply.content with
    | error message => rfl
    | ok items =>
      show result Site.answer (Prog.ofExcept (items.field "sessionid") >>= _) _ =
        ((items.field "sessionid").map _, _)
      rw [result_ofExcept_bind]
      cases items.field "sessionid" <;> rfl
  · rfl

theorem hostnamesOf_cons (item : Value) (rest : List Value) :
    hostnamesOf (item :: rest) = do
      let hostname ← item.field "hostname"
      let hostnames ← hostnamesOf rest
      return hostname :: hostnames := by
  unfold hostnamesOf
  rw [List.mapM_cons]

theorem result_pushHostnames (elems hostnames : List Value) (site : Site) :
    result Site.answer (pushHostnames elems hostnames) site =
      ((hostnamesOf elems).map (hostnames ++ ·), site) := by
  induction elems generalizing hostnames with
  | nil =>
    show (Except.ok hostnames, site) = (Except.ok (hostnames ++ []), site)
    rw [List.append_nil]
  | cons item rest ih =>
    unfold pushHostnames
    rw [result_ofExcept_bind, hostnamesOf_cons]
    cases item.field "hostname" with
    | error message => rfl
    | ok hostname =>
      show result Site.answer (print _ >>= _) site = _
      rw [result_bind_of_ok Site.answer (result_print _ _), ih]
      cases hostnamesOf rest with
      | error message => rfl
      | ok values =>
        show (Except.ok (hostnames ++ [hostname] ++ values), site) =
          (Except.ok (hostnames ++ hostname :: values), site)
        rw [List.append_assoc, List.singleton_append]

theorem result_actLshost (actifio : String) (sessionid : Value) :
    result Site.answer (actLshost decode .list actifio sessionid)
        ⟨reply :: replies, vms, hosts⟩ = (lshostResult decode reply, ⟨replies, vms, hosts⟩) := by
  unfold actLshost lshostResult
  rw [result_bind_of_ok Site.answer (result_get _)]
  split_ifs
  · rw [result_ofExcept_bind]
    cases decode reply.content with
    | error message => rfl
    | ok items =>
      show result Site.answer (Prog.ofExcept (items.field "result") >>= _) _ =
        (items.field "result" >>= _, _)
      rw [result_ofExcept_bind]
      cases items.field "result" with
      | error message => rfl
      | ok lists =>
        show result Site.answer (Prog.ofExcept lists.elems >>= _) _ = (lists.elems >>= _, _)
        rw [result_ofExcept_bind]
        cases lists.elems with
        | error message => rfl
        | ok elems =>
          show result Site.answer (pushHostnames elems [] >>= _) _ = (hostnamesOf elems, _)
          have hpush := result_pushHostnames elems [] ⟨replies, vms, hosts⟩
          cases h : hostnamesOf elems with
          | error message =>
            rw [h] at hpush
            exact result_bind_of_error Site.answer hpush
          | ok hostnames =>
            rw [h] at hpush
            exact result_bind_of_ok Site.answer hpush
  · rfl

@[simp] theorem result_printNumbered (i : ℕ) (vmHosts : List String) (site : Site) :
    result Site.answer (printNumbered i vmHosts) site = (.ok ⟨⟩, site) := by
  induction vmHosts generalizing i with
  | nil => rfl
  | cons vmHost rest ih => exact (result_bind_of_ok Site.answer (result_print _ _)).trans (ih _)

theorem result_printHostnames (hostnames : List Value) (site : Site) :
    result Site.answer (hostnames.forM fun hostname => print (hostname.str ++ "\n")) site =
      (.ok ⟨⟩, site) :=
  result_forM Site.answer (fun _ _ s => result_print _ s) site

theorem result_vmwareRun (vmService : Stub) (site : Site) :
    result Site.answer (vmwareRun vmService) site = (.ok (site.vms.map (·.name)), site) := by
  show (Except.ok (vmHostsOf site.vms), site) = _
  rw [vmHostsOf_eq]

/-- How far the replies let `main` get with the hostnames. -/
theorem result_mainHostnames (decode : Decoder) (login lshost : Reply) (replies : List Reply)
    (vms : List Vm) (hosts : List String) :
    result Site.answer (mainHostnames decode) ⟨login :: lshost :: replies, vms, hosts⟩ =
      match loginResult decode login with
      | .error message => (.error message, ⟨lshost :: replies, vms, hosts⟩)
      | .ok sessionid =>
        ((lshostResult decode lshost).map (sessionid, ·), ⟨replies, vms, hosts⟩) := by
  unfold mainHostnames
  cases hlogin : loginResult decode login with
  | error message =>
    apply result_bind_of_error
    rw [result_actLogin, hlogin]
    rfl
  | ok sessionid =>
    have hsession : result Site.answer (actLogin decode .scalar Config.actifio Config.name
        Config.pswd Config.vdrk) ⟨login :: lshost :: replies, vms, hosts⟩ =
          (.ok [sessionid], ⟨lshost :: replies, vms, hosts⟩) := by
      rw [result_actLogin, hlogin]
      rfl
    rw [result_bind_of_ok Site.answer hsession, result_bind_of_ok Site.answer (result_print _ _)]
    cases hlshost : lshostResult decode lshost with
    | error message =>
      apply result_bind_of_error
      rw [result_actLshost, hlshost]
    | ok hostnames =>
      have hlist : result Site.answer (actLshost decode .list Config.actifio sessionid)
          ⟨lshost :: replies, vms, hosts⟩ = (.ok hostnames, ⟨replies, vms, hosts⟩) := by
        rw [result_actLshost, hlshost]
      refine (result_bind_of_ok Site.answer hlist).trans ?_
      rw [result_bind_of_ok Site.answer (result_printHostnames _ _)]
      rfl

/-- With the hostnames, `main` gets to the request. -/
theorem result_mainVmHosts (hostnames : List Value) (site : Site) :
    result Site.answer (mainVmHosts hostnames) site =
      (.ok (reconcile (hostnames.map Value.str) (site.vms.map (·.name))), site) := by
  unfold mainVmHosts
  refine (result_bind_of_ok Site.answer rfl).trans ?_
  refine (result_bind_of_ok Site.answer rfl).trans ?_
  rw [result_bind_of_ok Site.answer (result_vmwareRun _ _),
    result_bind_of_ok Site.answer (result_print _ _),
    result_bind_of_ok Site.answer (result_printNumbered _ _ _),
    result_bind_of_ok Site.answer (result_print _ _)]
  rfl

end Runs

/-! ## What is posted -/

/-- The loop over the result list only prints. -/
theorem only_pushHostnames {P : Op → Prop} (hprint : ∀ text, P (.print text))
    (elems hostnames : List Value) : Only P (pushHostnames elems hostnames) := by
  induction elems generalizing hostnames with
  | nil => exact Only.pure _
  | cons item rest ih =>
    exact (Only.ofExcept _).bind fun _ => (Only.ask (hprint _)).bind fun _ => ih _

theorem quiet_actLogin (want : Want) (actifio name pswd vdrk : String) :
    Only Quiet (actLogin decode want actifio name pswd vdrk) := by
  unfold actLogin
  refine (quiet_get _).bind fun response => ?_
  split_ifs
  · exact (Only.ofExcept _).bind fun _ => (Only.ofExcept _).bind fun _ => Only.pure _
  · exact Only.pure _

theorem quiet_actLshost (want : Want) (actifio : String) (sessionid : Value) :
    Only Quiet (actLshost decode want actifio sessionid) := by
  unfold actLshost
  refine (quiet_get _).bind fun response => ?_
  split_ifs
  · exact (Only.ofExcept _).bind fun _ => (Only.ofExcept _).bind fun _ =>
      (Only.ofExcept _).bind fun elems =>
        (only_pushHostnames (fun _ => trivial) elems []).bind fun _ => Only.pure _
  · exact Only.pure _

theorem quiet_printNumbered (i : ℕ) (vmHosts : List String) :
    Only Quiet (printNumbered i vmHosts) := by
  induction vmHosts generalizing i with
  | nil => exact Only.pure _
  | cons vmHost rest ih => exact (quiet_print _).bind fun _ => ih _

theorem quiet_mainHostnames : Only Quiet (mainHostnames decode) := by
  unfold mainHostnames
  refine (quiet_actLogin decode _ _ _ _ _).bind fun returned => ?_
  refine (quiet_print _).bind fun _ => (quiet_actLshost decode _ _ _).bind fun hostnames => ?_
  exact (Only.forM _ fun _ _ => quiet_print _).bind fun _ => Only.pure _

theorem quiet_mainVmHosts (hostnames : List Value) : Only Quiet (mainVmHosts hostnames) := by
  unfold mainVmHosts vmwareInit vmwareSetup vmwareRun
  refine ((Only.ask trivial).bind fun _ => (Only.ofExcept _).bind fun _ => Only.pure _).bind
    fun sampleBase => ?_
  refine ((Only.ask trivial).bind fun _ => (Only.ofExcept _).bind fun _ => Only.pure _).bind
    fun vmService => ?_
  refine ((Only.ask trivial).bind fun _ => (Only.ofExcept _).bind fun _ => Only.pure _).bind
    fun vmHosts => ?_
  exact (quiet_print _).bind fun _ => (quiet_printNumbered _ _).bind fun _ =>
    (quiet_print _).bind fun _ => Only.pure _

section Posted

variable {α β : Type} {p : Script α} {k : α → Script β} {site site' : Site}

theorem posted_of_quiet (hp : Only Quiet p) (site : Site) : posted p site = [] :=
  List.filterMap_eq_nil_iff.2 fun _ hop => postOf_eq_none (hp.mem_calls hop)

theorem posted_bind_of_ok {a : α} (h : result Site.answer p site = (.ok a, site')) :
    posted (p >>= k) site = posted p site ++ posted (k a) site' := by
  unfold posted
  rw [calls_bind_of_ok Site.answer h, List.filterMap_append]

theorem posted_bind_of_error {message : String}
    (h : result Site.answer p site = (.error message, site')) :
    posted (p >>= k) site = posted p site := by
  unfold posted
  rw [calls_bind_of_error Site.answer h]

theorem hosts_answer (op : Op) (site : Site) : (Site.answer site op).2.hosts =
    site.hosts ++ (postOf op).toList.flatMap fun req => requestedNames req.url := by
  cases op with
  | http req =>
    obtain ⟨method, url⟩ := req
    cases method <;> simp [Site.answer, Site.register, postOf]
  | _ => simp [Site.answer, postOf]

/-- Whatever a script does, the host list grows by the names it posts. -/
theorem hosts_result (p : Script α) (site : Site) : (result Site.answer p site).2.hosts =
    site.hosts ++ (posted p site).flatMap fun req => requestedNames req.url := by
  induction p generalizing site with
  | done a => simp [result, posted, calls]
  | die message => simp [result, posted, calls]
  | call op next ih =>
    have hposted : posted (.call op next) site = (postOf op).toList ++
        posted (next (Site.answer site op).1) (Site.answer site op).2 := by
      show (op :: calls Site.answer (next (Site.answer site op).1)
        (Site.answer site op).2).filterMap postOf = _
      rw [List.filterMap_cons]
      cases postOf op <;> rfl
    rw [result, ih, hosts_answer, hposted, List.flatMap_append, List.append_assoc]

end Posted

/-- The request of `main` for the session and the names left. -/
def vmdiscoveryRequest (sessionid : Value) (left : List String) : Request :=
  ⟨.post, vmdiscoveryUrl Config.actifio sessionid.str Config.vcentHname (testVmHosts left)⟩

section Main

variable {decode} {site site' : Site} {message : String} {sessionid : Value}
  {hostnames : List Value} {left : List String}

/-- The end of `main` posts one request. -/
theorem posted_mainRequest : posted (mainRequest sessionid left) site =
    [vmdiscoveryRequest sessionid left] := by
  unfold mainRequest
  rw [posted_bind_of_ok (result_printNumbered 0 left site),
    posted_of_quiet (quiet_printNumbered 0 left)]
  show posted (print (testVmHosts left ++ "\n") >>= fun _ =>
    actVmdiscovery Config.actifio sessionid Config.vcentHname (testVmHosts left)) site = _
  rw [posted_bind_of_ok (result_print _ site), posted_of_quiet (quiet_print _)]
  rfl

theorem posted_main_of_error
    (h : result Site.answer (mainHostnames decode) site = (.error message, site')) :
    posted (main decode) site = [] := by
  unfold main
  rw [posted_bind_of_error h, posted_of_quiet (quiet_mainHostnames decode)]

theorem posted_main_of_ok
    (h : result Site.answer (mainHostnames decode) site = (.ok (sessionid, hostnames), site')) :
    posted (main decode) site = [vmdiscoveryRequest sessionid
      (reconcile (hostnames.map Value.str) (site'.vms.map (·.name)))] := by
  unfold main
  rw [posted_bind_of_ok h, posted_of_quiet (quiet_mainHostnames decode)]
  show posted (mainVmHosts hostnames >>= fun left => mainRequest sessionid left) site' = _
  rw [posted_bind_of_ok (result_mainVmHosts hostnames site'),
    posted_of_quiet (quiet_mainVmHosts hostnames), posted_mainRequest]
  rfl

end Main

/-- What a run of `main` posts, from the two replies. -/
theorem posted_main (login lshost : Reply) (replies : List Reply) (vms : List Vm)
    (hosts : List String) :
    posted (main decode) ⟨login :: lshost :: replies, vms, hosts⟩ =
      match loginResult decode login, lshostResult decode lshost with
      | .ok sessionid, .ok hostnames => [vmdiscoveryRequest sessionid
          (reconcile (hostnames.map Value.str) (vms.map (·.name)))]
      | _, _ => [] := by
  have h := result_mainHostnames decode login lshost replies vms hosts
  cases hlogin : loginResult decode login with
  | error message =>
    rw [hlogin] at h
    exact posted_main_of_error h
  | ok sessionid =>
    rw [hlogin] at h
    cases hlshost : lshostResult decode lshost with
    | error message =>
      rw [hlshost] at h
      exact posted_main_of_error h
    | ok hostnames =>
      rw [hlshost] at h
      rw [posted_main_of_ok h]

/-! ## Which replies let a request through -/

/-- The reply has status 200 and a body that is decoded to an object with a session id, which is a
number or a string that is not empty. -/
def YieldsSession (reply : Reply) : Prop :=
  reply.rc = 200 ∧ ∃ address entries id, decode reply.content = .ok (.hash address entries) ∧
    entries.lookup "sessionid" = some (.text id) ∧ id ≠ ""

/-- The reply has status 200 and a body that is decoded to an object with a list under `result`. -/
def YieldsList (reply : Reply) : Prop :=
  reply.rc = 200 ∧ ∃ address entries address' elems,
    decode reply.content = .ok (.hash address entries) ∧
      entries.lookup "result" = some (.array address' elems)

/-- The reply has status 200 and its body stops `act_login`: the decoder rejects it, or makes
neither an object nor null of it. -/
def LoginStops (reply : Reply) : Prop :=
  reply.rc = 200 ∧ ¬ ∃ items, decode reply.content = .ok items ∧ items.HashLike

/-- The reply has status 200 and its body stops `act_lshost`: the decoder rejects it, or makes
something else of it than an object with a list of objects and nulls under `result`. -/
def LshostStops (reply : Reply) : Prop :=
  reply.rc = 200 ∧ ¬ ∃ items address elems, decode reply.content = .ok items ∧
    items.field "result" = .ok (.array address elems) ∧ ∀ e ∈ elems, e.HashLike

variable {decode} {reply : Reply}

theorem exists_loginResult_iff :
    (∃ sessionid, loginResult decode reply = .ok sessionid) ↔ ¬ LoginStops decode reply := by
  unfold loginResult LoginStops
  split_ifs with hrc
  · cases decode reply.content with
    | error message => simp [hrc, bind, Except.bind]
    | ok items =>
      show (∃ sessionid, items.field "sessionid" = .ok sessionid) ↔ _
      rw [← Value.hashLike_iff]
      simp [hrc]
  · simp [hrc, pure, Except.pure]

theorem exists_hostnamesOf_iff {elems : List Value} :
    (∃ hostnames, hostnamesOf elems = .ok hostnames) ↔ ∀ e ∈ elems, e.HashLike := by
  induction elems with
  | nil => exact iff_of_true ⟨[], rfl⟩ (by simp)
  | cons item rest ih =>
    have hitem : item.HashLike ↔ ∃ hostname, item.field "hostname" = .ok hostname :=
      Value.hashLike_iff
    rw [List.forall_mem_cons, ← ih, hitem, hostnamesOf_cons]
    cases item.field "hostname" with
    | error message => simp [bind, Except.bind]
    | ok hostname =>
      cases hostnamesOf rest with
      | error message => simp [bind, Except.bind]
      | ok hostnames => simp [bind, Except.bind, pure, Except.pure]

theorem exists_lshostResult_iff :
    (∃ hostnames, lshostResult decode reply = .ok hostnames) ↔ ¬ LshostStops decode reply := by
  unfold lshostResult LshostStops
  split_ifs with hrc
  · rw [and_iff_right hrc, not_not]
    cases decode reply.content with
    | error message => simp [bind, Except.bind]
    | ok items =>
      show (∃ hostnames, (items.field "result" >>= fun lists => lists.elems >>= hostnamesOf) =
        .ok hostnames) ↔ _
      cases hlists : items.field "result" with
      | error message => simp [hlists, bind, Except.bind]
      | ok lists =>
        show (∃ hostnames, (lists.elems >>= hostnamesOf) = .ok hostnames) ↔ _
        cases lists with
        | array address elems =>
          show (∃ hostnames, hostnamesOf elems = .ok hostnames) ↔ _
          rw [exists_hostnamesOf_iff]
          simp [hlists]
        | _ => simp [hlists, Value.elems, bind, Except.bind]
  · simp [hrc, pure, Except.pure]

/-- A request is posted whenever neither reply stops its sub. -/
theorem posted_main_ne_nil_iff (login lshost : Reply) (replies : List Reply) (vms : List Vm)
    (hosts : List String) :
    posted (main decode) ⟨login :: lshost :: replies, vms, hosts⟩ ≠ [] ↔
      ¬ LoginStops decode login ∧ ¬ LshostStops decode lshost := by
  rw [← exists_loginResult_iff, ← exists_lshostResult_iff, posted_main]
  cases loginResult decode login with
  | error message => simp
  | ok sessionid =>
    cases lshostResult decode lshost with
    | error message => simp
    | ok hostnames => simp

/-- When a request means that there is a session and a host list: if both are there, or one of the
replies stops the run. -/
theorem posted_only_if_iff (decode : Decoder) (login lshost discovery : Reply) (vms : List Vm)
    (hosts : List String) :
    (posted (main decode) ⟨[login, lshost, discovery], vms, hosts⟩ ≠ [] →
        YieldsSession decode login ∧ YieldsList decode lshost) ↔
      (YieldsSession decode login ∧ YieldsList decode lshost) ∨
        LoginStops decode login ∨ LshostStops decode lshost := by
  rw [posted_main_ne_nil_iff, ← not_or]
  constructor
  · intro h
    by_cases hstops : LoginStops decode login ∨ LshostStops decode lshost
    · exact Or.inr hstops
    · exact Or.inl (h hstops)
  · rintro (hyields | hstops) hposted
    · exact hyields
    · exact absurd hstops hposted

/-! ### A failed listing -/

def sampleLogin : Reply := ⟨200, "\x7b\"sessionid\":\"41b6f3\"\x7d"⟩

def sampleLshost : Reply := ⟨200, "\x7b\"result\":[\x7b\"hostname\":\"web\"\x7d]\x7d"⟩

/-- What a JSON decoder makes of these two bodies, and of a text that is no JSON. -/
def sampleDecoder : Decoder := fun text =>
  if text = sampleLogin.content then .ok (.hash 1 [("sessionid", .text "41b6f3")])
  else if text = sampleLshost.content then
    .ok (.hash 2 [("result", .array 3 [.hash 4 [("hostname", .text "web")]])])
  else .error "malformed JSON string"

/-- The host list could not be read, and a VM that is registered is posted. -/
theorem posted_without_list :
    posted (main sampleDecoder) ⟨[sampleLogin, ⟨500, "Internal Server Error"⟩, ⟨200, ""⟩],
        [⟨"app"⟩, ⟨"web"⟩], ["app", "web"]⟩ =
        [⟨.post, vmdiscoveryUrl Config.actifio "41b6f3" Config.vcentHname "web:"⟩] ∧
      ¬ YieldsList sampleDecoder ⟨500, "Internal Server Error"⟩ := by
  constructor
  · rw [posted_main]
    rfl
  · rintro ⟨hrc, -⟩
    exact absurd hrc (by decide)

end RegNewvm
