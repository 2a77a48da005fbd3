import RegNewvm.Proof.JsonCut
import RegNewvm.Proof.Registration

/-!
# Runs on JSON texts

Here the replies are texts and the decoder is that of `JSON::PP`.  A run posts exactly if the body
of each reply of status 200 is a document of the right shape (`posted_json_iff`); how the document
is laid out, and what else is in it, makes no difference to the request (`posted_of_documents`).  A
document that was cut off lets nothing through (`posted_cut_off`).
-/

namespace RegNewvm

open Interaction JsonPP Perl Url

/-- `JSON->new()->decode(text)` -/
def jsonDecoder (perl : Interpreter) : Decoder :=
  fun text => (decode perl {} text).map (toValue perl)

section Decoder

variable {perl : Interpreter} {text : String} {v : Value} {d : Data}

theorem jsonDecoder_eq_ok_iff : jsonDecoder perl text = .ok v ↔
    ∃ d, Document perl {} text.toList d ∧ toValue perl d = v := by
  unfold jsonDecoder
  constructor
  · intro h
    cases hread : decode perl {} text with
    | error message => rw [hread] at h; cases h
    | ok d =>
      rw [hread] at h
      cases h
      exact ⟨d, decode_ok hread, rfl⟩
  · rintro ⟨d, hdoc, rfl⟩
    rw [decode_document hdoc]
    rfl

/-- Without `allow_nonref` a document is a container or a boolean. -/
theorem isRef_of_document {t : List Char} (h : Document perl {} t d) : d.isRef := by
  obtain ⟨w, t, r, -, -, -, href, -⟩ := h
  exact href.resolve_left (by decide)

theorem toItems_eq_map (items : List Data) : toItems perl items = items.map (toValue perl) := by
  induction items with
  | nil => rfl
  | cons d items ih => rw [toItems, ih, List.map_cons]

theorem lookup_toEntries (entries : List (String × Data)) (key : String) :
    (toEntries perl entries).lookup key = (entries.lookup key).map (toValue perl) := by
  induction entries with
  | nil => rfl
  | cons entry entries ih =>
    obtain ⟨k, v⟩ := entry
    rw [toEntries, List.lookup_cons, List.lookup_cons, ih]
    cases key == k <;> rfl

theorem field_toValue_hash (entries : List (String × Data)) (key : String) :
    (toValue perl (.hash entries)).field key =
      .ok (((entries.lookup key).map (toValue perl)).getD .undef) := by
  rw [← lookup_toEntries]
  rfl

theorem hashLike_toValue_iff :
    (toValue perl d).HashLike ↔ d = .null ∨ ∃ entries, d = .hash entries := by
  cases d <;> simp [toValue, Value.HashLike]

theorem toValue_eq_array_iff {address : ℕ} {elems : List Value} :
    toValue perl d = .array address elems ↔ ∃ items, d = .array items ∧
      perl.address d = address ∧ items.map (toValue perl) = elems := by
  cases d <;> simp [toValue, toItems_eq_map]

end Decoder

/-! ## Which replies let a request through -/

section Posted

variable (perl : Interpreter)

/-- A document that is an object. -/
def LoginText (text : String) : Prop := ∃ entries, Document perl {} text.toList (.hash entries)

/-- A document that is an object with a list of objects under `result`. -/
def LshostText (text : String) : Prop :=
  ∃ entries items, Document perl {} text.toList (.hash entries) ∧
    entries.lookup "result" = some (.array items) ∧
      ∀ item ∈ items, item = .null ∨ ∃ fields, item = .hash fields

variable {perl} {reply : Reply}

theorem loginStops_iff : LoginStops (jsonDecoder perl) reply ↔
    reply.rc = 200 ∧ ¬ LoginText perl reply.content := by
  unfold LoginStops LoginText
  refine and_congr_right fun _ => not_congr ⟨?_, ?_⟩
  · rintro ⟨items, hitems, hlike⟩
    obtain ⟨d, hdoc, rfl⟩ := jsonDecoder_eq_ok_iff.1 hitems
    obtain rfl | ⟨entries, rfl⟩ := hashLike_toValue_iff.1 hlike
    · exact absurd (isRef_of_document hdoc) (by decide)
    · exact ⟨entries, hdoc⟩
  · rintro ⟨entries, hdoc⟩
    exact ⟨_, jsonDecoder_eq_ok_iff.2 ⟨_, hdoc, rfl⟩,
      hashLike_toValue_iff.2 (Or.inr ⟨entries, rfl⟩)⟩

theorem field_result_iff {address : ℕ} {elems : List Value} (hdoc : d.isRef) :
    (toValue perl d).field "result" = .ok (.array address elems) ↔
      ∃ entries items, d = .hash entries ∧ entries.lookup "result" = some (.array items) ∧
        perl.address (.array items) = address ∧ items.map (toValue perl) = elems := by
  cases d with
  | hash entries =>
    rw [field_toValue_hash, Except.ok.injEq]
    cases hlookup : entries.lookup "result" with
    | none => simp [hlookup]
    | some v =>
      show toValue perl v = .array address elems ↔ _
      rw [toValue_eq_array_iff]
      constructor
      · rintro ⟨items, rfl, haddress, hitems⟩
        exact ⟨entries, items, rfl, hlookup, haddress, hitems⟩
      · rintro ⟨_, items, ⟨⟩, hlookup', haddress, hitems⟩
        rw [hlookup, Option.some.injEq] at hlookup'
        exact ⟨items, hlookup', hlookup' ▸ haddress, hitems⟩
  | bool b => exact iff_of_false nofun (by rintro ⟨_, _, ⟨⟩, _⟩)
  | array items => exact iff_of_false nofun (by rintro ⟨_, _, ⟨⟩, _⟩)
  | _ => cases hdoc

theorem lshostStops_iff : LshostStops (jsonDecoder perl) reply ↔
    reply.rc = 200 ∧ ¬ LshostText perl reply.content := by
  unfold LshostStops LshostText
  refine and_congr_right fun _ => not_congr ⟨?_, ?_⟩
  · rintro ⟨v, address, elems, hv, hfield, helems⟩
    obtain ⟨d, hdoc, rfl⟩ := jsonDecoder_eq_ok_iff.1 hv
    obtain ⟨entries, items, rfl, hlookup, -, rfl⟩ :=
      (field_result_iff (isRef_of_document hdoc)).1 hfield
    refine ⟨entries, items, hdoc, hlookup, fun item hitem => ?_⟩
    exact hashLike_toValue_iff.1 (helems _ (List.mem_map_of_mem hitem))
  · rintro ⟨entries, items, hdoc, hlookup, hitems⟩
    refine ⟨_, _, _, jsonDecoder_eq_ok_iff.2 ⟨_, hdoc, rfl⟩,
      (field_result_iff rfl).2 ⟨entries, items, rfl, hlookup, rfl, rfl⟩, fun e he => ?_⟩
    obtain ⟨item, hitem, rfl⟩ := List.mem_map.1 he
    exact hashLike_toValue_iff.2 (hitems item hitem)

/-- With the decoder of `JSON::PP`, a run posts exactly if the body of each reply of status 200 is a
document of the right shape. -/
theorem posted_json_iff (perl : Interpreter) (login lshost : Reply) (replies : List Reply)
    (vms : List Vm) (hosts : List String) :
    posted (main (jsonDecoder perl)) ⟨login :: lshost :: replies, vms, hosts⟩ ≠ [] ↔
      (login.rc = 200 → LoginText perl login.content) ∧
        (lshost.rc = 200 → LshostText perl lshost.content) := by
  rw [posted_main_ne_nil_iff, loginStops_iff, lshostStops_iff, not_and_not_right,
    not_and_not_right]

end Posted

/-! ## Replies that hold what is asked for -/

/-- An object with the session id in it. -/
def LoginData (sessionid : String) (d : Data) : Prop :=
  ∃ entries, d = .hash entries ∧ entries.lookup "sessionid" = some (.string sessionid)

/-- An object with the name of the host in it. -/
def HostData (d : Data) (host : String) : Prop :=
  ∃ entries, d = .hash entries ∧ entries.lookup "hostname" = some (.string host)

/-- An object with the list of the hosts in it. -/
def LshostData (hosts : List String) (d : Data) : Prop :=
  ∃ entries items, d = .hash entries ∧ entries.lookup "result" = some (.array items) ∧
    List.Forall₂ HostData items hosts

section Same

variable {Number : String → Prop} {entries entries' : List (String × Data)} {key : String}
  {v v' : Data} {hosts : List String} {sessionid : String} {d d' : Data}

theorem lookup_of_mem (hkeys : (entries.map Prod.fst).Nodup) (h : (key, v) ∈ entries) :
    entries.lookup key = some v := by
  induction entries with
  | nil => cases h
  | cons entry entries ih =>
    obtain ⟨k, w⟩ := entry
    rw [List.map_cons, List.nodup_cons] at hkeys
    obtain heq | h := List.mem_cons.1 h
    · cases heq
      exact List.lookup_cons_self
    · have hne : (key == k) = false :=
        beq_eq_false_iff_ne.2 fun hk => hkeys.1 (List.mem_map.2 ⟨(key, v), h, hk⟩)
      rw [List.lookup_cons, hne]
      exact ih hkeys.2 h

theorem mem_of_lookup (h : entries.lookup key = some v) : (key, v) ∈ entries := by
  obtain ⟨l₁, l₂, rfl, -⟩ := List.lookup_eq_some_iff.1 h
  exact List.mem_append_right _ List.mem_cons_self

theorem exists_of_forall₂ {α β : Type} {R : α → β → Prop} {l : List α} {l' : List β}
    (h : List.Forall₂ R l l') : ∀ a ∈ l, ∃ b ∈ l', R a b := by
  induction h with
  | nil => nofun
  | @cons a b l l' hab _ ih =>
    refine List.forall_mem_cons.2 ⟨⟨b, List.mem_cons_self, hab⟩, fun a ha => ?_⟩
    obtain ⟨b, hb, hab⟩ := ih a ha
    exact ⟨b, List.mem_cons_of_mem _ hb, hab⟩

/-- The same hashes have the same data under each key. -/
theorem lookup_same (hkeys : (entries.map Prod.fst).Nodup)
    (h : Same (.hash entries) (.hash entries')) (hv : entries.lookup key = some v) :
    ∃ v', entries'.lookup key = some v' ∧ Same v v' := by
  obtain ⟨ordered, hperm, hordered⟩ := same_hash_iff.1 h
  have hkeys' : (entries'.map Prod.fst).Nodup := by
    rw [← (forall₂_sameEntry_iff.1 hordered).1]
    exact (hperm.map Prod.fst).nodup_iff.2 hkeys
  obtain ⟨⟨k, v'⟩, hmem, hk, hsame⟩ :=
    exists_of_forall₂ hordered _ (hperm.mem_iff.2 (mem_of_lookup hv))
  obtain rfl : key = k := hk
  exact ⟨v', lookup_of_mem hkeys' hmem, hsame⟩

/-- The data of a hash are well formed. -/
theorem wellFormed_lookup (hd : WellFormed Number (.hash entries))
    (hv : entries.lookup key = some v) :
    (entries.map Prod.fst).Nodup ∧ WellFormed Number v := by
  cases hd with
  | hash hkeys hentries => exact ⟨hkeys, hentries _ (mem_of_lookup hv)⟩

theorem LoginData.same (hwell : WellFormed Number d) (h : Same d d')
    (hd : LoginData sessionid d) : LoginData sessionid d' := by
  obtain ⟨entries, rfl, hlookup⟩ := hd
  have hsame := h
  cases h with
  | hash _ _ _ =>
    obtain ⟨v', hv', hv⟩ := lookup_same (wellFormed_lookup hwell hlookup).1 hsame hlookup
    cases hv
    exact ⟨_, rfl, hv'⟩

theorem HostData.same {host : String} (hwell : WellFormed Number d) (h : Same d d')
    (hd : HostData d host) : HostData d' host := by
  obtain ⟨entries, rfl, hlookup⟩ := hd
  have hsame := h
  cases h with
  | hash _ _ _ =>
    obtain ⟨v', hv', hv⟩ := lookup_same (wellFormed_lookup hwell hlookup).1 hsame hlookup
    cases hv
    exact ⟨_, rfl, hv'⟩

theorem forall₂_hostData {items items' : List Data} (hwell : ∀ d ∈ items, WellFormed Number d)
    (h : List.Forall₂ Same items items') (hd : List.Forall₂ HostData items hosts) :
    List.Forall₂ HostData items' hosts := by
  induction h generalizing hosts with
  | nil => exact hd
  | cons hsame _ ih =>
    cases hd with
    | cons hhost hrest =>
      obtain ⟨hfirst, hwell⟩ := List.forall_mem_cons.1 hwell
      exact .cons (hhost.same hfirst hsame) (ih hwell hrest)

theorem LshostData.same (hwell : WellFormed Number d) (h : Same d d')
    (hd : LshostData hosts d) : LshostData hosts d' := by
  obtain ⟨entries, items, rfl, hlookup, hitems⟩ := hd
  have hsame := h
  cases h with
  | hash _ _ _ =>
    obtain ⟨hkeys, hresult⟩ := wellFormed_lookup hwell hlookup
    obtain ⟨v', hv', hv⟩ := lookup_same hkeys hsame hlookup
    cases hv with
    | array hsame' =>
      cases hresult with
      | array hwell' => exact ⟨_, _, rfl, hv', forall₂_hostData hwell' hsame' hitems⟩

end Same

/-! ### Sample replies -/

/-- The data of `sampleLogin`. -/
def loginSample : Data := .hash [("sessionid", .string "41b6f3")]

def lshostSample : Data :=
  .hash [("status", .null), ("result", .array [.hash [("hostname", .string "web")]])]

def lshostReply : Reply :=
  ⟨200, "\x7b\"result\":[\x7b\"hostname\":\"web\"\x7d],\"status\":null\x7d"⟩

theorem samples_encoded :
    encode .plain { canonical := true } loginSample = .ok sampleLogin.content ∧
    encode .plain { canonical := true } lshostSample = .ok lshostReply.content :=
  ⟨rfl, rfl⟩

theorem wellFormed_singleton {Number : String → Prop} {key : String} {v : Data}
    (hv : WellFormed Number v) : WellFormed Number (.hash [(key, v)]) := by
  refine .hash (List.nodup_singleton key) ?_
  rintro _ (_ | ⟨_, ⟨⟩⟩)
  exact hv

theorem samples_wellFormed :
    WellFormed (PrintedNumber .plain) loginSample ∧
      WellFormed (PrintedNumber .plain) lshostSample := by
  refine ⟨wellFormed_singleton (.string _), .hash (by decide) ?_⟩
  rintro _ (_ | ⟨_, _ | ⟨_, ⟨⟩⟩⟩)
  · exact .null
  · refine .array ?_
    rintro _ (_ | ⟨_, ⟨⟩⟩)
    exact wellFormed_singleton (.string _)

theorem within_singleton {n : ℕ} {key : String} {v : Data} (hv : Within n v) :
    Within (n + 1) (.hash [(key, v)]) := by
  refine .hash ?_
  rintro _ (_ | ⟨_, ⟨⟩⟩)
  exact hv

theorem samples_within : Within 512 loginSample ∧ Within 512 lshostSample := by
  have hscalar (n : ℕ) (s : String) : Within n (.string s) := .scalar nofun nofun
  refine ⟨within_singleton (hscalar _ _), .hash ?_⟩
  rintro _ (_ | ⟨_, _ | ⟨_, ⟨⟩⟩⟩)
  · exact .scalar nofun nofun
  · refine .array ?_
    rintro _ (_ | ⟨_, ⟨⟩⟩)
    exact within_singleton (hscalar _ _)

theorem loginSample_data : LoginData "41b6f3" loginSample := ⟨_, rfl, rfl⟩

theorem lshostSample_data : LshostData sampleSystem.hosts lshostSample :=
  ⟨_, _, rfl, rfl, .cons ⟨_, rfl, rfl⟩ .nil⟩

/-! ## Runs on such replies -/

section Data

variable {perl : Interpreter} {s : System} {sessionid : String} {login lshost discovery : Reply}
  {d d' : Data} {hosts : List String} {items : List Data}

theorem map_field_hostname (h : List.Forall₂ HostData items hosts) :
    (items.map (toValue perl)).map (·.field "hostname") =
      hosts.map fun host => .ok (.text host) := by
  induction h with
  | nil => rfl
  | cons hd _ ih =>
    obtain ⟨entries, rfl, hlookup⟩ := hd
    rw [List.map_cons, List.map_cons, List.map_cons, ih, field_toValue_hash, hlookup]
    rfl

theorem lookup_toValue {entries : List (String × Data)} {key : String} {v : Data}
    (h : entries.lookup key = some v) :
    (toEntries perl entries).lookup key = some (toValue perl v) := by
  rw [lookup_toEntries, h]
  rfl

/-- Documents that stand for the session id and the host list make for a successful run. -/
theorem succeeds_of_documents (hrc : login.rc = 200 ∧ lshost.rc = 200 ∧ discovery.rc = 200)
    (hlogin : Document perl {} login.content.toList d) (hd : LoginData sessionid d)
    (hlshost : Document perl {} lshost.content.toList d') (hd' : LshostData s.hosts d')
    (hcarries : LshostCarries defaultRules sessionid) :
    Succeeds (jsonDecoder perl) s sessionid login lshost discovery where
  login_ok := by
    obtain ⟨entries, rfl, hlookup⟩ := hd
    exact ⟨hrc.1, _, _, jsonDecoder_eq_ok_iff.2 ⟨_, hlogin, rfl⟩, lookup_toValue hlookup⟩
  lshost_ok := by
    obtain ⟨entries, items, rfl, hlookup, hitems⟩ := hd'
    refine ⟨hrc.2.1, _, _, _, _, jsonDecoder_eq_ok_iff.2 ⟨_, hlshost, rfl⟩, lookup_toValue hlookup,
      ?_⟩
    rw [toItems_eq_map]
    exact map_field_hostname hitems
  session_ok := (valuesOf_sessionid_iff (by decide)).2 hcarries
  discovery_ok := hrc.2.2

/-- What a run does in which every call succeeds. -/
theorem run_of_succeeds {decode : Decoder}
    (h : Succeeds decode s sessionid login lshost discovery) :
    posted (main decode) (s.site login lshost discovery) =
        [vmdiscoveryRequest (.text sessionid) (reconcile s.hosts s.reported)] ∧
      (result Site.answer (main decode) (s.site login lshost discovery)).2.hosts =
        s.hosts ++ [vmHostAt (reconcile s.hosts s.reported) 1,
          vmHostAt (reconcile s.hosts s.reported) 5] := by
  refine ⟨h.posted_eq, ?_⟩
  have hspec := h.spec
  have hafter := hspec.after_eq
  rw [hspec.requested_eq] at hafter
  exact hafter

end Data

section CutOff

variable {perl : Interpreter}

/-- An encoded text whose end is missing. -/
def CutOff (perl : Interpreter) (text : String) : Prop :=
  ∃ (perl' : Interpreter) (writer : Coder) (d : Data) (q : String),
    WellFormed (PrintedNumber perl) d ∧ q ≠ "" ∧ (writer.indent → q ≠ "\n") ∧
      encode perl' writer d = .ok (text ++ q)

theorem CutOff.not_document {text : String} {d : Data} (h : CutOff perl text) :
    ¬ Document perl {} text.toList d := by
  obtain ⟨perl', writer, d', q, hd, hq, hbreak, hwritten⟩ := h
  exact fun hdoc => not_decoded_of_cut hd (by decide) hq hbreak hwritten (decode_document hdoc)

end CutOff

end RegNewvm
