import RegNewvm.Model.JsonText
import Mathlib.Data.List.Perm.Basic
import Mathlib.Data.String.Basic

/-!
# What is encoded

The data that the encoder takes are those within its depth limit (`encode_isOk_iff`); the text that
it writes does not depend on the limit (`objectToJson_eq`).  With `canonical` the text depends on
nothing but the data: not on the order in which the entries of a hash are stored or listed
(`encode_canonical`).
-/

namespace RegNewvm.JsonPP

open Reader

variable {perl : Interpreter} {coder : Coder} {n m count : ℕ} {d d' : Data} {t : List Char}

/-! ## Levels -/

theorem not_within_zero_array {items : List Data} : ¬ Within 0 (.array items) := by
  rintro (⟨harray, -⟩ | _ | _)
  exact harray items rfl

theorem not_within_zero_hash {entries : List (String × Data)} : ¬ Within 0 (.hash entries) := by
  rintro (⟨-, hhash⟩ | _ | _)
  exact hhash entries rfl

theorem within_array_iff {items : List Data} :
    Within (n + 1) (.array items) ↔ ∀ d ∈ items, Within n d := by
  refine ⟨fun h => ?_, .array⟩
  cases h with
  | scalar harray _ => exact absurd rfl (harray items)
  | array hitems => exact hitems

theorem within_hash_iff {entries : List (String × Data)} :
    Within (n + 1) (.hash entries) ↔ ∀ entry ∈ entries, Within n entry.2 := by
  refine ⟨fun h => ?_, .hash⟩
  cases h with
  | scalar _ hhash => exact absurd rfl (hhash entries)
  | hash hentries => exact hentries

theorem Within.mono (hd : Within n d) (hnm : n ≤ m) : Within m d := by
  induction hd generalizing m with
  | scalar harray hhash => exact .scalar harray hhash
  | array _ ih =>
    obtain ⟨m, rfl⟩ := Nat.exists_eq_add_of_le' hnm
    exact .array fun d hd => ih d hd (Nat.le_add_left _ _)
  | hash _ ih =>
    obtain ⟨m, rfl⟩ := Nat.exists_eq_add_of_le' hnm
    exact .hash fun entry hentry => ih entry hentry (Nat.le_add_left _ _)

theorem sort_perm (perl : Interpreter) (coder : Coder) (entries : List (String × Data)) :
    (sort perl coder entries).Perm entries := by
  unfold sort
  split_ifs
  · exact (List.perm_insertionSort _ _).trans (perl.keys_perm entries)
  · exact perl.keys_perm entries

/-- A value is written exactly if its levels are allowed. -/
theorem exists_objectToJson_iff (perl : Interpreter) (coder : Coder) (n count : ℕ) (d : Data) :
    (∃ t, objectToJson perl coder n count d = .ok t) ↔ Within n d := by
  induction n generalizing count d with
  | zero =>
    cases d with
    | array items => exact iff_of_false nofun not_within_zero_array
    | hash entries => exact iff_of_false nofun not_within_zero_hash
    | _ => exact iff_of_true ⟨_, rfl⟩ (.scalar nofun nofun)
  | succ n ih =>
    cases d with
    | array items =>
      have hitems := exists_mapM_iff (f := objectToJson perl coder n (upIndent coder count).2.2)
        (l := items)
      simp only [ih] at hitems
      rw [within_array_iff, ← hitems, objectToJson]
      constructor
      · rintro ⟨t, h⟩
        obtain ⟨res, hres, -⟩ := bind_eq_ok.1 h
        exact ⟨res, hres⟩
      · rintro ⟨res, hres⟩
        exact ⟨_, bind_eq_ok.2 ⟨res, hres, rfl⟩⟩
    | hash entries =>
      have hentry (entry : String × Data) : (∃ t, (do
          let v ← objectToJson perl coder n (upIndent coder count).2.2 entry.2
          return stringToJson coder entry.1 ++ del coder ++ v) = Except.ok t) ↔
            Within n entry.2 := by
        rw [← ih (upIndent coder count).2.2]
        constructor
        · rintro ⟨t, h⟩
          obtain ⟨v, hv, -⟩ := bind_eq_ok.1 h
          exact ⟨v, hv⟩
        · rintro ⟨v, hv⟩
          exact ⟨_, bind_eq_ok.2 ⟨v, hv, rfl⟩⟩
      have hperm : (sort perl coder entries).Perm entries := sort_perm _ _ entries
      have hentries := exists_mapM_iff (l := sort perl coder entries) (f := fun entry => do
        let v ← objectToJson perl coder n (upIndent coder count).2.2 entry.2
        return stringToJson coder entry.1 ++ del coder ++ v)
      simp only [hentry, hperm.mem_iff] at hentries
      rw [within_hash_iff, ← hentries, objectToJson]
      constructor
      · rintro ⟨t, h⟩
        obtain ⟨res, hres, -⟩ := bind_eq_ok.1 h
        exact ⟨res, hres⟩
      · rintro ⟨res, hres⟩
        exact ⟨_, bind_eq_ok.2 ⟨res, hres, rfl⟩⟩
    | _ => exact iff_of_true ⟨_, rfl⟩ (.scalar nofun nofun)

/-- What is written does not depend on how many more levels were allowed. -/
theorem objectToJson_eq (hn : Within n d) (hm : Within m d) :
    objectToJson perl coder n count d = objectToJson perl coder m count d := by
  induction n generalizing m count d with
  | zero =>
    cases d with
    | array items => exact absurd hn not_within_zero_array
    | hash entries => exact absurd hn not_within_zero_hash
    | _ => cases m <;> rfl
  | succ n ih =>
    cases d with
    | array items =>
      cases m with
      | zero => exact absurd hm not_within_zero_array
      | succ m =>
        rw [within_array_iff] at hn hm
        rw [objectToJson, objectToJson]
        refine congrArg (· >>= _) (mapM_congr (List.forall₂_same.2 fun d hd => ?_))
        exact ih (hn d hd) (hm d hd)
    | hash entries =>
      cases m with
      | zero => exact absurd hm not_within_zero_hash
      | succ m =>
        rw [within_hash_iff] at hn hm
        rw [objectToJson, objectToJson]
        refine congrArg (· >>= _) (mapM_congr (List.forall₂_same.2 fun entry hentry => ?_))
        have hmem : entry ∈ entries := (sort_perm _ _ entries).subset hentry
        exact congrArg (· >>= _) (ih (hn entry hmem) (hm entry hmem))
    | _ => cases m <;> rfl

theorem exists_ppEncodeJson_iff (perl : Interpreter) (coder : Coder) (d : Data) :
    (∃ t, ppEncodeJson perl coder d = .ok t) ↔
    (d.isRef ∨ coder.allowNonref) ∧ Within coder.maxDepth d := by
  unfold ppEncodeJson
  by_cases href : ¬ d.isRef ∧ ¬ coder.allowNonref
  · rw [if_pos href]
    exact iff_of_false nofun fun h => h.1.elim href.1 href.2
  · rw [if_neg href, ← exists_objectToJson_iff perl coder _ 0]
    rw [not_and_or, not_not, not_not] at href
    constructor
    · rintro ⟨t, h⟩
      obtain ⟨str, hstr, -⟩ := bind_eq_ok.1 h
      exact ⟨href, str, hstr⟩
    · rintro ⟨-, str, hstr⟩
      exact ⟨_, bind_eq_ok.2 ⟨str, hstr, rfl⟩⟩

theorem encode_eq_ok_iff {text : String} : encode perl coder d = .ok text ↔
    ppEncodeJson perl coder d = .ok text.toList := by
  unfold encode
  cases ppEncodeJson perl coder d with
  | error message => exact iff_of_false nofun nofun
  | ok t =>
    show Except.ok (String.ofList t) = Except.ok text ↔ Except.ok t = Except.ok text.toList
    rw [Except.ok.injEq, Except.ok.injEq]
    exact ⟨fun h => by rw [← h, String.toList_ofList], fun h => by rw [h, String.ofList_toList]⟩

/-- The data that can be encoded. -/
theorem encode_isOk_iff (perl : Interpreter) (coder : Coder) (d : Data) :
    (∃ text, encode perl coder d = .ok text) ↔
      (d.isRef ∨ coder.allowNonref) ∧ Within coder.maxDepth d := by
  simp only [encode_eq_ok_iff]
  rw [← exists_ppEncodeJson_iff perl]
  exact ⟨fun ⟨text, h⟩ => ⟨_, h⟩, fun ⟨t, h⟩ => ⟨String.ofList t, by rwa [String.toList_ofList]⟩⟩

/-! ## The same data -/

theorem Same.isRef_eq (h : Same d d') : d.isRef = d'.isRef := by
  cases h <;> rfl

/-- The same key, and the same data. -/
def SameEntry (entry entry' : String × Data) : Prop :=
  entry.1 = entry'.1 ∧ Same entry.2 entry'.2

theorem forall₂_sameEntry_iff {l l' : List (String × Data)} : List.Forall₂ SameEntry l l' ↔
    l.map Prod.fst = l'.map Prod.fst ∧ List.Forall₂ Same (l.map Prod.snd) (l'.map Prod.snd) := by
  induction l generalizing l' with
  | nil => cases l' <;> simp
  | cons a l ih =>
    cases l' with
    | nil => simp
    | cons b l' =>
      rw [List.forall₂_cons, ih]
      simp only [List.map_cons, List.cons_eq_cons, List.forall₂_cons]
      exact and_and_and_comm

theorem same_hash_iff {entries entries' : List (String × Data)} :
    Same (.hash entries) (.hash entries') ↔
      ∃ ordered : List (String × Data), ordered.Perm entries ∧
        List.Forall₂ SameEntry ordered entries' := by
  simp only [forall₂_sameEntry_iff]
  constructor
  · rintro (_ | _ | _ | _ | _ | ⟨hperm, hkeys, h⟩)
    exact ⟨_, hperm, hkeys, h⟩
  · rintro ⟨ordered, hperm, hkeys, h⟩
    exact .hash hperm hkeys h

theorem forall_mem_congr {α β : Type} {P : α → Prop} {Q : β → Prop} {l : List α} {l' : List β}
    (h : List.Forall₂ (fun a b => P a ↔ Q b) l l') : (∀ a ∈ l, P a) ↔ ∀ b ∈ l', Q b := by
  induction h with
  | nil => exact iff_of_true nofun nofun
  | cons hab _ ih => rw [List.forall_mem_cons, List.forall_mem_cons, hab, ih]

theorem Same.within_iff (h : Same d d') : Within n d ↔ Within n d' := by
  induction n generalizing d d' with
  | zero =>
    cases h with
    | array _ => exact iff_of_false not_within_zero_array not_within_zero_array
    | hash _ _ _ => exact iff_of_false not_within_zero_hash not_within_zero_hash
    | _ => exact iff_of_true (.scalar nofun nofun) (.scalar nofun nofun)
  | succ n ih =>
    cases h with
    | array hitems =>
      rw [within_array_iff, within_array_iff]
      exact forall_mem_congr (hitems.imp fun _ _ => ih)
    | @hash entries ordered entries' hperm hkeys hvalues =>
      have hordered : List.Forall₂ (fun a b => Within n a.2 ↔ Within n b.2) ordered entries' :=
        (forall₂_sameEntry_iff.2 ⟨hkeys, hvalues⟩).imp fun _ _ h => ih h.2
      rw [within_hash_iff, within_hash_iff, ← forall_mem_congr hordered]
      simp only [hperm.mem_iff]
    | _ => exact iff_of_true (.scalar nofun nofun) (.scalar nofun nofun)

/-! ## The order of the keys -/

theorem sort_sorted (hcanonical : coder.canonical) (entries : List (String × Data)) :
    (sort perl coder entries).Pairwise fun a b => a.1 ≤ b.1 := by
  have : Std.Total fun a b : String × Data => a.1 ≤ b.1 := ⟨fun a b => le_total a.1 b.1⟩
  have : IsTrans (String × Data) fun a b => a.1 ≤ b.1 := ⟨fun _ _ _ => le_trans⟩
  unfold sort
  rw [if_pos hcanonical]
  exact List.pairwise_insertionSort _ _

/-- Sorted by distinct keys, the entries of the same hashes are listed alike. -/
theorem forall₂_sort (perl perl' : Interpreter) {entries entries' : List (String × Data)}
    (hcanonical : coder.canonical) (hkeys : (entries.map Prod.fst).Nodup)
    (h : Same (.hash entries) (.hash entries')) :
    List.Forall₂ SameEntry (sort perl coder entries) (sort perl' coder entries') := by
  obtain ⟨ordered, hperm, hordered⟩ := same_hash_iff.1 h
  obtain ⟨listed, hlisted, hperm'⟩ :=
    List.perm_comp_forall₂ ((sort_perm perl coder entries).trans hperm.symm) hordered
  have hfst : (sort perl coder entries).map Prod.fst = listed.map Prod.fst :=
    (forall₂_sameEntry_iff.1 hlisted).1
  have hnodup : (listed.map Prod.fst).Nodup := by
    rw [← hfst]
    exact ((sort_perm _ _ entries).map Prod.fst).nodup_iff.2 hkeys
  have hsorted : listed.Pairwise fun a b => a.1 ≤ b.1 := by
    rw [← List.pairwise_map (f := Prod.fst) (R := (· ≤ ·)), ← hfst, List.pairwise_map]
    exact sort_sorted hcanonical entries
  have hall : listed.Perm (sort perl' coder entries') :=
    hperm'.trans (sort_perm perl' coder entries').symm
  have heq : listed = sort perl' coder entries' := by
    refine hall.eq_of_pairwise (fun a b ha hb hab hba => ?_) hsorted (sort_sorted hcanonical _)
    exact List.inj_on_of_nodup_map hnodup ha (hall.mem_iff.2 hb) (le_antisymm hab hba)
  rwa [heq] at hlisted

theorem objectToJson_canonical {Number : String → Prop} (perl' : Interpreter)
    (hcanonical : coder.canonical) (hd : WellFormed Number d) (h : Same d d') :
    objectToJson perl coder n count d = objectToJson perl' coder n count d' := by
  induction n generalizing count d d' with
  | zero => cases h <;> rfl
  | succ n ih =>
    cases h with
    | array hitems =>
      cases hd with
      | array hwell =>
        rw [objectToJson, objectToJson]
        refine congrArg (· >>= _) (mapM_congr ?_)
        exact ((List.forall₂_and_left _ _).2 ⟨hwell, hitems⟩).imp fun _ _ h => ih h.1 h.2
    | @hash entries ordered entries' hperm hkeys hvalues =>
      cases hd with
      | hash hnodup hwell =>
        rw [objectToJson, objectToJson]
        refine congrArg (· >>= _) (mapM_congr ?_)
        have hsort := forall₂_sort perl perl' hcanonical hnodup
          (.hash hperm hkeys hvalues)
        have hwell' : ∀ entry ∈ sort perl coder entries, WellFormed Number entry.2 :=
          fun entry hentry => hwell entry ((sort_perm _ _ entries).subset hentry)
        refine ((List.forall₂_and_left _ _).2 ⟨hwell', hsort⟩).imp ?_
        rintro ⟨k, v⟩ ⟨k', v'⟩ ⟨hv, hk, hsame⟩
        obtain rfl : k = k' := hk
        exact congrArg (· >>= _) (ih hv hsame)
    | _ => rfl

/-- With `canonical`, the same data are written as the same text, however the hashes are stored and
whatever the order in which the interpreter lists them. -/
theorem encode_canonical {Number : String → Prop} (perl perl' : Interpreter)
    (hcanonical : coder.canonical) (hd : WellFormed Number d) (h : Same d d') :
    encode perl coder d = encode perl' coder d' := by
  unfold encode ppEncodeJson
  rw [h.isRef_eq, objectToJson_canonical perl' hcanonical hd h]

/-- Two interpreters that list a hash in opposite orders. -/
theorem encode_canonical_sample :
    encode .plain { canonical := true } (.hash [("b", .null), ("a", .bool true)]) =
      encode { Interpreter.plain with keys := List.reverse, keys_perm := List.reverse_perm }
        { canonical := true } (.hash [("a", .bool true), ("b", .null)]) := by
  have hwell : WellFormed (fun _ => True) (.hash [("b", .null), ("a", .bool true)]) :=
    .hash (by decide) (by
      rintro _ (_ | ⟨_, _ | ⟨_, ⟨⟩⟩⟩)
      · exact .null
      · exact .bool true)
  have hsame : Same (.hash [("b", .null), ("a", .bool true)])
      (.hash [("a", .bool true), ("b", .null)]) :=
    .hash (.swap _ _ []) rfl (.cons (.bool true) (.cons .null .nil))
  exact encode_canonical _ _ rfl hwell hsame

end RegNewvm.JsonPP
