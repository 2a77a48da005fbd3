import RegNewvm.Model.Reconcile
import Mathlib.Data.List.Count
import Mathlib.Data.List.InsertIdx
import Mathlib.Order.Nat

/-!
# One pass of the inner loop

A pass for the hostname `h` on the array `V` goes through at most three phases (`Phase`): before
the first match the array is `V` and `$i` is the position; after exactly one match the array is `V`
without the first `h` and `$i` stays behind the position; after a second match an element equal to
`h` has been left behind and stays in the array.  So the pass removes `h` exactly when `h` occurs
at most once in `V` (`mem_pass_iff`, `pass_eq_erase`).  `pass_spec` collects what holds at every
step for any number of repeats.
-/

namespace RegNewvm

open Perl Transition

variable {α : Type*} [DecidableEq α] {hostname : α} {V : List α} {w w' : Walk α ℕ}
  {visited : List (Walk α ℕ)}

/-- The element under the walk is the hostname. -/
def Matches (hostname : α) (w : Walk α ℕ) : Prop := w.arr[w.pos]? = some hostname

instance (hostname : α) (w : Walk α ℕ) : Decidable (Matches hostname w) :=
  inferInstanceAs (Decidable (_ = _))

theorem reconcileBody_shrinks (hostname : α) : Shrinks (reconcileBody hostname) := by
  intro x arr i
  rw [reconcileBody]
  split_ifs
  · rw [splice_one]
    exact (List.eraseIdx_sublist arr i).length_le
  · exact Nat.le_refl _

theorem after_matches : w.after (reconcileBody hostname) hostname =
    ⟨w.arr.eraseIdx w.vars, w.pos + 1, 0⟩ := by
  simp only [Walk.after, reconcileBody, if_true, splice_one]

theorem after_ne {x : α} (hx : x ≠ hostname) : w.after (reconcileBody hostname) x =
    ⟨w.arr, w.pos + 1, w.vars + 1⟩ := by
  simp only [Walk.after, reconcileBody, if_neg hx.symm]

/-- A match splices one element at `$i`. -/
theorem exists_next_of_matches (hm : Matches hostname w) :
    ∃ w', w.next (reconcileBody hostname) = some w' ∧ w'.arr = splice w.arr w.vars 1 := by
  refine ⟨_, Walk.next_eq_some_iff.2 ⟨hostname, hm, rfl⟩, ?_⟩
  rw [after_matches, splice_one]

/-- The two things a step can do. -/
theorem pass_step_cases (h : w.next (reconcileBody hostname) = some w') :
    (Matches hostname w ∧ w' = ⟨w.arr.eraseIdx w.vars, w.pos + 1, 0⟩) ∨
      (¬ Matches hostname w ∧ w.pos < w.arr.length ∧ w' = ⟨w.arr, w.pos + 1, w.vars + 1⟩) := by
  obtain ⟨x, hx, rfl⟩ := Walk.next_eq_some_iff.1 h
  by_cases hxh : x = hostname
  · subst hxh
    exact Or.inl ⟨hx, after_matches⟩
  · have hlt := (List.getElem?_eq_some_iff.1 hx).1
    refine Or.inr ⟨?_, hlt, after_ne hxh⟩
    rw [Matches, hx, Option.some.injEq]
    exact hxh

/-! ## Any number of repeats -/

/-- The run of the inner loop from `w`, through the states `visited`, to `w'`. -/
abbrev PassTrace (hostname : α) : Walk α ℕ → List (Walk α ℕ) → Walk α ℕ → Prop :=
  Trace (machine (Walk.next (reconcileBody hostname)))

/-- `$i` never passes the position of the walk. -/
theorem offset_le_of_step (hw : w.vars ≤ w.pos) (h : w.next (reconcileBody hostname) = some w') :
    w'.vars ≤ w'.pos := by
  obtain ⟨-, rfl⟩ | ⟨-, -, rfl⟩ := pass_step_cases h
  · exact Nat.zero_le _
  · exact Nat.succ_le_succ hw

omit [DecidableEq α] in
theorem offset_lt_length (hw : w.vars ≤ w.pos) (h : Matches hostname w) :
    w.vars < w.arr.length :=
  Nat.lt_of_le_of_lt hw (List.getElem?_eq_some_iff.1 h).1

theorem sublist_of_step (h : w.next (reconcileBody hostname) = some w') :
    w'.arr.Sublist w.arr := by
  obtain ⟨-, rfl⟩ | ⟨-, -, rfl⟩ := pass_step_cases h
  · exact List.eraseIdx_sublist _ _
  · exact List.Sublist.refl _

/-- Every match takes exactly one element out of the array. -/
theorem length_add_matches (h : PassTrace hostname w visited w') (hw : w.vars ≤ w.pos) :
    w'.arr.length + visited.countP (Matches hostname ·) = w.arr.length := by
  induction h with
  | nil => rfl
  | @cons s t u a l first _ ih =>
    obtain ⟨rfl, hs⟩ := first
    have ih := ih (offset_le_of_step hw hs)
    obtain ⟨hm, rfl⟩ | ⟨hm, -, rfl⟩ := pass_step_cases hs
    · have hlen := List.length_eraseIdx_add_one (offset_lt_length hw hm)
      rw [List.countP_cons_of_pos (by simpa using hm), ← hlen, ← ih, Nat.add_assoc]
    · rw [List.countP_cons_of_neg (by simpa using hm)]
      exact ih

/-- The matches are among the elements the walk has not passed yet. -/
theorem matches_le_count (h : PassTrace hostname w visited w') (hw : w.vars ≤ w.pos) :
    visited.countP (Matches hostname ·) ≤ (w.arr.drop w.pos).count hostname := by
  induction h with
  | nil => exact Nat.zero_le _
  | @cons s t u a l first _ ih =>
    obtain ⟨rfl, hs⟩ := first
    have ih := ih (offset_le_of_step hw hs)
    have mono (p : ℕ) : (a.arr.drop (p + 1)).count hostname ≤ (a.arr.drop p).count hostname :=
      (List.drop_sublist_drop_left a.arr (Nat.le_succ p)).count_le _
    obtain ⟨hm, rfl⟩ | ⟨hm, -, rfl⟩ := pass_step_cases hs
    · obtain ⟨hp, hx⟩ := List.getElem?_eq_some_iff.1 hm
      rw [List.countP_cons_of_pos (by simpa using hm), List.drop_eq_getElem_cons hp, hx,
        List.count_cons_self]
      -- the splice skips the element behind the match, so the rest is `drop (pos + 2)`
      rw [drop_eraseIdx (Nat.le_succ_of_le hw)] at ih
      exact Nat.succ_le_succ (ih.trans (mono _))
    · rw [List.countP_cons_of_neg (by simpa using hm)]
      exact ih.trans (mono _)

/-! ## The three phases of a pass -/

/-- The walk over `V` has not met the hostname yet. -/
structure Fresh (hostname : α) (V : List α) (w : Walk α ℕ) : Prop where
  arr_eq : w.arr = V
  offset_eq : w.vars = w.pos
  unseen : hostname ∉ V.take w.pos

omit [DecidableEq α] in
theorem fresh_start (hostname : α) (V : List α) : Fresh hostname V (.start V 0) :=
  ⟨rfl, rfl, by simp [Walk.start]⟩

theorem Fresh.step (hw : Fresh hostname V w) (hm : ¬ Matches hostname w)
    (h : w.next (reconcileBody hostname) = some w') : Fresh hostname V w' := by
  obtain ⟨hm', -⟩ | ⟨-, -, rfl⟩ := pass_step_cases h
  · exact absurd hm' hm
  · refine ⟨hw.arr_eq, congrArg Nat.succ hw.offset_eq, ?_⟩
    rw [List.take_add_one, List.mem_append, not_or, Option.mem_toList]
    exact ⟨hw.unseen, fun hx => hm (by rw [Matches, hw.arr_eq]; exact hx)⟩

/-- The first match deletes the first occurrence. -/
theorem Fresh.splice_eq (hw : Fresh hostname V w) (hm : Matches hostname w) :
    w.pos = V.idxOf hostname ∧ w.arr.eraseIdx w.vars = V.erase hostname := by
  rw [Matches, hw.arr_eq] at hm
  rw [hw.arr_eq, hw.offset_eq]
  exact ⟨(idxOf_of_not_mem_take hw.unseen hm).symm, eraseIdx_of_not_mem_take hw.unseen hm⟩

/-- Where a pass for `hostname` over `V` can be. -/
inductive Phase (hostname : α) (V : List α) (w : Walk α ℕ) : Prop
  | fresh (hw : Fresh hostname V w)
  | once (harr : w.arr = V.erase hostname) (hi : w.vars < w.pos) (hmem : hostname ∈ V)
  | stuck (hleft : hostname ∈ w.arr.take w.pos) (hi : w.vars < w.pos)
      (htwice : 2 ≤ V.count hostname)

theorem two_le_count_of_mem_erase (h : hostname ∈ V.erase hostname) : 2 ≤ V.count hostname := by
  have hpos := List.count_pos_iff.2 h
  rw [List.count_erase_self] at hpos
  omega

theorem Phase.step (hph : Phase hostname V w)
    (h : w.next (reconcileBody hostname) = some w') : Phase hostname V w' := by
  obtain ⟨hm, rfl⟩ | ⟨hm, -, rfl⟩ := pass_step_cases h
  · cases hph with
    | fresh hw =>
      refine .once (hw.splice_eq hm).2 (Nat.succ_pos _) ?_
      rw [← hw.arr_eq]
      exact List.mem_of_getElem? hm
    | once harr hi _ =>
      refine .stuck (mem_take_eraseIdx hi hm) (Nat.succ_pos _) (two_le_count_of_mem_erase ?_)
      rw [← harr]
      exact List.mem_of_getElem? hm
    | stuck _ hi htwice => exact .stuck (mem_take_eraseIdx hi hm) (Nat.succ_pos _) htwice
  · cases hph with
    | fresh hw => exact .fresh (hw.step hm h)
    | once harr hi hmem => exact .once harr (Nat.succ_lt_succ hi) hmem
    | stuck hleft hi htwice =>
      exact .stuck ((List.take_sublist_take_left (Nat.le_succ _)).subset hleft)
        (Nat.succ_lt_succ hi) htwice

/-- How a pass ends. -/
theorem pass_cases (hostname : α) (V : List α) :
    (V.count hostname ≤ 1 ∧ pass hostname V = V.erase hostname) ∨
      (2 ≤ V.count hostname ∧ hostname ∈ pass hostname V) := by
  refine foreach_rule (reconcileBody_shrinks hostname) (I := Phase hostname V)
    (P := fun r => (V.count hostname ≤ 1 ∧ r.1 = V.erase hostname) ∨
      (2 ≤ V.count hostname ∧ hostname ∈ r.1))
    (.fresh (fresh_start hostname V)) ?_ ?_
  · intro w x hph hx
    exact hph.step (Walk.next_eq_some_iff.2 ⟨x, hx, rfl⟩)
  · intro w hph hlen
    cases hph with
    | fresh hw =>
      have hV : hostname ∉ V := by
        have h := hw.unseen
        rwa [List.take_of_length_le (hw.arr_eq ▸ hlen)] at h
      refine Or.inl ⟨?_, hw.arr_eq.trans (List.erase_of_not_mem hV).symm⟩
      rw [List.count_eq_zero_of_not_mem hV]
      exact Nat.zero_le _
    | once harr _ _ =>
      rcases Nat.lt_or_ge 1 (V.count hostname) with hc | hc
      · refine Or.inr ⟨hc, ?_⟩
        rw [harr, ← List.count_pos_iff, List.count_erase_self]
        omega
      · exact Or.inl ⟨hc, harr⟩
    | stuck hleft _ htwice => exact Or.inr ⟨htwice, List.mem_of_mem_take hleft⟩

theorem pass_eq_erase (h : V.count hostname ≤ 1) : pass hostname V = V.erase hostname := by
  obtain ⟨-, heq⟩ | ⟨htwice, -⟩ := pass_cases hostname V
  · exact heq
  · omega

theorem not_mem_erase (h : V.count hostname ≤ 1) : hostname ∉ V.erase hostname := fun hmem => by
  have := two_le_count_of_mem_erase hmem
  omega

/-- The hostname survives its own pass exactly when it is repeated. -/
theorem mem_pass_iff : hostname ∈ pass hostname V ↔ 2 ≤ V.count hostname := by
  obtain ⟨hc, heq⟩ | ⟨htwice, hmem⟩ := pass_cases hostname V
  · rw [heq]
    exact iff_of_false (not_mem_erase hc) (by omega)
  · exact iff_of_true hmem htwice

/-! ## The run of a pass -/

theorem exists_pass_trace (hostname : α) (V : List α) :
    ∃ visited last, PassTrace hostname (.start V 0) visited last ∧
      last.next (reconcileBody hostname) = none ∧ visited.length ≤ V.length ∧
      pass hostname V = last.arr := by
  obtain ⟨visited, last, hrun, hend, hlen, heq⟩ :=
    foreach_trace (reconcileBody_shrinks hostname) V 0
  exact ⟨visited, last, hrun, hend, hlen, congrArg Prod.fst heq⟩

theorem pass_sublist (hostname : α) (V : List α) : (pass hostname V).Sublist V := by
  obtain ⟨visited, last, hrun, -, -, heq⟩ := exists_pass_trace hostname V
  rw [heq]
  exact hrun.invariant (I := fun w => w.arr.Sublist V)
    (fun _ _ _ hw h => (sublist_of_step h.2).trans hw) (List.Sublist.refl V)

theorem length_le_pass (hostname : α) (V : List α) :
    V.length ≤ (pass hostname V).length + V.count hostname := by
  obtain ⟨visited, last, hrun, -, -, heq⟩ := exists_pass_trace hostname V
  have hlen := length_add_matches hrun (Nat.le_refl _)
  have hcount := matches_le_count hrun (Nat.le_refl _)
  simp only [Walk.start, List.drop_zero] at hlen hcount
  rw [heq]
  omega

theorem fresh_of_no_match (h : PassTrace hostname (.start V 0) visited w)
    (hno : ∀ b ∈ visited, ¬ Matches hostname b) : Fresh hostname V w := by
  refine h.invariant_of_labels (Q := fun b => ¬ Matches hostname b) ?_
    (fresh_start hostname V) hno
  rintro s a t hs ha ⟨rfl, hnext⟩
  exact hs.step ha hnext

/-- Everything a pass for `hostname` over `V` guarantees, whatever is repeated in `V`.  After a
match in the state `w` the walk goes on from `w'`. -/
theorem pass_spec (hostname : α) (V : List α) :
    ∃ visited last, PassTrace hostname (.start V 0) visited last ∧
      last.next (reconcileBody hostname) = none ∧ pass hostname V = last.arr ∧
      visited.length ≤ V.length ∧
      (∀ w ∈ visited, Matches hostname w → w.vars ≤ w.pos ∧ w.vars < w.arr.length ∧
        ∃ w', w.next (reconcileBody hostname) = some w' ∧ w'.arr = splice w.arr w.vars 1 ∧
          w'.arr.length + 1 = w.arr.length) ∧
      last.arr.Sublist V ∧
      last.arr.length + visited.countP (Matches hostname ·) = V.length ∧
      (∀ before w later, visited = before ++ w :: later → Matches hostname w →
        (∀ b ∈ before, ¬ Matches hostname b) →
        w.arr = V ∧ w.vars = V.idxOf hostname ∧
          ∃ w', w.next (reconcileBody hostname) = some w' ∧
            w'.arr.take w.pos = V.take w.pos ∧ w'.arr = V.erase hostname) ∧
      (V.count hostname ≤ 1 → last.arr = V.erase hostname) := by
  obtain ⟨visited, last, hrun, hend, hlen, heq⟩ := exists_pass_trace hostname V
  refine ⟨visited, last, hrun, hend, heq, hlen, ?_, heq ▸ pass_sublist hostname V,
    length_add_matches hrun (Nat.le_refl 0), ?_, fun hc => heq ▸ pass_eq_erase hc⟩
  · have hoffset : ∀ w ∈ visited, w.vars ≤ w.pos := by
      refine hrun.forall_label (I := fun w => w.vars ≤ w.pos) ?_ (Nat.le_refl 0)
      rintro s a t hs ⟨rfl, hnext⟩
      exact ⟨hs, offset_le_of_step hs hnext⟩
    intro w hw hm
    have hlt := offset_lt_length (hoffset w hw) hm
    obtain ⟨w', hnext, harr⟩ := exists_next_of_matches hm
    refine ⟨hoffset w hw, hlt, w', hnext, harr, ?_⟩
    rw [harr, splice_one]
    exact List.length_eraseIdx_add_one hlt
  · rintro before w later rfl hm hno
    obtain ⟨t, hbefore, hlater⟩ := hrun.split
    -- the state labelled `w` is the one the walk is in after `before`
    obtain rfl : w = t := by cases hlater with | cons first _ => exact first.1
    have hw := fresh_of_no_match hbefore hno
    obtain ⟨hpos, hsplice⟩ := hw.splice_eq hm
    obtain ⟨w', hnext, harr⟩ := exists_next_of_matches hm
    rw [splice_one] at harr
    refine ⟨hw.arr_eq, hw.offset_eq.trans hpos, w', hnext, ?_, harr.trans hsplice⟩
    rw [harr, hw.arr_eq, hw.offset_eq, List.take_eraseIdx_eq_take_of_le _ _ _ (Nat.le_refl _)]

end RegNewvm
