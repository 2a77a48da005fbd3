import RegNewvm.Lib.Trace

/-!
# `foreach` over a live array

Perl's `foreach` over one array keeps a position, not a copy of the array: before each step it
reads the array's length again, takes the element at its position, runs the body and moves on by
one.  A body that splices the array moves the later elements under the running position.

`Walk` is the state of such a loop (array, position, the variables the body assigns) and
`Walk.next` its step.  For a body that never makes the array longer the loop ends within the length
of the array it started on (`foreach_trace`); `foreach_rule` is the invariant rule and
`foreach_keep` the case of a body that leaves the array alone.
-/

namespace Perl

open Transition

variable {α β : Type*}

/-- The array left by `splice(@arr, i, n)`. -/
def splice (arr : List α) (i n : ℕ) : List α := arr.take i ++ arr.drop (i + n)

theorem splice_one (arr : List α) (i : ℕ) : splice arr i 1 = arr.eraseIdx i :=
  (List.eraseIdx_eq_take_drop_succ arr i).symm

section Splice

variable {l : List α} {i p : ℕ} {x : α}

theorem eq_take_append_cons (h : l[p]? = some x) : l = l.take p ++ x :: l.drop (p + 1) := by
  obtain ⟨hp, rfl⟩ := List.getElem?_eq_some_iff.1 h
  rw [← List.drop_eq_getElem_cons hp, List.take_append_drop]

theorem drop_eraseIdx (h : i ≤ p) : (l.eraseIdx i).drop p = l.drop (p + 1) := by
  apply List.ext_getElem?
  intro n
  rw [List.getElem?_drop, List.getElem?_drop, List.getElem?_eraseIdx_of_ge (by omega),
    Nat.add_right_comm]

/-- An element behind the deleted one moves left by one. -/
theorem mem_take_eraseIdx (hi : i < p) (h : l[p]? = some x) : x ∈ (l.eraseIdx i).take (p + 1) := by
  have hp : (l.eraseIdx i)[p - 1]? = some x := by
    rw [List.getElem?_eraseIdx_of_ge (by omega), Nat.sub_add_cancel (by omega), h]
  apply List.mem_of_getElem? (i := p - 1)
  rw [List.getElem?_take_of_lt (by omega), hp]

variable [DecidableEq α]

/-- An element not seen before position `p` occurs there for the first time. -/
theorem idxOf_of_not_mem_take (hseen : x ∉ l.take p) (h : l[p]? = some x) : l.idxOf x = p := by
  have hp := (List.getElem?_eq_some_iff.1 h).1
  rw [eq_take_append_cons h, List.idxOf_append, if_neg hseen, List.idxOf_cons_self,
    List.length_take, Nat.zero_add, Nat.min_eq_left (Nat.le_of_lt hp)]

theorem eraseIdx_of_not_mem_take (hseen : x ∉ l.take p) (h : l[p]? = some x) :
    l.eraseIdx p = l.erase x :=
  (List.erase_eq_eraseIdx_of_idxOf (idxOf_of_not_mem_take hseen h)).symm

end Splice

/-- A loop over `arr`, about to look at position `pos`. -/
structure Walk (α β : Type*) where
  arr : List α
  pos : ℕ
  vars : β

/-- A loop body: from the element, the array and the variables to the array and the variables. -/
abbrev Body (α β : Type*) := α → List α → β → List α × β

namespace Walk

/-- The loop before its first step. -/
def start (arr : List α) (vars : β) : Walk α β := ⟨arr, 0, vars⟩

/-- The loop after the body ran on `x`. -/
def after (body : Body α β) (w : Walk α β) (x : α) : Walk α β :=
  ⟨(body x w.arr w.vars).1, w.pos + 1, (body x w.arr w.vars).2⟩

/-- One step; `none` when the position has passed the end of the array. -/
def next (body : Body α β) (w : Walk α β) : Option (Walk α β) :=
  w.arr[w.pos]?.map (w.after body)

variable {body : Body α β} {w w' : Walk α β}

theorem next_eq_some_iff :
    w.next body = some w' ↔ ∃ x, w.arr[w.pos]? = some x ∧ w.after body x = w' :=
  Option.map_eq_some_iff

theorem next_eq_none_iff : w.next body = none ↔ w.arr.length ≤ w.pos := by
  rw [next, Option.map_eq_none_iff, List.getElem?_eq_none_iff]

end Walk

/-- The array and the variables after the loop. -/
def foreach (body : Body α β) (arr : List α) (vars : β) : List α × β :=
  let last := iterate (Walk.next body) arr.length (.start arr vars)
  (last.arr, last.vars)

/-- The body never makes the array longer. -/
def Shrinks (body : Body α β) : Prop :=
  ∀ x arr vars, (body x arr vars).1.length ≤ arr.length

/-- The whole run of a loop, with at most one step for each element of the array. -/
theorem foreach_trace {body : Body α β} (hb : Shrinks body) (arr : List α) (vars : β) :
    ∃ visited last, Trace (machine (Walk.next body)) (.start arr vars) visited last ∧
      last.next body = none ∧ visited.length ≤ arr.length ∧
      foreach body arr vars = (last.arr, last.vars) := by
  have hμ : ∀ w w' : Walk α β, w.next body = some w' →
      w'.arr.length - w'.pos < w.arr.length - w.pos := by
    intro w w' h
    obtain ⟨x, hx, rfl⟩ := Walk.next_eq_some_iff.1 h
    obtain ⟨hlt, -⟩ := List.getElem?_eq_some_iff.1 hx
    have := hb x w.arr w.vars
    simp only [Walk.after]
    omega
  obtain ⟨visited, last, hrun, hend, hlen⟩ :=
    exists_halted (fun w : Walk α β => w.arr.length - w.pos) hμ (.start arr vars)
  refine ⟨visited, last, hrun, hend, hlen, ?_⟩
  rw [foreach, iterate_eq_of_trace (n := arr.length) hrun hend hlen]

/-- Invariant rule: what the start establishes and every step keeps holds when the loop ends. -/
theorem foreach_rule {body : Body α β} (hb : Shrinks body) {arr : List α} {vars : β}
    {I : Walk α β → Prop} {P : List α × β → Prop} (hstart : I (.start arr vars))
    (hstep : ∀ w x, I w → w.arr[w.pos]? = some x → I (w.after body x))
    (hend : ∀ w, I w → w.arr.length ≤ w.pos → P (w.arr, w.vars)) :
    P (foreach body arr vars) := by
  obtain ⟨visited, last, hrun, hlast, -, heq⟩ := foreach_trace hb arr vars
  have hI : I last := hrun.invariant (fun w a w' hw h => by
    obtain ⟨x, hx, rfl⟩ := Walk.next_eq_some_iff.1 h.2
    exact hstep w x hw hx) hstart
  rw [heq]
  exact hend last hI (Walk.next_eq_none_iff.1 hlast)

/-- A loop that only reads its array folds over it. -/
theorem foreach_keep (f : β → α → β) (arr : List α) (vars : β) :
    foreach (fun x arr vars => (arr, f vars x)) arr vars = (arr, arr.foldl f vars) := by
  refine foreach_rule (I := fun w => w.arr = arr ∧ w.vars = (arr.take w.pos).foldl f vars)
    (P := fun r => r = (arr, arr.foldl f vars)) (fun _ _ _ => Nat.le_refl _) ⟨rfl, rfl⟩ ?_ ?_
  · rintro w x ⟨harr, hvars⟩ hx
    rw [harr] at hx
    refine ⟨harr, ?_⟩
    simp only [Walk.after]
    rw [List.take_add_one, hx, List.foldl_append, hvars]
    rfl
  · rintro w ⟨harr, hvars⟩ hlen
    rw [harr] at hlen ⊢
    rw [hvars, List.take_of_length_le hlen]

end Perl
