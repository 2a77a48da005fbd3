import RegNewvm.Lib.Trace
import Mathlib.Data.Set.Basic

/-!
# A registry that only grows

A registry is a set of registered entries.  A round offers a set of entries and adds some of them
(`Round`, `Registry.Step`); nothing is ever taken out.  Over any number of rounds the registry
grows, holds nothing but what it started with and what was added (`mem_iff`), and never more than
what was offered (`subset_offered`).  If every round adds only entries that are not registered yet,
no entry is added twice (`added_once`).
-/

namespace Registry

open Transition

variable {α : Type*}

/-- The entries offered in a round and those of them that are added. -/
structure Round (α : Type*) where
  offered : Set α
  added : Set α

/-- One round. -/
def Step (R : Set α) (r : Round α) (R' : Set α) : Prop := r.added ⊆ r.offered ∧ R' = R ∪ r.added

/-- One round that adds only what is not registered yet. -/
def FreshStep (R : Set α) (r : Round α) (R' : Set α) : Prop :=
  Step R r R' ∧ ∀ x ∈ r.added, x ∉ R

variable {R R' : Set α} {rounds : List (Round α)} {x : α}

theorem mem_iff (h : Trace Step R rounds R') : x ∈ R' ↔ x ∈ R ∨ ∃ r ∈ rounds, x ∈ r.added := by
  induction h with
  | nil => simp
  | cons first _ ih =>
    obtain ⟨-, rfl⟩ := first
    rw [ih, List.exists_mem_cons_iff, Set.mem_union, or_assoc]

theorem subset (h : Trace Step R rounds R') : R ⊆ R' :=
  fun _ hx => (mem_iff h).2 (Or.inl hx)

theorem added_subset_offered (h : Trace Step R rounds R') : ∀ r ∈ rounds, r.added ⊆ r.offered :=
  h.forall_label (I := fun _ => True) (fun _ _ _ _ hstep => ⟨hstep.1, trivial⟩) trivial

theorem subset_offered (h : Trace Step R rounds R') :
    x ∈ R' → x ∈ R ∨ ∃ r ∈ rounds, x ∈ r.offered := by
  rw [mem_iff h]
  rintro (hx | ⟨r, hr, hx⟩)
  · exact Or.inl hx
  · exact Or.inr ⟨r, hr, added_subset_offered h r hr hx⟩

/-- What is registered is not added by a later round. -/
theorem not_mem_of_mem_added (h : Trace FreshStep R rounds R') :
    ∀ r ∈ rounds, ∀ x ∈ r.added, x ∉ R := by
  induction h with
  | nil => simp
  | cons first _ ih =>
    obtain ⟨⟨-, rfl⟩, hfresh⟩ := first
    refine List.forall_mem_cons.2 ⟨hfresh, fun r hr x hx hR => ?_⟩
    exact ih r hr x hx (Or.inl hR)

/-- No entry is added by two rounds. -/
theorem added_once (h : Trace FreshStep R rounds R') :
    rounds.Pairwise fun r r' => ∀ x ∈ r'.added, x ∉ r.added := by
  induction h with
  | nil => exact .nil
  | cons first rest ih =>
    obtain ⟨⟨-, rfl⟩, -⟩ := first
    refine .cons (fun r hr x hx hadded => ?_) ih
    exact not_mem_of_mem_added rest r hr x hx (Or.inr hadded)

end Registry
