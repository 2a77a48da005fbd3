import RegNewvm.Lib.Trace
import Mathlib.Data.Set.Basic
import Mathlib.Logic.Function.Basic

/-!
# Clients that add what they did not see

Clients share a registry.  Each of them takes a snapshot of it and later adds entries that are not
in its snapshot, while the other clients go on (`Step`).  What was registered before a client took
its snapshot is never added by it (`not_mem_added`), so an entry is added by two clients only if the
second of them took its snapshot before the first added it (`added_twice`).
-/

namespace Snapshot

open Transition

variable {ι α : Type*} [DecidableEq ι]

/-- The registry, and the snapshots that were taken and not used yet. -/
structure State (ι α : Type*) where
  registry : Set α
  taken : ι → Option (Set α)

inductive Event (ι α : Type*)
  | take (i : ι)
  | add (i : ι) (added : Set α)
  | idle

inductive Step : State ι α → Event ι α → State ι α → Prop
  | take (s : State ι α) (i : ι) :
    Step s (.take i) ⟨s.registry, Function.update s.taken i (some s.registry)⟩
  | add (s : State ι α) {i : ι} {S added : Set α} (htaken : s.taken i = some S)
      (hnew : ∀ x ∈ added, x ∉ S) :
    Step s (.add i added) ⟨s.registry ∪ added, Function.update s.taken i none⟩
  -- a client may give up
  | idle (s : State ι α) {taken : ι → Option (Set α)}
      (hlost : ∀ i S, taken i = some S → s.taken i = some S) : Step s .idle ⟨s.registry, taken⟩

variable {s t : State ι α} {e : Event ι α} {l l₁ l₂ l₃ : List (Event ι α)} {i j : ι} {A B : Set α}
  {x : α}

/-- The entry is registered, and the snapshot of the client, if it has one, shows it. -/
def Shown (x : α) (i : ι) (s : State ι α) : Prop :=
  x ∈ s.registry ∧ ∀ S, s.taken i = some S → x ∈ S

theorem Shown.step (hs : Shown x j s) (h : Step s e t) : Shown x j t := by
  obtain ⟨hx, htaken⟩ := hs
  cases h with
  | take i =>
    refine ⟨hx, fun S hS => ?_⟩
    change Function.update s.taken i (some s.registry) j = some S at hS
    by_cases hij : j = i
    · rw [hij, Function.update_self, Option.some.injEq] at hS
      exact hS ▸ hx
    · rw [Function.update_of_ne hij] at hS
      exact htaken S hS
  | @add i T added _ _ =>
    refine ⟨Or.inl hx, fun S hS => ?_⟩
    change Function.update s.taken i none j = some S at hS
    by_cases hij : j = i
    · rw [hij, Function.update_self] at hS
      cases hS
    · rw [Function.update_of_ne hij] at hS
      exact htaken S hS
  | idle hlost => exact ⟨hx, fun S hS => htaken S (hlost j S hS)⟩

/-- What is registered and in the snapshot is not added. -/
theorem not_mem_added (h : Trace Step s l t) (hs : Shown x j s) (hmem : .add j B ∈ l) : x ∉ B := by
  refine h.forall_label (I := Shown x j) (P := fun e => e = .add j B → x ∉ B) ?_ hs _ hmem rfl
  rintro s e t hs hstep
  refine ⟨?_, hs.step hstep⟩
  rintro rfl hx
  cases hstep with
  | add htaken hnew => exact hnew x hx (hs.2 _ htaken)

theorem mem_registry (h : Trace Step s l t) (hx : x ∈ s.registry) : x ∈ t.registry := by
  refine h.invariant (I := fun s => x ∈ s.registry) ?_ hx
  rintro s e t hx hstep
  cases hstep with
  | take => exact hx
  | add => exact Or.inl hx
  | idle => exact hx

theorem Step.taken_eq_none (h : Step s e t) (hs : s.taken j = none) (htake : e ≠ .take j) :
    t.taken j = none := by
  cases h with
  | take i =>
    show Function.update s.taken i (some s.registry) j = none
    have hij : j ≠ i := fun hij => htake (congrArg Event.take hij.symm)
    rwa [Function.update_of_ne hij]
  | @add i =>
    show Function.update s.taken i none j = none
    by_cases hij : j = i
    · rw [hij, Function.update_self]
    · rwa [Function.update_of_ne hij]
  | @idle taken hlost =>
    show taken j = none
    cases htaken : taken j with
    | none => rfl
    | some S =>
      have hsome := hlost j S htaken
      rw [hs] at hsome
      cases hsome

theorem taken_eq_none (h : Trace Step s l t) (hs : s.taken j = none) (htake : .take j ∉ l) :
    t.taken j = none :=
  h.invariant_of_labels (I := fun s => s.taken j = none) (Q := fun e => e ≠ .take j)
    (fun _ _ _ hs he hstep => hstep.taken_eq_none hs he) hs fun _ he hj => htake (hj ▸ he)

/-- After a snapshot that shows an entry the client does not add it. -/
theorem take_not_mem (h : Trace Step s (l ++ .add j B :: l₃) t) (hx : x ∈ s.registry)
    (hB : x ∈ B) : .take j ∉ l := by
  intro htake
  obtain ⟨m₁, m₂, rfl⟩ := List.append_of_mem htake
  rw [List.append_assoc] at h
  obtain ⟨u, h₁, h₂⟩ := h.split
  have hu : x ∈ u.registry := mem_registry h₁ hx
  cases h₂ with
  | cons first rest =>
    refine not_mem_added rest ?_ (List.mem_append_right _ List.mem_cons_self) hB
    cases first with
    | take =>
      refine ⟨hu, fun S hS => ?_⟩
      change Function.update u.taken j (some u.registry) j = some S at hS
      rw [Function.update_self, Option.some.injEq] at hS
      exact hS ▸ hu

/-- Two clients add the same entry only if the second took its snapshot before the first added
it. -/
theorem added_twice (h : Trace Step s (l₁ ++ .add i A :: (l₂ ++ .add j B :: l₃)) t)
    (hs : s.taken j = none) (hA : x ∈ A) (hB : x ∈ B) :
    i ≠ j ∧ .take j ∈ l₁ ∧ .take j ∉ l₂ := by
  obtain ⟨u, h₁, h₂⟩ := h.split
  cases h₂ with
  | @cons _ v _ _ _ hadd h₃ =>
    have hx : x ∈ v.registry := by
      cases hadd with
      | add => exact Or.inr hA
    have hl₂ : .take j ∉ l₂ := take_not_mem h₃ hx hB
    have htaken : v.taken j ≠ none := by
      intro hnone
      obtain ⟨w, h₄, h₅⟩ := h₃.split
      have hw := taken_eq_none h₄ hnone hl₂
      cases h₅ with
      | cons first _ =>
        cases first with
        | add hsome _ =>
          rw [hw] at hsome
          cases hsome
    refine ⟨?_, ?_, hl₂⟩
    · rintro rfl
      apply htaken
      cases hadd with
      | add => exact Function.update_self ..
    · by_contra hl₁
      exact htaken (hadd.taken_eq_none (taken_eq_none h₁ hs hl₁) nofun)

end Snapshot
