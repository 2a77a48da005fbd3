import Mathlib.Data.List.Basic

/-!
# Labelled runs and step machines

`Trace step s l t` says that the labelled relation `step` leads from `s` to `t` along the labels
`l`.  A deterministic machine `next : σ → Option σ` is the relation `machine next` whose label is
the state the step was taken from, so that a run of the machine lists the states it went through;
`iterate` computes the state reached, and `exists_halted` bounds the length of a run by a measure
that every step decreases.
-/

namespace Transition

variable {σ τ ℓ : Type*}

/-- `Trace step s l t`: the steps with the labels `l`, in order, lead from `s` to `t`. -/
inductive Trace (step : σ → ℓ → σ → Prop) : σ → List ℓ → σ → Prop
  | nil (s : σ) : Trace step s [] s
  | cons {s t u : σ} {a : ℓ} {l : List ℓ} (first : step s a t) (rest : Trace step t l u) :
      Trace step s (a :: l) u

namespace Trace

variable {step : σ → ℓ → σ → Prop} {s t u : σ} {l l₁ l₂ : List ℓ}

theorem split (h : Trace step s (l₁ ++ l₂) u) : ∃ t, Trace step s l₁ t ∧ Trace step t l₂ u := by
  induction l₁ generalizing s with
  | nil => exact ⟨s, .nil s, h⟩
  | cons a l₁ ih =>
    cases h with
    | cons first rest =>
      obtain ⟨t, h₁, h₂⟩ := ih rest
      exact ⟨t, .cons first h₁, h₂⟩

theorem append (h₁ : Trace step s l₁ t) (h₂ : Trace step t l₂ u) : Trace step s (l₁ ++ l₂) u := by
  induction h₁ with
  | nil => exact h₂
  | cons first _ ih => exact .cons first (ih h₂)

/-- What the steps with labels in `Q` preserve holds at the end of a run with such labels. -/
theorem invariant_of_labels {I : σ → Prop} {Q : ℓ → Prop}
    (hstep : ∀ s a t, I s → Q a → step s a t → I t) (hs : I s) (h : Trace step s l t)
    (hl : ∀ a ∈ l, Q a) : I t := by
  induction h with
  | nil => exact hs
  | cons first _ ih =>
    obtain ⟨ha, hl⟩ := List.forall_mem_cons.1 hl
    exact ih (hstep _ _ _ hs ha first) hl

/-- An invariant of every step holds at the end of every run. -/
theorem invariant {I : σ → Prop} (hstep : ∀ s a t, I s → step s a t → I t) (hs : I s)
    (h : Trace step s l t) : I t :=
  h.invariant_of_labels (fun s a t hI (_ : True) => hstep s a t hI) hs fun _ _ => trivial

/-- What every step from an invariant state says of its label holds of every label of a run. -/
theorem forall_label {I : σ → Prop} {P : ℓ → Prop}
    (hstep : ∀ s a t, I s → step s a t → P a ∧ I t) (hs : I s) (h : Trace step s l t) :
    ∀ a ∈ l, P a := by
  induction h with
  | nil => simp
  | cons first _ ih =>
    obtain ⟨ha, ht⟩ := hstep _ _ _ hs first
    exact List.forall_mem_cons.2 ⟨ha, ih ht⟩

theorem and_labels {Q : ℓ → Prop} (h : Trace step s l t) (hl : ∀ a ∈ l, Q a) :
    Trace (fun s a t => step s a t ∧ Q a) s l t := by
  induction h with
  | nil s => exact .nil s
  | cons first _ ih =>
    obtain ⟨ha, hl⟩ := List.forall_mem_cons.1 hl
    exact .cons ⟨first, ha⟩ (ih hl)

theorem and_invariant {I : σ → Prop} (hstep : ∀ s a t, I s → step s a t → I t) (hs : I s)
    (h : Trace step s l t) : Trace (fun s a t => step s a t ∧ I s) s l t := by
  induction h with
  | nil s => exact .nil s
  | cons first _ ih => exact .cons ⟨first, hs⟩ (ih (hstep _ _ _ hs first))

/-- A step-by-step simulation carries every run of one system to a run of the other. -/
theorem simulate {κ : Type*} {step' : τ → κ → τ → Prop} {f : σ → τ} {g : ℓ → κ}
    (hstep : ∀ s a t, step s a t → step' (f s) (g a) (f t)) (h : Trace step s l t) :
    Trace step' (f s) (l.map g) (f t) := by
  induction h with
  | nil s => exact .nil _
  | cons first _ ih => exact .cons (hstep _ _ _ first) ih

end Trace

/-! ## Deterministic machines -/

/-- The step relation of `next`, labelled with the state the step is taken from. -/
def machine (next : σ → Option σ) (s a t : σ) : Prop := a = s ∧ next s = some t

/-- The state after at most `n` steps. -/
def iterate (next : σ → Option σ) : ℕ → σ → σ
  | 0, s => s
  | n + 1, s =>
    match next s with
    | none => s
    | some t => iterate next n t

variable {next : σ → Option σ} {s t t' : σ} {l : List σ}

theorem trace_machine_cons (h : next s = some t) (rest : Trace (machine next) t l t') :
    Trace (machine next) s (s :: l) t' :=
  .cons ⟨rfl, h⟩ rest

/-- A measure that every step decreases bounds the length of the run to a halt. -/
theorem exists_halted (μ : σ → ℕ) (hμ : ∀ s t, next s = some t → μ t < μ s) (s : σ) :
    ∃ l t, Trace (machine next) s l t ∧ next t = none ∧ l.length ≤ μ s := by
  induction hn : μ s using Nat.strongRecOn generalizing s with
  | _ n ih =>
    cases h : next s with
    | none => exact ⟨[], s, .nil s, h, Nat.zero_le _⟩
    | some t =>
      have hlt := hμ s t h
      obtain ⟨l, u, hl, hu, hlen⟩ := ih (μ t) (hn ▸ hlt) t rfl
      refine ⟨s :: l, u, trace_machine_cons h hl, hu, ?_⟩
      rw [List.length_cons]
      omega

theorem iterate_eq_of_trace {n : ℕ} (h : Trace (machine next) s l t) (ht : next t = none)
    (hn : l.length ≤ n) : iterate next n s = t := by
  induction h generalizing n with
  | nil s => cases n <;> simp [iterate, ht]
  | cons first _ ih =>
    obtain ⟨rfl, hs⟩ := first
    cases n with
    | zero => simp at hn
    | succ n =>
      rw [List.length_cons, Nat.add_le_add_iff_right] at hn
      simp only [iterate, hs]
      exact ih ht hn

end Transition
