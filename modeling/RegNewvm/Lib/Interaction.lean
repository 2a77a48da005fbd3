import Mathlib.Data.List.Basic

/-!
# Programs that call out

A program (`Prog`) returns a value, dies with a message, or calls an operation and goes on with the
answer.  It is run against a peer, which answers from a state of its own; `result` is the outcome of
the run with the peer's last state, and `calls` the operations called, in order.

The rules below follow the structure of a program: `result_bind_of_ok`, `calls_bind_of_ok` and their
counterparts for a program that dies are for sequencing, and `Only P p` (every call `p` can make
satisfies `P`) holds against every peer and bounds what a run calls (`Only.mem_calls`).
-/

namespace Interaction

variable {Op : Type} {Ans : Op → Type} {σ α β : Type}

/-- A program with operations `Op`, an operation `op` being answered in `Ans op`. -/
inductive Prog (Op : Type) (Ans : Op → Type) (α : Type) : Type
  | done (a : α)
  | die (message : String)
  | call (op : Op) (next : Ans op → Prog Op Ans α)

namespace Prog

def bind : Prog Op Ans α → (α → Prog Op Ans β) → Prog Op Ans β
  | .done a, k => k a
  | .die message, _ => .die message
  | .call op next, k => .call op fun ans => (next ans).bind k

instance : Monad (Prog Op Ans) where
  pure := .done
  bind := .bind

/-- Call one operation and return its answer. -/
def ask (op : Op) : Prog Op Ans (Ans op) := .call op .done

/-- Return a computed value, or die with its error. -/
def ofExcept : Except String α → Prog Op Ans α
  | .ok a => .done a
  | .error message => .die message

end Prog

open Prog

theorem bind_done (p : Prog Op Ans α) : p >>= Prog.done = p := by
  induction p with
  | done a => rfl
  | die message => rfl
  | call op next ih => exact congrArg (Prog.call op) (funext ih)

/-- Another party: from its state and an operation, the answer and the next state. -/
abbrev Peer (Op : Type) (Ans : Op → Type) (σ : Type) := σ → (op : Op) → Ans op × σ

/-- How a run against `peer` ends, and the peer's state then. -/
def result (peer : Peer Op Ans σ) : Prog Op Ans α → σ → Except String α × σ
  | .done a, s => (.ok a, s)
  | .die message, s => (.error message, s)
  | .call op next, s => result peer (next (peer s op).1) (peer s op).2

/-- The operations a run against `peer` calls. -/
def calls (peer : Peer Op Ans σ) : Prog Op Ans α → σ → List Op
  | .done _, _ => []
  | .die _, _ => []
  | .call op next, s => op :: calls peer (next (peer s op).1) (peer s op).2

variable (peer : Peer Op Ans σ) {p : Prog Op Ans α} {k : α → Prog Op Ans β} {s t : σ}

theorem result_bind_of_ok {a : α} (h : result peer p s = (.ok a, t)) :
    result peer (p >>= k) s = result peer (k a) t := by
  induction p generalizing s with
  | done b => cases h; rfl
  | die message => cases h
  | call op next ih => exact ih _ h

theorem result_bind_of_error {message : String} (h : result peer p s = (.error message, t)) :
    result peer (p >>= k) s = (.error message, t) := by
  induction p generalizing s with
  | done b => cases h
  | die m => cases h; rfl
  | call op next ih => exact ih _ h

/-- A computed value is bound without a call. -/
theorem result_ofExcept_bind (r : Except String α) (k : α → Prog Op Ans β) (s : σ) :
    result peer (ofExcept r >>= k) s =
      match r with
      | .ok a => result peer (k a) s
      | .error message => (.error message, s) := by
  cases r <;> rfl

theorem calls_bind_of_ok {a : α} (h : result peer p s = (.ok a, t)) :
    calls peer (p >>= k) s = calls peer p s ++ calls peer (k a) t := by
  induction p generalizing s with
  | done b => cases h; rfl
  | die message => cases h
  | call op next ih => exact congrArg (op :: ·) (ih _ h)

theorem calls_bind_of_error {message : String} (h : result peer p s = (.error message, t)) :
    calls peer (p >>= k) s = calls peer p s := by
  induction p generalizing s with
  | done b => cases h
  | die m => rfl
  | call op next ih => exact congrArg (op :: ·) (ih _ h)

/-! ## Programs that only make certain calls -/

/-- Every call that `p` makes, whatever it is answered, satisfies `P`. -/
def Only (P : Op → Prop) : Prog Op Ans α → Prop
  | .done _ => True
  | .die _ => True
  | .call op next => P op ∧ ∀ ans, Only P (next ans)

namespace Only

variable {peer : Peer Op Ans σ} {P Q : Op → Prop}

theorem pure (a : α) : Only P (Pure.pure a : Prog Op Ans α) := trivial

theorem ask {op : Op} (h : P op) : Only P (Prog.ask op : Prog Op Ans (Ans op)) :=
  ⟨h, fun _ => trivial⟩

theorem ofExcept (r : Except String α) : Only P (Prog.ofExcept r : Prog Op Ans α) := by
  cases r <;> trivial

theorem bind (hp : Only P p) (hk : ∀ a, Only P (k a)) : Only P (p >>= k) := by
  induction p with
  | done a => exact hk a
  | die message => trivial
  | call op next ih => exact ⟨hp.1, fun ans => ih ans (hp.2 ans)⟩

theorem forM (l : List β) {f : β → Prog Op Ans PUnit} (hf : ∀ x ∈ l, Only P (f x)) :
    Only P (l.forM f) := by
  induction l with
  | nil => trivial
  | cons x l ih =>
    obtain ⟨hx, hl⟩ := List.forall_mem_cons.1 hf
    exact bind hx fun _ => ih hl

theorem mem_calls (hp : Only P p) {op : Op} (h : op ∈ calls peer p s) : P op := by
  induction p generalizing s with
  | done a => cases h
  | die message => cases h
  | call op' next ih =>
    rw [calls, List.mem_cons] at h
    obtain rfl | h := h
    · exact hp.1
    · exact ih _ (hp.2 _) h

end Only

/-- A loop whose body always returns leaves the peer where its calls leave it. -/
theorem result_forM {l : List β} {f : β → Prog Op Ans PUnit}
    (hf : ∀ x ∈ l, ∀ s, result peer (f x) s = (.ok ⟨⟩, s)) (s : σ) :
    result peer (l.forM f) s = (.ok ⟨⟩, s) := by
  induction l with
  | nil => rfl
  | cons x l ih =>
    obtain ⟨hx, hl⟩ := List.forall_mem_cons.1 hf
    exact (result_bind_of_ok peer (hx s)).trans (ih hl)

/-- The calls of such a loop. -/
theorem calls_forM {l : List β} {f : β → Prog Op Ans PUnit}
    (hf : ∀ x ∈ l, ∀ s, result peer (f x) s = (.ok ⟨⟩, s)) (s : σ) :
    calls peer (l.forM f) s = l.flatMap fun x => calls peer (f x) s := by
  induction l with
  | nil => rfl
  | cons x l ih =>
    obtain ⟨hx, hl⟩ := List.forall_mem_cons.1 hf
    rw [List.flatMap_cons, ← ih hl]
    exact calls_bind_of_ok peer (hx s)

end Interaction
