import RegNewvm.Lib.Interaction
import RegNewvm.Lib.Trace

/-!
# Programs that keep a protocol

A protocol says which operations may be called in which phase, and to which phase the answer leads.
`Keeps P q p post`: from the phase `q` on, whatever it is answered, `p` calls only what `P` allows,
and ends in a phase and with an outcome that satisfy `post`.

The rules follow the structure of a program.  `Keeps.run` is for a run against one peer: its
exchanges are a run of the protocol.  `Keeps.step` is for a program that is run call by call.
-/

namespace Interaction

open Transition

variable {Op : Type} {Ans : Op → Type} {Q σ α β : Type}

/-- An operation and the answer to it. -/
abbrev Exchange (Op : Type) (Ans : Op → Type) := Σ op : Op, Ans op

/-- The exchanges of a run against `peer`. -/
def exchanges (peer : Peer Op Ans σ) : Prog Op Ans α → σ → List (Exchange Op Ans)
  | .done _, _ => []
  | .die _, _ => []
  | .call op next, s => ⟨op, (peer s op).1⟩ :: exchanges peer (next (peer s op).1) (peer s op).2

/-- Which operations are allowed in a phase, and the phase after an answer. -/
structure Protocol (Op : Type) (Ans : Op → Type) (Q : Type) where
  Allowed : Q → Op → Prop
  next : Q → (op : Op) → Ans op → Q

/-- One exchange of the protocol. -/
def Protocol.Step (P : Protocol Op Ans Q) (q : Q) (x : Exchange Op Ans) (q' : Q) : Prop :=
  P.Allowed q x.1 ∧ q' = P.next q x.1 x.2

/-- The phase after some exchanges. -/
def Protocol.phase (P : Protocol Op Ans Q) (q : Q) (l : List (Exchange Op Ans)) : Q :=
  l.foldl (fun q x => P.next q x.1 x.2) q

theorem Protocol.phase_concat (P : Protocol Op Ans Q) (q : Q) (l : List (Exchange Op Ans))
    (x : Exchange Op Ans) : P.phase q (l ++ [x]) = P.next (P.phase q l) x.1 x.2 :=
  List.foldl_concat ..

/-- From the phase `q` on, `p` keeps to `P`, and `post` holds where it ends. -/
def Keeps (P : Protocol Op Ans Q) : Q → Prog Op Ans α → (Q → Except String α → Prop) → Prop
  | q, .done a, post => post q (.ok a)
  | q, .die message, post => post q (.error message)
  | q, .call op next, post => P.Allowed q op ∧ ∀ ans, Keeps P (P.next q op ans) (next ans) post

namespace Keeps

variable {P : Protocol Op Ans Q} {q : Q} {p : Prog Op Ans α} {k : α → Prog Op Ans β}
  {post post' : Q → Except String α → Prop} {post₂ : Q → Except String β → Prop}

theorem mono (hpost : ∀ q r, post q r → post' q r) (h : Keeps P q p post) : Keeps P q p post' := by
  induction p generalizing q with
  | done a => exact hpost _ _ h
  | die message => exact hpost _ _ h
  | call op next ih => exact ⟨h.1, fun ans => ih ans (h.2 ans)⟩

theorem ask {op : Op} {post : Q → Except String (Ans op) → Prop} (hop : P.Allowed q op)
    (h : ∀ ans, post (P.next q op ans) (.ok ans)) :
    Keeps P q (Prog.ask op : Prog Op Ans (Ans op)) post :=
  ⟨hop, h⟩

/-- What comes second starts in the phase in which the first returns. -/
theorem bind (hp : Keeps P q p fun q r => match r with
      | .ok a => Keeps P q (k a) post₂
      | .error message => post₂ q (.error message)) :
    Keeps P q (p >>= k) post₂ := by
  induction p generalizing q with
  | done a => exact hp
  | die message => exact hp
  | call op next ih => exact ⟨hp.1, fun ans => ih ans (hp.2 ans)⟩

/-- A first program that only returns. -/
theorem bind_ok {mid : Q → α → Prop} (hp : Keeps P q p fun q r => ∃ a, r = .ok a ∧ mid q a)
    (hk : ∀ q a, mid q a → Keeps P q (k a) post₂) : Keeps P q (p >>= k) post₂ := by
  refine bind (hp.mono ?_)
  rintro q _ ⟨a, rfl, ha⟩
  exact hk q a ha

/-- A loop whose body returns in the phase it started in. -/
theorem forM {l : List β} {f : β → Prog Op Ans PUnit}
    (hf : ∀ x ∈ l, Keeps P q (f x) fun q' r => ∃ a, r = .ok a ∧ q' = q) :
    Keeps P q (l.forM f) fun q' r => ∃ a, r = .ok a ∧ q' = q := by
  induction l with
  | nil => exact ⟨⟨⟩, rfl, rfl⟩
  | cons x l ih =>
    obtain ⟨hx, hl⟩ := List.forall_mem_cons.1 hf
    refine bind_ok hx ?_
    rintro _ _ rfl
    exact ih hl

/-- The next exchange of a program that keeps to the protocol. -/
theorem step {op : Op} {next : Ans op → Prog Op Ans α} (h : Keeps P q (.call op next) post)
    (ans : Ans op) :
    P.Step q ⟨op, ans⟩ (P.next q op ans) ∧ Keeps P (P.next q op ans) (next ans) post :=
  ⟨⟨h.1, rfl⟩, h.2 ans⟩

/-- Against every peer, the exchanges are a run of the protocol. -/
theorem run (h : Keeps P q p post) (peer : Peer Op Ans σ) (s : σ) :
    ∃ q', Trace P.Step q (exchanges peer p s) q' ∧ post q' (result peer p s).1 := by
  induction p generalizing q s with
  | done a => exact ⟨q, .nil q, h⟩
  | die message => exact ⟨q, .nil q, h⟩
  | call op next ih =>
    obtain ⟨hstep, hnext⟩ := h.step (peer s op).1
    obtain ⟨q', htrace, hpost⟩ := ih _ hnext (peer s op).2
    exact ⟨q', .cons hstep htrace, hpost⟩

end Keeps

end Interaction
