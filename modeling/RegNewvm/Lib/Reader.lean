import RegNewvm.Lib.Outcome
import Mathlib.Data.List.Forall2

/-!
# Readers of bracketed lists

A reader takes a prefix of a list of tokens and returns what it read with the tokens that are left,
or fails.  `bracketed` is the reader of a list of items between brackets: blanks are skipped, the
items are read one after the other into a state and separated by `sep`, and `close` ends the list.

The texts that it reads are described by `Bracketed`, from the texts of one item and of the blanks.
`bracketed_sound` and `bracketed_complete` are the two directions: what is read is such a text, and
every such text is read.
-/

namespace Reader

variable {ε τ σ α β : Type}

/-- What a successful computation of two steps computed in each. -/
theorem bind_eq_ok {x : Except ε α} {f : α → Except ε β} {b : β} :
    (x >>= f) = .ok b ↔ ∃ a, x = .ok a ∧ f a = .ok b := by
  cases x with
  | error e => exact iff_of_false nofun (by rintro ⟨_, h, _⟩; cases h)
  | ok a => exact ⟨fun h => ⟨a, rfl, h⟩, by rintro ⟨_, h, hf⟩; cases h; exact hf⟩

/-- A list is mapped if each of its elements is. -/
theorem mapM_eq_ok {f : α → Except ε β} {l : List α} {l' : List β} :
    l.mapM f = .ok l' ↔ List.Forall₂ (fun a b => f a = .ok b) l l' := by
  induction l generalizing l' with
  | nil =>
    rw [List.mapM_nil, List.forall₂_nil_left_iff]
    exact ⟨fun h => by cases h; rfl, fun h => by rw [h]; rfl⟩
  | cons a l ih =>
    rw [List.mapM_cons]
    constructor
    · intro h
      obtain ⟨b, hb, h₁⟩ := bind_eq_ok.1 h
      obtain ⟨bs, hbs, h₂⟩ := bind_eq_ok.1 h₁
      cases h₂
      exact .cons hb (ih.1 hbs)
    · rintro (_ | ⟨hb, hbs⟩)
      exact bind_eq_ok.2 ⟨_, hb, bind_eq_ok.2 ⟨_, ih.2 hbs, rfl⟩⟩

theorem exists_mapM_iff {f : α → Except ε β} {l : List α} :
    (∃ l', l.mapM f = .ok l') ↔ ∀ a ∈ l, ∃ b, f a = .ok b := by
  simp only [mapM_eq_ok]
  constructor
  · rintro ⟨l', h⟩ a ha
    induction h with
    | nil => cases ha
    | cons hab _ ih =>
      obtain rfl | ha := List.mem_cons.1 ha
      · exact ⟨_, hab⟩
      · exact ih ha
  · intro h
    induction l with
    | nil => exact ⟨[], .nil⟩
    | cons a l ih =>
      obtain ⟨ha, hl⟩ := List.forall_mem_cons.1 h
      obtain ⟨b, hb⟩ := ha
      obtain ⟨l', hl'⟩ := ih hl
      exact ⟨b :: l', .cons hb hl'⟩

theorem mapM_congr {f : α → Except ε β} {g : σ → Except ε β} {l : List α} {l' : List σ}
    (h : List.Forall₂ (fun a b => f a = g b) l l') : l.mapM f = l'.mapM g := by
  induction h with
  | nil => rfl
  | cons hab _ ih => rw [List.mapM_cons, List.mapM_cons, hab, ih]

section Loop

variable [DecidableEq τ] (skip : List τ → Except ε (List τ))
  (item : σ → List τ → Except ε (σ × List τ)) (close sep : τ) (trailing : Bool) (fail : List τ → ε)

/-- What follows an item: the closing bracket (`true`) or a separator, after which, with `trailing`,
the closing bracket may still follow. -/
def after (r : List τ) : Except ε (Bool × List τ) := do
  match ← skip r with
  | [] => .error (fail [])
  | c :: rest =>
    if c = close then .ok (true, rest)
    else if c ≠ sep then .error (fail (c :: rest))
    else
      let r ← skip rest
      if trailing ∧ r.head? = some close then .ok (true, r.tail) else .ok (false, r)

/-- The loop over the items. -/
def separated : ℕ → σ → List τ → Except ε (σ × List τ)
  | 0, _, r => .error (fail r)
  | fuel + 1, acc, r =>
    if r = [] then .error (fail [])
    else do
      let (acc, r) ← item acc r
      let (closed, r) ← after skip close sep trailing fail r
      if closed then .ok (acc, r) else separated fuel acc r

/-- The list after its opening bracket. -/
def bracketed (acc : σ) (r : List τ) : Except ε (σ × List τ) := do
  let r ← skip r
  if r.head? = some close then .ok (acc, r.tail)
  else separated skip item close sep trailing fail (r.length + 1) acc r

/-! ### How the loop ends -/

section Outcomes

open Outcome

variable {skip item close sep trailing fail} {item' : σ → List τ → Except ε (σ × List τ)}
  {E : ε → Prop} {I : List τ → Prop} {acc : σ} {r : List τ}

section Ends

variable (hskip : ∀ r, I r → Ends I E (skip r)) (htail : ∀ c r, I (c :: r) → I r)
  (hfail : ∀ r, I r → E (fail r))

include hskip htail hfail

theorem after_ends (hr : I r) :
    Ends (fun p => I p.2) E (after skip close sep trailing fail r) := by
  refine (hskip r hr).bind fun r hr => ?_
  cases r with
  | nil => exact hfail [] hr
  | cons c rest =>
    show Ends _ E (if c = close then _ else if c ≠ sep then _ else _)
    by_cases hclose : c = close
    · rw [if_pos hclose]
      exact htail c rest hr
    · rw [if_neg hclose]
      by_cases hsep : c = sep
      · rw [if_neg (not_not_intro hsep)]
        refine (hskip rest (htail c rest hr)).bind fun r hr => ?_
        show Ends _ E (if trailing ∧ r.head? = some close then _ else _)
        split
        · cases r with
          | nil => exact hr
          | cons d r => exact htail d r hr
        · exact hr
      · rw [if_pos hsep]
        exact hfail _ hr

variable (hitem : ∀ acc r, I r → Ends (fun p => I p.2) E (item acc r))

include hitem

theorem separated_ends (fuel : ℕ) (hr : I r) :
    Ends (fun p => I p.2) E (separated skip item close sep trailing fail fuel acc r) := by
  induction fuel generalizing acc r with
  | zero => exact hfail r hr
  | succ fuel ih =>
    rw [separated]
    by_cases hnil : r = []
    · rw [if_pos hnil]
      exact hfail [] (hnil ▸ hr)
    · rw [if_neg hnil]
      refine (hitem acc r hr).bind fun read hread => ?_
      refine (after_ends hskip htail hfail hread).bind fun next hnext => ?_
      show Ends _ E (if next.1 then _ else _)
      split
      · exact hnext
      · exact ih hnext

/-- What holds of the text that is left, and of every error. -/
theorem bracketed_ends (hr : I r) :
    Ends (fun p => I p.2) E (bracketed skip item close sep trailing fail acc r) := by
  refine (hskip r hr).bind fun r hr => ?_
  show Ends _ E (if r.head? = some close then _ else _)
  split
  · cases r with
    | nil => exact hr
    | cons c r => exact htail c r hr
  · exact separated_ends hskip htail hfail hitem _ hr

end Ends

section Cut

variable (hitem : ∀ acc r, Cut E (item acc r) (item' acc r))

include hitem

theorem separated_cut (fuel : ℕ) (acc : σ) (r : List τ) :
    Cut E (separated skip item close sep trailing fail fuel acc r)
      (separated skip item' close sep trailing fail fuel acc r) := by
  induction fuel generalizing acc r with
  | zero => exact .refl _ _
  | succ fuel ih =>
    rw [separated, separated]
    by_cases hnil : r = []
    · rw [if_pos hnil, if_pos hnil]
      exact .refl _ _
    · rw [if_neg hnil, if_neg hnil]
      refine (hitem acc r).bind fun read => Cut.bind (.refl _ _) fun next => ?_
      show Cut E (if next.1 then _ else _) (if next.1 then _ else _)
      split
      · exact .refl _ _
      · exact ih _ _

/-- Items that are cut short cut the list short. -/
theorem bracketed_cut (acc : σ) (r : List τ) :
    Cut E (bracketed skip item close sep trailing fail acc r)
      (bracketed skip item' close sep trailing fail acc r) := by
  refine Cut.bind (.refl _ _) fun r => ?_
  show Cut E (if r.head? = some close then _ else _) (if r.head? = some close then _ else _)
  split
  · exact .refl _ _
  · exact separated_cut hitem _ _ _

end Cut

end Outcomes

end Loop

/-! ## The texts that are read -/

section Texts

variable (Blank : List τ → Prop) (Item : σ → List τ → σ → Prop) (close sep : τ) (trailing : Bool)

/-- What may stand between the last item and what follows the list. -/
inductive Closing : List τ → Prop
  | close {w : List τ} (hw : Blank w) : Closing (w ++ [close])
  | trail {w w' : List τ} (htrail : trailing) (hw : Blank w) (hw' : Blank w') :
      Closing (w ++ sep :: (w' ++ [close]))

/-- At least one item, and the closing bracket. -/
inductive Separated : σ → List τ → σ → Prop
  | last {acc acc' : σ} {t v : List τ} (ht : Item acc t acc')
      (hv : Closing Blank close sep trailing v) : Separated acc (t ++ v) acc'
  | cons {acc acc' acc'' : σ} {t w w' u : List τ} (ht : Item acc t acc') (hw : Blank w)
      (hw' : Blank w') (hu : Separated acc' u acc'') :
      Separated acc (t ++ (w ++ sep :: (w' ++ u))) acc''

/-- What follows the opening bracket. -/
inductive Bracketed : σ → List τ → σ → Prop
  | empty {acc : σ} {w : List τ} (hw : Blank w) : Bracketed acc (w ++ [close]) acc
  | items {acc acc' : σ} {w u : List τ} (hw : Blank w)
      (hu : Separated Blank Item close sep trailing acc u acc') : Bracketed acc (w ++ u) acc'

end Texts

/-- Items read one after the other. -/
inductive Items (Item : σ → List τ → σ → Prop) : σ → List (List τ) → σ → Prop
  | nil {acc : σ} : Items Item acc [] acc
  | cons {acc acc' acc'' : σ} {t : List τ} {ts : List (List τ)} (ht : Item acc t acc')
      (hts : Items Item acc' ts acc'') : Items Item acc (t :: ts) acc''

section Join

variable {Blank Blank' : List τ → Prop} {Item Item' : σ → List τ → σ → Prop} {close sep : τ}
  {trailing trailing' : Bool} {acc acc' : σ} {u : List τ}

section Mono

variable (hBlank : ∀ w, Blank w → Blank' w)
  (hItem : ∀ acc t acc', Item acc t acc' → Item' acc t acc') (htrailing : trailing → trailing')

include hBlank htrailing

theorem Closing.mono (h : Closing Blank close sep trailing u) :
    Closing Blank' close sep trailing' u := by
  cases h with
  | close hw => exact .close (hBlank _ hw)
  | trail htrail hw hw' => exact .trail (htrailing htrail) (hBlank _ hw) (hBlank _ hw')

include hItem

theorem Separated.mono (h : Separated Blank Item close sep trailing acc u acc') :
    Separated Blank' Item' close sep trailing' acc u acc' := by
  induction h with
  | last ht hv => exact .last (hItem _ _ _ ht) (hv.mono hBlank htrailing)
  | cons ht hw hw' _ ih => exact .cons (hItem _ _ _ ht) (hBlank _ hw) (hBlank _ hw') ih

/-- More blanks, more items and a trailing separator make for more texts. -/
theorem Bracketed.mono (h : Bracketed Blank Item close sep trailing acc u acc') :
    Bracketed Blank' Item' close sep trailing' acc u acc' := by
  cases h with
  | empty hw => exact .empty (hBlank _ hw)
  | items hw hu => exact .items (hBlank _ hw) (hu.mono hBlank hItem htrailing)

end Mono

/-- What every item keeps, a list of them keeps. -/
theorem Bracketed.invariant {I : σ → Prop} (hstep : ∀ acc t acc', Item acc t acc' → I acc → I acc')
    (h : Bracketed Blank Item close sep trailing acc u acc') (hI : I acc) : I acc' := by
  have hitems {acc acc' : σ} {u : List τ}
      (h : Separated Blank Item close sep trailing acc u acc') (hI : I acc) : I acc' := by
    induction h with
    | last ht _ => exact hstep _ _ _ ht hI
    | cons ht _ _ _ ih => exact ih (hstep _ _ _ ht hI)
  cases h with
  | empty _ => exact hI
  | items _ hu => exact hitems hu hI

/-- Items joined with separators, with blanks before each of them and after the last. -/
theorem Items.bracketed {pre post : List τ} {ts : List (List τ)} (hnil : Blank [])
    (hpre : Blank pre) (hpost : Blank post) (h : Items Item acc ts acc') :
    Bracketed Blank Item close sep trailing acc
      ((if ts = [] then [] else pre ++ (List.intercalate (sep :: pre) ts ++ post)) ++ [close])
      acc' := by
  have hsep {acc acc' : σ} {t : List τ} {ts : List (List τ)} (h : Items Item acc (t :: ts) acc') :
      Separated Blank Item close sep trailing acc
        (List.intercalate (sep :: pre) (t :: ts) ++ (post ++ [close])) acc' := by
    induction ts generalizing acc t with
    | nil =>
      obtain _ | ⟨ht, hts⟩ := h
      cases hts
      rw [List.intercalate_singleton]
      exact .last ht (.close hpost)
    | cons t' ts ih =>
      obtain _ | ⟨ht, hts⟩ := h
      have hcons := Separated.cons ht hnil hpre (ih hts)
      rw [List.intercalate_cons_cons]
      simpa using hcons
  cases ts with
  | nil =>
    cases h
    exact .empty hnil
  | cons t ts =>
    rw [if_neg (List.cons_ne_nil t ts), List.append_assoc, List.append_assoc]
    exact .items hpre (hsep h)

end Join

/-! ## What is assumed of blanks, items and brackets -/

section Assumptions

variable (skip : List τ → Except ε (List τ)) (item : σ → List τ → Except ε (σ × List τ))
  (Blank Stop Follow : List τ → Prop) (Item : σ → List τ → σ → Prop) (close sep : τ)

/-- `skip` skips the texts of `Blank`, up to a text of `Stop`. -/
structure Skips : Prop where
  stop : ∀ r r', skip r = .ok r' → Stop r'
  split : ∀ r r', skip r = .ok r' → r' ≠ [] → ∃ w, r = w ++ r' ∧ Blank w
  append : ∀ w r, Blank w → Stop r → skip (w ++ r) = .ok r

/-- What `item` reads is an item. -/
def ItemSound : Prop :=
  ∀ acc r acc' r', item acc r = .ok (acc', r') → Stop r → r ≠ [] → r' ≠ [] →
    ∃ t, r = t ++ r' ∧ Item acc t acc'

/-- Every item is read, before a text of `Follow`; it starts with no blank and no bracket. -/
structure ItemComplete : Prop where
  read : ∀ acc t acc' r, Item acc t acc' → Follow r → item acc (t ++ r) = .ok (acc', r)
  start : ∀ acc t acc' r, Item acc t acc' → t ≠ [] ∧ Stop (t ++ r) ∧ t.head? ≠ some close

/-- The closing bracket and the separator differ, are no blanks, and may follow an item. -/
structure Punctuation : Prop where
  ne : sep ≠ close
  stop : ∀ c r, c = close ∨ c = sep → Stop (c :: r)
  follow : ∀ w c r, Blank w → c = close ∨ c = sep → Follow (w ++ c :: r)

end Assumptions

variable [DecidableEq τ] {skip : List τ → Except ε (List τ)}
  {item : σ → List τ → Except ε (σ × List τ)} {close sep : τ} {trailing : Bool} {fail : List τ → ε}
  {Blank Stop Follow : List τ → Prop} {Item : σ → List τ → σ → Prop}
  {acc acc' : σ} {r r' u v : List τ}

/-! ## Soundness -/

section Sound

variable (hskip : Skips skip Blank Stop) (hitem : ItemSound item Stop Item)

include hskip

theorem after_close_sound (h : after skip close sep trailing fail r = .ok (true, r')) :
    ∃ v, r = v ++ r' ∧ Closing Blank close sep trailing v := by
  obtain ⟨r₁, hblank, h₁⟩ := bind_eq_ok.1 h
  cases r₁ with
  | nil => cases h₁
  | cons c rest =>
    obtain ⟨w, rfl, hw⟩ := hskip.split _ _ hblank (List.cons_ne_nil _ _)
    dsimp only at h₁
    split_ifs at h₁ with hclose hsep
    · cases h₁
      subst hclose
      exact ⟨w ++ [c], by simp, .close hw⟩
    · obtain ⟨r₂, hblank', h₂⟩ := bind_eq_ok.1 h₁
      obtain rfl := not_not.1 hsep
      split_ifs at h₂ with htrail
      · obtain ⟨htrail, hhead⟩ := htrail
        obtain ⟨rest', rfl⟩ := List.head?_eq_some_iff.1 hhead
        obtain ⟨w', rfl, hw'⟩ := hskip.split _ _ hblank' (List.cons_ne_nil _ _)
        cases h₂
        exact ⟨w ++ c :: (w' ++ [close]), by simp, .trail htrail hw hw'⟩
      · cases h₂

theorem after_sep_sound (h : after skip close sep trailing fail r = .ok (false, r')) :
    Stop r' ∧ (r' ≠ [] → ∃ w w', r = w ++ sep :: (w' ++ r') ∧ Blank w ∧ Blank w') := by
  obtain ⟨r₁, hblank, h₁⟩ := bind_eq_ok.1 h
  cases r₁ with
  | nil => cases h₁
  | cons c rest =>
    obtain ⟨w, rfl, hw⟩ := hskip.split _ _ hblank (List.cons_ne_nil _ _)
    dsimp only at h₁
    split_ifs at h₁ with hclose hsep
    · cases h₁
    · obtain ⟨r₂, hblank', h₂⟩ := bind_eq_ok.1 h₁
      obtain rfl := not_not.1 hsep
      split_ifs at h₂ with htrail
      · cases h₂
      · cases h₂
        refine ⟨hskip.stop _ _ hblank', fun hr => ?_⟩
        obtain ⟨w', rfl, hw'⟩ := hskip.split _ _ hblank' hr
        exact ⟨w, w', rfl, hw, hw'⟩

include hitem

theorem separated_sound {fuel : ℕ} (hr : Stop r)
    (h : separated skip item close sep trailing fail fuel acc r = .ok (acc', r')) :
    r ≠ [] ∧ ∃ u, r = u ++ r' ∧ Separated Blank Item close sep trailing acc u acc' := by
  induction fuel generalizing acc r with
  | zero => cases h
  | succ fuel ih =>
    rw [separated] at h
    split_ifs at h with hnil
    obtain ⟨⟨acc₁, r₁⟩, hread, h₁⟩ := bind_eq_ok.1 h
    obtain ⟨⟨closed, r₂⟩, hafter, h₂⟩ := bind_eq_ok.1 h₁
    refine ⟨hnil, ?_⟩
    cases closed with
    | true =>
      cases h₂
      obtain ⟨v, rfl, hv⟩ := after_close_sound hskip hafter
      obtain ⟨t, rfl, ht⟩ := hitem _ _ _ _ hread hr hnil (by cases hv <;> simp)
      exact ⟨t ++ v, by simp, .last ht hv⟩
    | false =>
      obtain ⟨hr₂, hsep⟩ := after_sep_sound hskip hafter
      obtain ⟨hne, u, rfl, hu⟩ := ih hr₂ h₂
      obtain ⟨w, w', rfl, hw, hw'⟩ := hsep hne
      obtain ⟨t, rfl, ht⟩ := hitem _ _ _ _ hread hr hnil (by simp)
      exact ⟨t ++ (w ++ sep :: (w' ++ u)), by simp, .cons ht hw hw' hu⟩

/-- What is read is a list of items in brackets. -/
theorem bracketed_sound
    (h : bracketed skip item close sep trailing fail acc r = .ok (acc', r')) :
    ∃ u, r = u ++ r' ∧ Bracketed Blank Item close sep trailing acc u acc' := by
  rw [bracketed] at h
  obtain ⟨r₁, hblank, h₁⟩ := bind_eq_ok.1 h
  split_ifs at h₁ with hclose
  · obtain ⟨rest, rfl⟩ := List.head?_eq_some_iff.1 hclose
    obtain ⟨w, rfl, hw⟩ := hskip.split _ _ hblank (List.cons_ne_nil _ _)
    cases h₁
    exact ⟨w ++ [close], by simp, .empty hw⟩
  · obtain ⟨hne, u, rfl, hu⟩ := separated_sound hskip hitem (hskip.stop _ _ hblank) h₁
    obtain ⟨w, rfl, hw⟩ := hskip.split _ _ hblank hne
    exact ⟨w ++ u, by simp, .items hw hu⟩

end Sound

/-! ## Completeness -/

section Complete

variable (hskip : Skips skip Blank Stop) (hitem : ItemComplete item Stop Follow Item close)
  (hpunct : Punctuation Blank Stop Follow close sep)

omit [DecidableEq τ] in
include hpunct in
theorem Closing.follow (h : Closing Blank close sep trailing v) (r : List τ) : Follow (v ++ r) := by
  cases h with
  | close hw => rw [List.append_assoc]; exact hpunct.follow _ _ _ hw (Or.inl rfl)
  | trail _ hw _ => rw [List.append_assoc]; exact hpunct.follow _ _ _ hw (Or.inr rfl)

omit [DecidableEq τ] in
include hitem in
/-- A list of items starts neither with a blank nor with the closing bracket. -/
theorem Separated.start (h : Separated Blank Item close sep trailing acc u acc') (r : List τ) :
    Stop (u ++ r) ∧ (u ++ r).head? ≠ some close := by
  have hfirst {acc acc' : σ} {t : List τ} (ht : Item acc t acc') (v : List τ) :
      Stop (t ++ v ++ r) ∧ (t ++ v ++ r).head? ≠ some close := by
    obtain ⟨hnil, hstop, hhead⟩ := hitem.start _ _ _ (v ++ r) ht
    rw [List.append_assoc]
    exact ⟨hstop, by rwa [List.head?_append_of_ne_nil _ hnil]⟩
  cases h with
  | last ht _ => exact hfirst ht _
  | cons ht _ _ _ => exact hfirst ht _

include hskip hpunct

theorem after_close (h : Closing Blank close sep trailing v) (r : List τ) :
    after skip close sep trailing fail (v ++ r) = .ok (true, r) := by
  cases h with
  | close hw =>
    rw [after, List.append_assoc, List.singleton_append,
      hskip.append _ _ hw (hpunct.stop _ _ (Or.inl rfl))]
    exact if_pos rfl
  | @trail w w' htrail hw hw' =>
    rw [after, List.append_assoc, List.cons_append,
      hskip.append _ _ hw (hpunct.stop _ _ (Or.inr rfl))]
    refine (if_neg hpunct.ne).trans ((if_neg (not_not.2 rfl)).trans ?_)
    rw [List.append_assoc, List.singleton_append,
      hskip.append _ _ hw' (hpunct.stop _ _ (Or.inl rfl))]
    exact if_pos ⟨htrail, rfl⟩

theorem after_sep {w w' : List τ} (hw : Blank w) (hw' : Blank w') (hstop : Stop r)
    (hhead : r.head? ≠ some close) :
    after skip close sep trailing fail (w ++ sep :: (w' ++ r)) = .ok (false, r) := by
  rw [after, hskip.append _ _ hw (hpunct.stop _ _ (Or.inr rfl))]
  refine (if_neg hpunct.ne).trans ((if_neg (not_not.2 rfl)).trans ?_)
  rw [hskip.append _ _ hw' hstop]
  exact if_neg fun h => hhead h.2

include hitem

theorem separated_complete (h : Separated Blank Item close sep trailing acc u acc') {fuel : ℕ}
    (hfuel : (u ++ r).length < fuel) :
    separated skip item close sep trailing fail fuel acc (u ++ r) = .ok (acc', r) := by
  induction h generalizing fuel with
  | @last acc acc' t v ht hv =>
    obtain ⟨fuel, rfl⟩ := Nat.exists_eq_succ_of_ne_zero (Nat.ne_zero_of_lt hfuel)
    have hnil : t ++ v ++ r ≠ [] := by simp [(hitem.start _ _ _ [] ht).1]
    rw [separated, if_neg hnil, List.append_assoc, hitem.read _ _ _ _ ht (hv.follow hpunct r)]
    show (after skip close sep trailing fail (v ++ r) >>= _) = _
    rw [after_close hskip hpunct hv]
    rfl
  | @cons acc acc' acc'' t w w' u ht hw hw' hu ih =>
    obtain ⟨fuel, rfl⟩ := Nat.exists_eq_succ_of_ne_zero (Nat.ne_zero_of_lt hfuel)
    have hnil : t ++ (w ++ sep :: (w' ++ u)) ++ r ≠ [] := by simp [(hitem.start _ _ _ [] ht).1]
    have happ : t ++ (w ++ sep :: (w' ++ u)) ++ r = t ++ (w ++ sep :: (w' ++ (u ++ r))) := by simp
    obtain ⟨hstop, hhead⟩ := hu.start hitem r
    rw [separated, if_neg hnil, happ, hitem.read _ _ _ _ ht (hpunct.follow _ _ _ hw (Or.inr rfl))]
    show (after skip close sep trailing fail (w ++ sep :: (w' ++ (u ++ r))) >>= _) = _
    rw [after_sep hskip hpunct hw hw' hstop hhead]
    refine ih ?_
    simp only [List.length_append, List.length_cons] at hfuel ⊢
    omega

/-- Every list of items in brackets is read. -/
theorem bracketed_complete (h : Bracketed Blank Item close sep trailing acc u acc') (r : List τ) :
    bracketed skip item close sep trailing fail acc (u ++ r) = .ok (acc', r) := by
  cases h with
  | empty hw =>
    rw [bracketed, List.append_assoc, List.singleton_append,
      hskip.append _ _ hw (hpunct.stop _ _ (Or.inl rfl))]
    exact if_pos rfl
  | items hw hu =>
    obtain ⟨hstop, hhead⟩ := hu.start hitem r
    rw [bracketed, List.append_assoc, hskip.append _ _ hw hstop]
    refine (if_neg hhead).trans ?_
    exact separated_complete hskip hitem hpunct hu (Nat.lt_succ_self _)

end Complete

end Reader
