import RegNewvm.Proof.JsonOptions
import RegNewvm.Proof.JsonRoundTrip

/-!
# From texts to data and back

Decoded data are well formed and within the depth limit (`decode_wellFormed`).  What is encoded is
decoded to the same data by every decoder that allows as many levels, and by no other
(`decode_encode`).  So what was decoded can be encoded and decoded again (`decode_encode_decode`).
-/

namespace RegNewvm.JsonPP

open Reader

variable {perl : Interpreter} {coder writer reader : Coder} {n : ℕ} {t : List Char} {d : Data}

/-! ## What is decoded -/

/-- Well formed, and of at most `n` levels. -/
def Regular (perl : Interpreter) (n : ℕ) (d : Data) : Prop :=
  WellFormed (ReadNumber perl) d ∧ Within n d

theorem keys_setEntry (o : List (String × Data)) (k : String) (v : Data) :
    (setEntry o k v).map Prod.fst =
      if k ∈ o.map Prod.fst then o.map Prod.fst else o.map Prod.fst ++ [k] := by
  unfold setEntry
  split_ifs with hk
  · rw [List.map_map]
    refine List.map_congr_left fun entry _ => ?_
    show (if entry.1 = k then (k, v) else entry).1 = entry.1
    split_ifs with h
    · exact h.symm
    · rfl
  · rw [List.map_append]
    rfl

theorem nodup_setEntry {o : List (String × Data)} (h : (o.map Prod.fst).Nodup) (k : String)
    (v : Data) : ((setEntry o k v).map Prod.fst).Nodup := by
  rw [keys_setEntry]
  split_ifs with hk
  · exact h
  · exact List.nodup_append.2 ⟨h, List.nodup_singleton k, fun a ha b hb hab =>
      hk (by rwa [← List.mem_singleton.1 hb, ← hab])⟩

theorem mem_setEntry {o : List (String × Data)} {k : String} {v : Data} {entry : String × Data}
    (h : entry ∈ setEntry o k v) : entry ∈ o ∨ entry = (k, v) := by
  unfold setEntry at h
  split_ifs at h with hk
  · obtain ⟨old, hold, rfl⟩ := List.mem_map.1 h
    split_ifs
    · exact Or.inr rfl
    · exact Or.inl hold
  · obtain h | h := List.mem_append.1 h
    · exact Or.inl h
    · exact Or.inr (List.mem_singleton.1 h)

theorem regular_numeric (ht : Numeral perl t) : Regular perl n (numeric perl t) := by
  have hread : ∀ s, numeric perl t = .number s → ReadNumber perl s := fun s hs => ⟨t, ht, hs⟩
  unfold numeric at hread ⊢
  split_ifs at hread ⊢ with hlong
  · exact ⟨.string _, .scalar nofun nofun⟩
  · exact ⟨.number (hread _ rfl), .scalar nofun nofun⟩

theorem regular_scalar (ht : Scalar perl coder t d) : Regular perl n d := by
  cases ht with
  | null => exact ⟨.null, .scalar nofun nofun⟩
  | true => exact ⟨.bool true, .scalar nofun nofun⟩
  | false => exact ⟨.bool false, .scalar nofun nofun⟩
  | numeral ht => exact regular_numeric ht
  | string _ => exact ⟨.string _, .scalar nofun nofun⟩

/-- The data that a text of at most `n` levels stands for. -/
theorem regular_item (ht : Item perl coder n t d) : Regular perl n d := by
  induction n generalizing t d with
  | zero => exact regular_scalar ht
  | succ n ih =>
    obtain ht | ⟨u, a, rfl, rfl, hu⟩ | ⟨u, o, rfl, rfl, hu⟩ := ht
    · exact regular_scalar ht
    · have hitems : ∀ d ∈ a, Regular perl n d := by
        refine hu.invariant (I := fun a => ∀ d ∈ a, Regular perl n d) ?_ nofun
        rintro a t _ ⟨v, hv, rfl⟩ ha d hd
        obtain hd | hd := List.mem_append.1 hd
        · exact ha d hd
        · exact List.mem_singleton.1 hd ▸ ih hv
      exact ⟨.array fun d hd => (hitems d hd).1, .array fun d hd => (hitems d hd).2⟩
    · have hentries : (o.map Prod.fst).Nodup ∧ ∀ entry ∈ o, Regular perl n entry.2 := by
        refine hu.invariant
          (I := fun o => (o.map Prod.fst).Nodup ∧ ∀ entry ∈ o, Regular perl n entry.2) ?_
          ⟨List.nodup_nil, nofun⟩
        rintro o t _ ⟨kt, w, w', vt, k, v, -, -, -, -, hv, rfl⟩ ⟨hkeys, ho⟩
        refine ⟨nodup_setEntry hkeys k v, fun entry hentry => ?_⟩
        obtain hentry | rfl := mem_setEntry hentry
        · exact ho entry hentry
        · exact ih hv
      exact ⟨.hash hentries.1 fun e he => (hentries.2 e he).1,
        .hash fun e he => (hentries.2 e he).2⟩

theorem regular_of_decode {text : String} (h : decode perl coder text = .ok d) :
    Regular perl coder.maxDepth d ∧ (coder.allowNonref ∨ d.isRef) := by
  obtain ⟨w, t, r, -, -, ht, href, -⟩ := decode_ok h
  exact ⟨regular_item ht, href⟩

section RoundTrip

variable {perl' : Interpreter} {text : String} {d' : Data}

theorem same_of_encode (hd : WellFormed (PrintedNumber perl) d)
    (h : encode perl' writer d = .ok text) (hread : decode perl reader text = .ok d') :
    Same d d' := by
  -- both data are those of the document for a reader that allows what either of the two does
  let laxer : Coder :=
    { reader with maxDepth := max reader.maxDepth writer.maxDepth, allowNonref := true }
  have hlax : laxer.Laxer reader := ⟨le_max_left _ _, fun _ => rfl, id, id⟩
  have hwrite := encode_eq_ok_iff.1 h
  have hwithin := ((exists_ppEncodeJson_iff _ _ _).1 ⟨_, hwrite⟩).2
  obtain ⟨d'', hsame, hdoc⟩ := document_ppEncodeJson laxer hd
    (hwithin.mono (le_max_right _ _)) (Or.inl rfl) hwrite
  have heq := (decode_document hdoc).symm.trans (decode_document ((decode_ok hread).mono hlax))
  rw [Except.ok.injEq] at heq
  exact heq ▸ hsame

theorem exists_decode_encode (hd : WellFormed (PrintedNumber perl) d)
    (h : encode perl' writer d = .ok text) (hwithin : Within reader.maxDepth d)
    (htop : reader.allowNonref ∨ d.isRef) : ∃ d', decode perl reader text = .ok d' := by
  obtain ⟨d', -, hdoc⟩ := document_ppEncodeJson reader hd hwithin htop (encode_eq_ok_iff.1 h)
  exact ⟨d', decode_document hdoc⟩

/-- What was encoded is decoded as the same data, if anything, whatever the layout and the escapes;
and it is decoded exactly if the decoder allows as many levels, and data that are no container. -/
theorem decode_encode (reader : Coder) (hd : WellFormed (PrintedNumber perl) d)
    (h : encode perl' writer d = .ok text) :
    (∀ d', decode perl reader text = .ok d' → Same d d') ∧
      ((∃ d', decode perl reader text = .ok d') ↔
        Within reader.maxDepth d ∧ (reader.allowNonref ∨ d.isRef)) := by
  refine ⟨fun d' => same_of_encode hd h, ?_, fun htop => exists_decode_encode hd h htop.1 htop.2⟩
  rintro ⟨d', hread⟩
  obtain ⟨⟨-, hwithin⟩, htop⟩ := regular_of_decode hread
  have hsame := same_of_encode hd h hread
  rw [← hsame.isRef_eq] at htop
  exact ⟨hsame.within_iff.2 hwithin, htop⟩

/-- What was decoded can be encoded, in every layout, and decoded again to the same data, provided
that its numbers print as numerals. -/
theorem decode_encode_decode (perl' : Interpreter) (writer : Coder)
    (h : decode perl coder text = .ok d) (hnumbers : WellFormed (PrintedNumber perl) d)
    (hdepth : coder.maxDepth ≤ writer.maxDepth)
    (hnonref : coder.allowNonref → writer.allowNonref) :
    ∃ written d', encode perl' writer d = .ok written ∧ decode perl coder written = .ok d' ∧
      Same d d' := by
  obtain ⟨⟨-, hwithin⟩, htop⟩ := regular_of_decode h
  obtain ⟨t, ht⟩ := (exists_ppEncodeJson_iff perl' writer d).2
    ⟨htop.symm.imp_right hnonref, hwithin.mono hdepth⟩
  have hwritten : encode perl' writer d = .ok (String.ofList t) :=
    encode_eq_ok_iff.2 (by rwa [String.toList_ofList])
  obtain ⟨d', hread⟩ := exists_decode_encode hnumbers hwritten hwithin htop
  exact ⟨_, d', hwritten, hread, same_of_encode hnumbers hwritten hread⟩

end RoundTrip

/-! ### Sample data -/

def sampleHash : Data := .hash [("b", .string "\u00e9"), ("a", .array [.null, .number "1"])]

def sampleText : String := "\x7b\"a\":[null,1],\"b\":\"\\u00e9\"\x7d"

theorem printedNumber_plain {text : String} (htext : text = "1" ∨ text = "2") :
    PrintedNumber .plain text := by
  obtain rfl | rfl := htext
  · exact ⟨⟨['1'], [], [], rfl, .plain rfl nofun nofun, .nil, .nil⟩, rfl⟩
  · exact ⟨⟨['2'], [], [], rfl, .plain rfl nofun nofun, .nil, .nil⟩, rfl⟩

theorem sampleHash_wellFormed : WellFormed (PrintedNumber .plain) sampleHash := by
  refine .hash (by decide) ?_
  rintro _ (_ | ⟨_, _ | ⟨_, ⟨⟩⟩⟩)
  · exact .string _
  · refine .array ?_
    rintro _ (_ | ⟨_, _ | ⟨_, ⟨⟩⟩⟩)
    · exact .null
    · exact .number (printedNumber_plain (Or.inl rfl))

theorem sampleHash_within : Within 2 sampleHash := by
  refine .hash ?_
  rintro _ (_ | ⟨_, _ | ⟨_, ⟨⟩⟩⟩)
  · exact .scalar nofun nofun
  · refine .array ?_
    rintro _ (_ | ⟨_, _ | ⟨_, ⟨⟩⟩⟩)
    · exact .scalar nofun nofun
    · exact .scalar nofun nofun

theorem sampleHash_not_within : ¬ Within 1 sampleHash := fun h =>
  not_within_zero_array (within_hash_iff.1 h _ (List.mem_cons_of_mem _ List.mem_cons_self))

/-- Encoded with sorted keys and in ASCII, decoded with two levels, and not with one. -/
theorem decode_encode_sample :
    (∃ d', decode .plain { maxDepth := 2 } sampleText = .ok d' ∧ Same sampleHash d') ∧
      ¬ ∃ d', decode .plain { maxDepth := 1 } sampleText = .ok d' := by
  have hwritten : encode .plain { canonical := true, ascii := true } sampleHash = .ok sampleText :=
    rfl
  obtain ⟨hsame, hread⟩ := decode_encode { maxDepth := 2 } sampleHash_wellFormed hwritten
  obtain ⟨-, hdeep⟩ := decode_encode { maxDepth := 1 } sampleHash_wellFormed hwritten
  obtain ⟨d', hd'⟩ := hread.2 ⟨sampleHash_within, Or.inr rfl⟩
  exact ⟨⟨d', hd', hsame d' hd'⟩, fun h => sampleHash_not_within (hdeep.1 h).1⟩

theorem sampleArray_wellFormed : WellFormed (PrintedNumber .plain) sampleArray := by
  refine .array ?_
  rintro _ (_ | ⟨_, _ | ⟨_, ⟨⟩⟩⟩)
  · refine .array ?_
    rintro _ (_ | ⟨_, _ | ⟨_, ⟨⟩⟩⟩)
    · exact .number (printedNumber_plain (Or.inl rfl))
    · exact .number (printedNumber_plain (Or.inr rfl))
  · exact .array nofun

/-- Decoded, written with line breaks, and decoded again. -/
theorem decode_encode_decode_sample : ∃ written d',
    encode .plain { indent := true } sampleArray = .ok written ∧
      decode .plain { maxDepth := 2 } written = .ok d' ∧ Same sampleArray d' :=
  decode_encode_decode _ _ sampleArray_decoded sampleArray_wellFormed (by decide) id

end RegNewvm.JsonPP
