/-
  TAKING READING UP AGAIN — the tokens of a text tile it, and each is a place to read on from.

  Reading an edited text again rests on two facts about a list of tokens.

  1. **The tokens tile the text** (`Tiled`): none is empty, they lie side by side from the first
     byte to the last one, and no byte at which one begins or ends is inside a character.
  2. **A token knows all that reading needs** (`Token.ReadAs`): from its start, in its mode, the
     token itself is read, and the mode behind it is the one that the next token has.

  The first fact is that reading cuts a text into pieces (`Cut`), seen from the bytes.  The second
  one takes the reading of a whole text apart at a token (`Lexes.split`); it fails only for the
  token that stands for the rest of a text with too many tokens, since that one was never read.
-/
import Mathlib.Data.List.Chain
import LayeredSyntax.Proofs.Lexicon.Bounds
import LayeredSyntax.Proofs.Source.Lines
import LayeredSyntax.Proofs.Token.Lexing

namespace LayeredSyntax

/-! ## Tokens over a text -/

/-- **Whether tokens tile a text.** -/
structure Tiled (text : String) (tokens : List Token) : Prop where
  nonempty : ∀ t ∈ tokens, t.start < t.stop
  boundaries : ∀ t ∈ tokens,
    isBoundary t.start text.toList = true ∧ isBoundary t.stop text.toList = true
  first : ∀ t, tokens.head? = some t → t.start = 0
  contiguous : tokens.IsChain fun t u => u.start = t.stop
  last : (tokens.getLast?.map Token.stop).getD 0 = text.utf8ByteSize

theorem isBoundary_width (before rest : List Char) :
    isBoundary (width before) (before ++ rest) = true := by
  unfold isBoundary
  rw [splitAtByte?_width_append]
  rfl

variable {p : Position} {cs : List Char} {tokens : List Token}

/-- The first token of a cut begins where the cut does. -/
theorem Cut.start_head? (h : Cut p cs tokens) {t : Token} (ht : tokens.head? = some t) :
    t.start = p.offset := by
  cases h with
  | nil => cases ht
  | cons => cases ht; rfl

theorem Cut.contiguous (h : Cut p cs tokens) : tokens.IsChain fun t u => u.start = t.stop := by
  induction h with
  | nil => exact .nil
  | cons _ hrest ih =>
    exact List.isChain_cons.mpr ⟨fun u hu => hrest.start_head? hu, ih⟩

/-- The last token of a cut ends where its characters do. -/
theorem Cut.stop_getLast? (h : Cut p cs tokens) :
    (tokens.getLast?.map Token.stop).getD p.offset = p.offset + width cs := by
  induction h with
  | nil p => rfl
  | @cons p text rest m kind tokens _ _ ih =>
    rw [width_append, ← Nat.add_assoc, ← Position.after_offset, ← ih, List.getLast?_cons]
    cases tokens.getLast? <;> rfl

/-- Each token of a cut has bytes, and stands between characters. -/
theorem Cut.bounds (h : Cut p cs tokens) : ∀ {source before : List Char},
    source = before ++ cs → p.offset = width before → ∀ t ∈ tokens, t.start < t.stop ∧
      isBoundary t.start source = true ∧ isBoundary t.stop source = true := by
  induction h with
  | nil => exact fun _ _ t ht => absurd ht List.not_mem_nil
  | @cons p text rest m kind tokens hne _ ih =>
    intro source before hsource hoffset t ht
    have hafter : (p.after text).offset = width (before ++ text) := by
      rw [Position.after_offset, hoffset, width_append]
    rw [← List.append_assoc] at hsource
    rcases List.mem_cons.mp ht with rfl | ht
    · have hpos : width text ≠ 0 := fun h => hne (width_eq_zero_iff.mp h)
      refine ⟨?_, ?_, ?_⟩
      · show p.offset < (p.after text).offset
        rw [Position.after_offset]
        omega
      · show isBoundary p.offset source = true
        rw [hoffset, hsource, List.append_assoc]
        exact isBoundary_width _ _
      · show isBoundary (p.after text).offset source = true
        rw [hafter, hsource]
        exact isBoundary_width _ _
    · exact ih hsource hafter t ht

/-- **Tokens that cut a whole text tile it.** -/
theorem Cut.tiled {text : String} (h : Cut .origin text.toList tokens) : Tiled text tokens where
  nonempty t ht := (h.bounds (List.nil_append _).symm rfl t ht).1
  boundaries t ht := (h.bounds (List.nil_append _).symm rfl t ht).2
  first _ ht := h.start_head? ht
  contiguous := h.contiguous
  last := by
    rw [utf8ByteSize_eq_width, ← Nat.zero_add (width _)]
    exact h.stop_getLast?

/-- The check of a list of tokens finds no fault in a cut. -/
theorem Cut.tilingFault?_eq_none (h : Cut p cs tokens) (index : Nat) :
    tilingFault? (p.offset + width cs) index p.offset tokens = none := by
  induction h generalizing index with
  | nil => exact if_pos rfl
  | @cons p text rest m kind tokens hne _ ih =>
    have hpos : width text ≠ 0 := fun h => hne (width_eq_zero_iff.mp h)
    have hstop : (p.after text).offset = p.offset + width text := Position.after_offset p text
    have hspan : Span.isEmpty ⟨p, p.after text⟩ = false := by
      refine beq_false_of_ne ?_
      show p.offset ≠ (p.after text).offset
      omega
    rw [tilingFault?, if_neg fun h => h rfl]
    show (if Span.isEmpty ⟨p, p.after text⟩ = true then _ else _) = none
    rw [hspan, width_append, ← Nat.add_assoc, ← hstop]
    exact ih (index + 1)

/-! ## Reading a token again -/

/-- The byte at which a reading ends that begins at a byte of a text. -/
def Reading.stopFrom? (r : Reading) (text : String) (start : Nat) : Option Nat :=
  (splitAtByte? start text.toList).bind fun cut =>
    if r.length ≤ cut.2.length then some (start + width (cut.2.take r.length)) else none

section

variable [Limits]

/-- **Whether reading a text at a token, in its mode, is a reading of this token.** -/
structure Token.ReadAs (text : String) (t : Token) (r : Reading) : Prop where
  scan : scanAt? text t.start t.mode = some r
  kind : r.kind = t.kind
  stop : r.stopFrom? text t.start = some t.stop

/-- A token that was read at a place of a text is read there again. -/
theorem Token.readAs_of_read? {text : String} {before cs : List Char} {m : Mode} {s : TokenStep}
    (hs : Token.read? p m cs = some s) (htext : text.toList = before ++ cs)
    (hoffset : p.offset = width before) : ∃ r, s.token.ReadAs text r ∧ r.next = s.next := by
  unfold Token.read? at hs
  obtain ⟨r, hr, rfl⟩ := Option.map_eq_some_iff.mp hs
  have hsplit : splitAtByte? p.offset text.toList = some (before, cs) := by
    rw [htext, hoffset, splitAtByte?_width_append]
  refine ⟨r, ⟨?_, rfl, ?_⟩, rfl⟩
  · show scanAt? text p.offset m = some r
    unfold scanAt?
    rw [hsplit]
    exact hr
  · show r.stopFrom? text p.offset = some (p.after (cs.take r.length)).offset
    unfold Reading.stopFrom?
    rw [hsplit, Position.after_offset]
    exact if_pos (scan?_within hr).length_le

omit [Limits] in
/-- What was left over has the mode in which it would have been read. -/
theorem Reader.mode_of_mem_leftOver {r : Reader} {t : Token} (h : t ∈ r.leftOver) :
    t.mode = r.mode := by
  unfold leftOver at h
  split at h
  · cases h
  · obtain rfl := List.mem_singleton.mp h
    rfl

/-- The first token from a place on has the mode of the place. -/
theorem Lexes.mode_head? {r r' : Reader} {ts : List Token} (h : Lexes r ts r') {t : Token}
    (ht : (ts ++ r'.leftOver).head? = some t) : t.mode = r.mode := by
  cases h with
  | nil => exact Reader.mode_of_mem_leftOver (List.mem_of_mem_head? ht)
  | cons hs _ =>
    obtain ⟨_, _, _, _, htoken⟩ := Token.read?_spec hs
    cases ht
    rw [htoken]

/-- **Every token on the way from the start of a text** is read again, with the mode of the token
    behind it. -/
theorem Lexes.readAs {m : Mode} {text : String} {before after : List Token} {t : Token}
    {r : Reader} (h : Lexes (.atStart m text.toList) (before ++ t :: after) r) :
    ∃ rd, t.ReadAs text rd ∧ ∀ u, (after ++ r.leftOver).head? = some u → rd.next = u.mode := by
  obtain ⟨⟨p, mode, ahead⟩, hbefore, hafter⟩ := h.split
  obtain ⟨taken, htext, -, hoffset⟩ := hbefore.consumed_atStart
  cases hafter with
  | @cons _ _ _ s _ _ hs hrest =>
    obtain ⟨rd, hread, hnext⟩ := Token.readAs_of_read? hs htext hoffset
    exact ⟨rd, hread, fun u hu => hnext.trans (hrest.mode_head? hu).symm⟩

/-- The modes of tokens follow no more JSON brackets than the first one or than can be followed. -/
theorem Lexes.depth_le {r r' : Reader} {ts : List Token} {bound : Nat} (h : Lexes r ts r')
    (hbound : JsonNesting.maxDepth ≤ bound) (hr : r.mode.json.depth ≤ bound) :
    (∀ t ∈ ts, t.mode.json.depth ≤ bound) ∧ r'.mode.json.depth ≤ bound := by
  induction h with
  | nil => exact ⟨fun t ht => absurd ht List.not_mem_nil, hr⟩
  | @cons p m cs s ts r' hs _ ih =>
    unfold Token.read? at hs
    obtain ⟨rd, hrd, rfl⟩ := Option.map_eq_some_iff.mp hs
    obtain ⟨hrest, hlast⟩ :=
      ih (Nat.le_trans (scan?_within hrd).depth_le (Nat.max_le.mpr ⟨hr, hbound⟩))
    refine ⟨fun t ht => ?_, hlast⟩
    rcases List.mem_cons.mp ht with rfl | ht
    · exact hr
    · exact hrest t ht

/-! ## Whole texts -/

/-- **The tokens of a text tile it, and at each of them reading can be taken up again.** -/
theorem tokenize_tiles_and_resumes (m : Mode) (text : String) :
    Tiled text (tokenize m text).toList ∧
    checkTiling (tokenize m text) text.utf8ByteSize = none ∧
    (∀ t, (tokenize m text)[0]? = some t → t.mode = m) ∧
    (∀ t ∈ tokenize m text, t.mode.json.depth ≤ max m.json.depth JsonNesting.maxDepth) ∧
    ∀ i t, (tokenize m text)[i]? = some t → i + 1 < Limits.tokens →
      ∃ r, t.ReadAs text r ∧ ∀ u, (tokenize m text)[i + 1]? = some u → r.next = u.mode := by
  have htiled := (cut_tokenize m text).tiled
  have hcheck := (cut_tokenize m text).tilingFault?_eq_none 0
  obtain ⟨ts, r, hts, heq, hend⟩ := tokenizeFrom_spec #[] .origin m text.toList
  change (tokenize m text).toList = ts ++ r.leftOver at heq
  rw [List.size_toArray, List.length_nil, Nat.zero_add] at hend
  obtain ⟨hdepths, hlast⟩ := hts.depth_le (Nat.le_max_right m.json.depth _) (Nat.le_max_left _ _)
  refine ⟨htiled, ?_, fun t ht => ?_, fun t ht => ?_, fun i t ht hi => ?_⟩
  · rw [utf8ByteSize_eq_width, ← Nat.zero_add (width _)]
    exact hcheck
  · rw [← Array.getElem?_toList, heq, ← List.head?_eq_getElem?] at ht
    exact hts.mode_head? ht
  · rw [← Array.mem_toList_iff, heq] at ht
    rcases List.mem_append.mp ht with ht | ht
    · exact hdepths t ht
    · rw [Reader.mode_of_mem_leftOver ht]
      exact hlast
  · rw [← Array.getElem?_toList, heq] at ht
    -- In front of the bound every token was read, the left-over one stands at the bound.
    have hlt : i < ts.length := by
      by_contra hge
      have hnil : r.ahead = [] := hend.resolve_right fun hbound => by
        have := (List.getElem?_eq_some_iff.mp ht).1
        omega
      rw [Reader.leftOver, if_pos hnil, List.append_nil, List.getElem?_eq_none (by omega)] at ht
      cases ht
    rw [List.getElem?_append_left hlt] at ht
    obtain ⟨_, hget⟩ := List.getElem?_eq_some_iff.mp ht
    have hparts : ts = ts.take i ++ t :: ts.drop (i + 1) := by
      rw [← hget, List.getElem_cons_drop, List.take_append_drop]
    rw [hparts] at hts
    obtain ⟨rd, hread, hnext⟩ := hts.readAs
    refine ⟨rd, hread, fun u hu => hnext u ?_⟩
    rwa [← Array.getElem?_toList, heq, ← List.head?_drop,
      List.drop_append_of_le_length (Nat.succ_le_of_lt hlt)] at hu

end

/-- In ` é+1` the name is read again from its two bytes on, and the operator behind it has the mode
    in which it is then read. -/
theorem tokenize_resumes_at_name :
    let name : Token := ⟨.identifier, "é", ⟨⟨1, 1, 2⟩, ⟨3, 1, 3⟩⟩, .expr⟩
    let plus : Token := ⟨.operator, "+", ⟨⟨3, 1, 3⟩, ⟨4, 1, 4⟩⟩, Mode.expr.afterOperand⟩
    (tokenize .expr " é+1")[1]? = some name ∧ 1 + 1 < Limits.tokens ∧
      (tokenize .expr " é+1")[1 + 1]? = some plus ∧
        ∃ r, name.ReadAs " é+1" r ∧ r.next = plus.mode := by
  intro name plus
  have hname : (tokenize .expr " é+1")[1]? = some name := by decide +kernel
  have hplus : (tokenize .expr " é+1")[1 + 1]? = some plus := by decide +kernel
  have hlt : 1 + 1 < Limits.tokens := by decide
  obtain ⟨r, hread, hnext⟩ := (tokenize_tiles_and_resumes .expr " é+1").2.2.2.2 1 name hname hlt
  exact ⟨hname, hlt, hplus, r, hread, hnext plus hplus⟩

end LayeredSyntax
