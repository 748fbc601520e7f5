/-
  STEPS ON A LINE — one step of reading in two texts that agree up to the end of a line.

  A step answers with a kind, a length and the mode for what follows.  Most steps are the same in
  both texts altogether, for nothing that they ask goes past the line feed: whether a parenthesis
  follows a name, whether a directive stands ahead, what closes a reference.  Only white space,
  block comments, values of macros and raw regions can reach behind it, and these are the same
  when they end in front of it.

  **The crux (`scan?_of_alikeFor`)**: a token that ends in front of the line feed is read in the
  other text as well, with the same mode behind it.
-/
import LayeredSyntax.Proofs.Lexicon.LookingAhead

namespace LayeredSyntax

/-! ## Steps -/

variable {n : Nat} {cs ds : List Char}

/-- White space that ends on the line. -/
theorem AlikeFor.readSpace_eq (h : AlikeFor n cs ds) (m : Mode)
    (hle : (readSpace m cs).length ≤ n) : readSpace m ds = readSpace m cs := by
  let belongs := fun c => isSpace c || (!m.newlineIsSignificant && isLineEnd c)
  have hlength : (cs.takeWhile belongs).length ≤ n := hle
  unfold readSpace runLength placeAfterCommand
  dsimp only
  rw [h.takeWhile hlength, h.take hlength, (h.drop hlength).atArgumentEnd_eq]

theorem AlikeFor.readLineComment_eq (h : AlikeFor n cs ds) (m : Mode) :
    readLineComment ds m = readLineComment cs m := by
  unfold readLineComment
  rw [(staysOnLine_lineLength h).1]

theorem AlikeFor.readString_eq [Limits] (h : AlikeFor (n + 1) cs ds) (m : Mode) :
    readString ds m = readString cs m := by
  obtain ⟨hclosing, hle⟩ := h.tail.closeQuote_eq 1
  unfold readString
  simp only [hclosing]
  rw [h.take (by omega)]

/-- A block comment that ends on the line; its mark has two characters. -/
theorem AlikeFor.readBlockComment_eq (h : AlikeFor n cs ds) (m : Mode)
    (hstarts : startsWith "/*" cs = true)
    (hle : (readBlockComment cs m).length ≤ n) : readBlockComment ds m = readBlockComment cs m := by
  have htwo : 2 ≤ n := h.length_le_of_startsWith _ (by decide) hstarts
  unfold readBlockComment at hle ⊢
  cases hclose : closeComment 2 (cs.drop 2) with
  | none =>
    rw [hclose] at hle
    exact absurd h.lt_length (Nat.not_lt.mpr hle)
  | some r =>
    rw [hclose] at hle
    have hr : r ≤ 2 + (n - 2) := by rw [Nat.add_sub_cancel' htwo]; exact hle
    rw [(h.drop htwo).closeComment_eq hclose hr]

/-- A raw region, or the closer of its fence, that ends on the line. -/
theorem AlikeFor.readRaw_eq (h : AlikeFor n cs ds) (m : Mode) (hle : (readRaw m cs).length ≤ n) :
    readRaw m ds = readRaw m cs := by
  unfold readRaw at hle ⊢
  cases hfence : m.fence with
  | none =>
    rw [hfence] at hle
    exact absurd h.lt_length (Nat.not_lt.mpr hle)
  | some fence =>
    rw [hfence] at hle
    dsimp only at hle ⊢
    rw [h.head?]
    split
    · rfl
    · next hopen =>
      rw [if_neg hopen] at hle
      cases hraw : rawLength fence.kind none 0 0 cs with
      | none =>
        rw [hraw] at hle
        exact absurd h.lt_length (Nat.not_lt.mpr hle)
      | some r =>
        rw [hraw] at hle
        rw [h.rawLength_eq hraw (by rw [Nat.zero_add]; exact hle)]

theorem AlikeFor.readWord_eq [Limits] (h : AlikeFor n cs ds) (m : Mode) :
    readWord m ds = readWord m cs := by
  obtain ⟨hname, hle⟩ := staysOnLine_nameLength h
  unfold readWord
  dsimp only
  rw [h.instanceLength?_eq, hname, h.take hle]

theorem AlikeFor.readDollar_eq [Limits] (h : AlikeFor (n + 1) cs ds) (m : Mode) :
    readDollar m ds = readDollar m cs := by
  obtain ⟨hname, hle⟩ := staysOnLine_nameLength h.tail
  unfold readDollar
  rw [h.startsWith_eq "$$$" (by decide), h.startsWith_eq "$$" (by decide)]
  split
  · next hmacro =>
    have hthree : 3 ≤ n + 1 := h.length_le_of_startsWith _ (by decide) hmacro
    rw [(staysOnLine_runLength (by decide) (h.drop hthree)).1]
  · simp only [hname, h.tail.take hle]
    rw [(h.drop (k := nameLength (cs.drop 1) + 1) (by omega)).head?]

theorem AlikeFor.readDot_eq (h : AlikeFor (n + 1) cs ds) (m : Mode) :
    readDot m ds = readDot m cs := by
  unfold readDot
  rw [h.tail.digitAhead_eq, (staysOnLine_digitsLength h.tail).1,
    h.startsWith_eq "..." (by decide), h.startsWith_eq ".." (by decide)]

theorem AlikeFor.readHash_eq (h : AlikeFor (n + 1) cs ds) (m : Mode) :
    readHash m ds = readHash m cs := by
  unfold readHash
  rw [h.startsNoCase_eq "##class" (by decide), h.startsNoCase_eq "##super" (by decide),
    h.startsNoCase_eq "##sql(" (by decide), h.directive?_eq]

theorem AlikeFor.readAmpersand_eq (h : AlikeFor n cs ds) (m : Mode) :
    readAmpersand m ds = readAmpersand m cs := by
  unfold readAmpersand embeddings
  simp only [List.find?_cons, List.find?_nil, h.startsWith_eq "&&" (by decide),
    h.startsNoCase_eq "&sql(" (by decide), h.startsNoCase_eq "&html<" (by decide),
    h.startsNoCase_eq "&js<" (by decide), h.startsNoCase_eq "&xml<" (by decide)]

theorem AlikeFor.readBraceOpen_eq (h : AlikeFor (n + 1) cs ds) (m : Mode) :
    readBraceOpen m ds = readBraceOpen m cs := by
  unfold readBraceOpen
  rw [h.fieldLength?_eq]

theorem AlikeFor.readBracketClose_eq (h : AlikeFor n cs ds) (m : Mode) :
    readBracketClose m ds = readBracketClose m cs := by
  unfold readBracketClose
  rw [h.startsWith_eq "]]" (by decide)]

theorem AlikeFor.readApostrophe_eq (h : AlikeFor (n + 1) cs ds) (m : Mode) :
    readApostrophe m ds = readApostrophe m cs := by
  unfold readApostrophe
  rw [h.tail.startsWith_eq "]]" (by decide)]
  obtain _ | ⟨_, h⟩ := h
  cases h with
  | stop => rfl
  | cons c h => by_cases hc : c = '?' <;> simp [hc]

theorem AlikeFor.readPaired_eq (h : AlikeFor n cs ds) (pair : String) (hpair : '\n' ∉ pair.toList)
    (m : Mode) : readPaired pair m ds = readPaired pair m cs := by
  unfold readPaired
  rw [h.startsWith_eq pair hpair]

theorem AlikeFor.readBar_eq (h : AlikeFor n cs ds) (m : Mode) : readBar m ds = readBar m cs := by
  unfold readBar
  rw [h.startsWith_eq "||" (by decide)]

/-! ## The layers -/

section

variable [Limits]

theorem AlikeFor.readGeneral_eq (h : AlikeFor (n + 1) cs ds) (m : Mode) (c : Char) :
    readGeneral m c ds = readGeneral m c cs := by
  unfold readGeneral
  rw [h.readWord_eq, (staysOnLine_numberLength h).1, h.readDot_eq, h.readString_eq,
    h.readDollar_eq, h.startsWith_eq "^$" (by decide), h.readHash_eq, h.readAmpersand_eq,
    h.readBraceOpen_eq, h.readBracketClose_eq, h.readApostrophe_eq,
    h.readPaired_eq "**" (by decide), h.readPaired_eq "<=" (by decide),
    h.readPaired_eq ">=" (by decide), h.readBar_eq]

theorem AlikeFor.readColumnZero_eq (h : AlikeFor (n + 1) cs ds) (m : Mode) (c : Char) :
    readColumnZero m c ds = readColumnZero m c cs := by
  unfold readColumnZero
  rw [(staysOnLine_runLength (by decide) h.tail).1, h.readGeneral_eq]

theorem AlikeFor.readPattern_eq (h : AlikeFor (n + 1) cs ds) (m : Mode) (c : Char) :
    readPattern m c ds = readPattern m c cs := by
  unfold readPattern
  rw [h.patternRun_eq, h.readGeneral_eq]

theorem AlikeFor.readMacroName_eq (h : AlikeFor n cs ds) (m : Mode) :
    readMacroName m ds = readMacroName m cs := by
  obtain ⟨hname, hle⟩ := staysOnLine_runLength (p := isDefinitionPart) (by decide) h
  unfold readMacroName
  simp only [hname, (h.drop hle).head?]

theorem AlikeFor.readMacroParams_eq (h : AlikeFor n cs ds) (m : Mode) (c : Char) :
    readMacroParams m c ds = readMacroParams m c cs := by
  unfold readMacroParams
  rw [(staysOnLine_nameLength h).1]

end

theorem AlikeFor.readLineEnd_eq (h : AlikeFor n cs ds) (m : Mode) :
    readLineEnd m ds = readLineEnd m cs := by
  have hlength : lineEndLength ds = lineEndLength cs := by
    obtain _ | ⟨c, h⟩ := h
    · rfl
    · obtain _ | ⟨d, h⟩ := h
      · by_cases hc : c = '\r' <;> simp [lineEndLength, hc]
      · by_cases hc : c = '\r' <;> by_cases hd : d = '\n' <;> simp [lineEndLength, hc, hd]
  unfold readLineEnd
  rw [hlength]

theorem AlikeFor.atLineComment_eq (h : AlikeFor n cs ds) (m : Mode) :
    atLineComment m ds = atLineComment m cs := by
  unfold atLineComment
  rw [h.startsWith_eq "//" (by decide), h.startsWith_eq ";" (by decide)]

theorem AlikeFor.atHashComment_eq (h : AlikeFor n cs ds) (m : Mode) :
    atHashComment m ds = atHashComment m cs := by
  unfold atHashComment
  rw [h.startsWith_eq "#;" (by decide), h.startsWith_eq "##;" (by decide)]

/-- Two choices between readings are the same when their branches are, of which only the one that
    is taken has to be short. -/
theorem Reading.ite_eq {b : Prop} [Decidable b] {r r' s s' : Reading}
    (hle : (if b then r else s).length ≤ n) (hthen : b → r.length ≤ n → r' = r)
    (helse : s.length ≤ n → s' = s) : (if b then r' else s') = if b then r else s := by
  by_cases hb : b
  · rw [if_pos hb] at hle
    rw [if_pos hb, if_pos hb]
    exact hthen hb hle
  · rw [if_neg hb] at hle
    rw [if_neg hb, if_neg hb]
    exact helse hle

/-- A step of the code layers that ends on the line. -/
theorem AlikeFor.readCode_eq [Limits] (h : AlikeFor (n + 1) cs ds) (m : Mode) (c : Char)
    (hle : (readCode m c cs).length ≤ n + 1) : readCode m c ds = readCode m c cs := by
  unfold readCode at hle ⊢
  rw [h.readLineEnd_eq, h.atLineComment_eq, h.atHashComment_eq, h.startsWith_eq "/*" (by decide),
    h.readLineComment_eq, h.readColumnZero_eq, h.readGeneral_eq, h.readMacroName_eq,
    h.readMacroParams_eq, h.readPattern_eq]
  refine Reading.ite_eq hle (fun _ hle => ?lineEnd) fun hle => ?_
  case lineEnd => exact Reading.ite_eq hle (fun _ _ => rfl) fun hle => h.readSpace_eq m hle
  refine Reading.ite_eq hle (fun _ hle => h.readSpace_eq m hle) fun hle => ?_
  refine Reading.ite_eq hle (fun _ _ => rfl) fun hle => ?_
  refine Reading.ite_eq hle (fun hblock hle => h.readBlockComment_eq m hblock hle) fun hle => ?_
  refine Reading.ite_eq hle (fun _ _ => rfl) fun hle => ?_
  cases hposition : m.position with
  | macroValue =>
    rw [hposition] at hle
    have hvalue : valueLength [] 0 cs ≤ 0 + (n + 1) := by rwa [Nat.zero_add]
    simp only [h.valueLength_eq [] 0 hvalue]
  | _ => rfl

/-- A step of the class layer that ends on the line. -/
theorem AlikeFor.readClass_eq [Limits] (h : AlikeFor (n + 1) cs ds) (m : Mode) (c : Char)
    (hle : (readClass m c cs).length ≤ n + 1) : readClass m c ds = readClass m c cs := by
  obtain ⟨hname, hnamele⟩ := staysOnLine_classNameLength h
  unfold readClass at hle ⊢
  rw [h.startsWith_eq "///" (by decide), h.startsWith_eq "//" (by decide),
    h.startsWith_eq "/*" (by decide), h.startsWith_eq "..." (by decide), h.readLineComment_eq,
    (staysOnLine_lineLength h).1, (staysOnLine_numberLength h).1, h.readString_eq, hname]
  dsimp only at hle ⊢
  rw [h.take hnamele]
  refine Reading.ite_eq hle (fun _ hle => ?blank) fun hle => ?_
  case blank =>
    have hrun : ds.takeWhile isBlank = cs.takeWhile isBlank := h.takeWhile hle
    unfold runLength
    rw [hrun]
  refine Reading.ite_eq hle (fun _ _ => rfl) fun hle => ?_
  refine Reading.ite_eq hle (fun _ _ => rfl) fun hle => ?_
  exact Reading.ite_eq hle (fun hblock hle => h.readBlockComment_eq m hblock hle) fun _ => rfl

/-- The last touches of a step do not make it shorter. -/
theorem Reading.length_le_settleBlock (r : Reading) :
    r.length ≤ r.atLeastOne.settleBlock.length := by
  have hone : r.length ≤ r.atLeastOne.length := by
    unfold Reading.atLeastOne
    split
    · next h => exact h ▸ Nat.zero_le 1
    · exact Nat.le_refl _
  unfold Reading.settleBlock
  split <;> exact hone

/-- **A token that ends in front of the line feed** is read in the other text as well. -/
theorem scan?_of_alikeFor [Limits] {m : Mode} {r : Reading} (h : AlikeFor n cs ds)
    (hr : scan? m cs = some r) (hle : r.length ≤ n) : scan? m ds = some r := by
  have hpos : 0 < r.length := scan?_length_pos hr
  obtain _ | @⟨n, cs, ds, c, h⟩ := h
  · omega
  have hread : (readLayer m c (c :: cs)).atLeastOne.settleBlock = r := Option.some.inj hr
  have hlayer : (readLayer m c (c :: cs)).length ≤ n + 1 := by
    rw [← hread] at hle
    exact Nat.le_trans (Reading.length_le_settleBlock _) hle
  have hsame : readLayer m c (c :: ds) = readLayer m c (c :: cs) := by
    have hboth := AlikeFor.cons c h
    unfold readLayer at hlayer ⊢
    cases hl : m.layer <;> rw [hl] at hlayer
    · exact hboth.readClass_eq m c hlayer
    · exact hboth.readCode_eq m c hlayer
    · exact hboth.readCode_eq m c hlayer
    · exact hboth.readRaw_eq m hlayer
  show some (readLayer m c (c :: ds)).atLeastOne.settleBlock = some r
  rw [hsame, hread]

end LayeredSyntax
