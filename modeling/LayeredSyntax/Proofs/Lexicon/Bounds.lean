/-
  WITHIN BOUNDS — no step of reading goes past the end of the text, or too deep.

  A step answers with a length and with the mode for what follows.  `Reading.Within` says what is
  true of both, whatever stands ahead: **the length is at most what there is**, and the mode counts
  no more open JSON brackets than the one before it did or than are followed at all.

  1. Every length that a lexeme has is bounded by the characters that it was measured on.
  2. A step that takes one character, or a text that it has seen ahead, is within bounds by that.
  3. The layers only choose between such steps.

  **The crux (`scan?_within`)**: whatever the mode, what is read is a part of the text ahead.
-/
import LayeredSyntax.Proofs.Lexicon.LookingAhead

namespace LayeredSyntax

variable {cs : List Char}

/-! ## Lengths of lexemes -/

theorem runLength_le (belongs : Char → Bool) (cs : List Char) :
    runLength belongs cs ≤ cs.length := (List.takeWhile_sublist _).length_le

theorem nameLength_le (cs : List Char) : nameLength cs ≤ cs.length := by
  cases cs with
  | nil => exact Nat.le_refl 0
  | cons c cs =>
    have hrun := runLength_le isNamePart cs
    rw [nameLength, List.length_cons]
    split <;> omega

theorem fractionLength_le (cs : List Char) : fractionLength cs ≤ cs.length := by
  unfold fractionLength
  split
  · next cs =>
    have hrun := runLength_le Char.isDigit cs
    rw [List.length_cons]
    dsimp only [digitsLength]
    split <;> omega
  · exact Nat.zero_le _

theorem signLength_le (cs : List Char) : signLength cs ≤ cs.length := by
  unfold signLength
  split <;> simp

theorem exponentLength_le (cs : List Char) : exponentLength cs ≤ cs.length := by
  cases cs with
  | nil => exact Nat.le_refl 0
  | cons e cs =>
    have hsign := signLength_le cs
    have hdigits := runLength_le Char.isDigit (cs.drop (signLength cs))
    rw [List.length_drop] at hdigits
    rw [exponentLength, List.length_cons]
    dsimp only [digitsLength]
    split
    · split <;> omega
    · omega

theorem numberLength_le (cs : List Char) : numberLength cs ≤ cs.length := by
  have hwhole := runLength_le Char.isDigit cs
  have hfraction := fractionLength_le (cs.drop (digitsLength cs))
  have hexponent :=
    exponentLength_le (cs.drop (digitsLength cs + fractionLength (cs.drop (digitsLength cs))))
  rw [List.length_drop] at hfraction hexponent
  unfold numberLength
  rw [show runLength Char.isDigit cs = digitsLength cs from rfl] at hwhole
  dsimp only
  omega

theorem lineEndLength_le (c : Char) (cs : List Char) :
    lineEndLength (c :: cs) ≤ (c :: cs).length := by
  unfold lineEndLength
  split
  · next h =>
    rw [h, List.length_cons, List.length_cons]
    omega
  · exact Nat.succ_le_succ (Nat.zero_le _)

theorem closeComment_le {k r : Nat} (h : closeComment k cs = some r) : r ≤ k + cs.length := by
  induction cs generalizing k with
  | nil => cases h
  | cons c cs ih =>
    rw [closeComment_cons] at h
    rw [List.length_cons]
    split at h
    · next hclose =>
      cases h
      have hcs : cs ≠ [] := by rintro rfl; cases hclose.2
      have := List.length_pos_iff.mpr hcs
      omega
    · have := ih h
      omega

theorem closeQuote_le (k : Nat) (cs : List Char) :
    (closeQuote k cs).length ≤ k + cs.length := by
  fun_induction closeQuote k cs <;> simp only [List.length_cons, List.length_nil] <;> omega

theorem rawLength_le {kind : FenceKind} {quote : Option Char} {depth k r : Nat}
    (h : rawLength kind quote depth k cs = some r) : r ≤ k + cs.length := by
  induction cs generalizing quote depth k with
  | nil => cases h
  | cons c cs ih =>
    rw [List.length_cons]
    obtain hend | ⟨quote', depth', hon⟩ := rawLength_cons kind quote depth k c
    · rw [hend] at h
      cases h
      exact Nat.le_add_right _ _
    · rw [hon] at h
      have := ih h
      omega

theorem valueLength_le (passed : List Char) (k : Nat) (cs : List Char) :
    valueLength passed k cs ≤ k + cs.length := by
  fun_induction valueLength passed k cs <;> simp only [List.length_cons, List.length_nil] <;> omega

theorem patternRun_le [Limits] (depth k bytes : Nat) (inside : Bool) (cs : List Char) :
    (patternRun depth k bytes inside cs).length ≤ k + cs.length := by
  fun_induction patternRun depth k bytes inside cs <;>
    simp only [List.length_cons, List.length_nil] at * <;> omega

theorem closeField_le {k r : Nat} (h : closeField k cs = some r) : r ≤ k + cs.length := by
  fun_induction closeField k cs with
  | case1 => cases h
  | case2 => cases h; rw [List.length_cons]; omega
  | case3 k c cs _ _ ih =>
    have := ih h
    rw [List.length_cons]
    omega
  | case4 => cases h

theorem fieldLength?_le {n : Nat} (h : fieldLength? cs = some n) : n ≤ cs.length := by
  cases cs with
  | nil => cases h
  | cons b cs =>
    unfold fieldLength? at h
    rw [List.drop_succ_cons, List.drop_zero] at h
    split at h
    · cases h
      simp
    · split at h
      · have := closeField_le h
        rw [List.length_cons, List.length_cons]
        omega
      · cases h
    · cases h

theorem dottedLength_le (k : Nat) (cs : List Char) : dottedLength k cs ≤ k + cs.length := by
  fun_induction dottedLength k cs <;> simp only [List.length_cons, List.length_nil] <;> omega

theorem classNameLength_le (cs : List Char) : classNameLength cs ≤ cs.length := by
  have hname := nameLength_le cs
  unfold classNameLength
  dsimp only
  split
  · next rest hrest =>
    have hdotted := dottedLength_le 0 ('.' :: rest)
    rw [← hrest, List.length_drop] at hdotted
    rw [← hrest]
    omega
  · exact hname

theorem instanceLength?_le {n : Nat} (h : instanceLength? cs = some n) : n ≤ cs.length := by
  have hname := nameLength_le cs
  unfold instanceLength? at h
  split at h
  · next c rest hrest =>
    split at h
    · cases h
      have hrestname := nameLength_le (c :: rest)
      have hlength := congrArg List.length hrest
      rw [List.length_drop, List.length_cons] at hlength
      omega
    · cases h
  · cases h

/-- A text that was seen ahead is there. -/
theorem length_le_of_startsWith {text : String} (h : startsWith text cs = true) :
    text.length ≤ cs.length := by
  rw [← String.length_toList]
  exact (List.isPrefixOf_iff_prefix.mp h).length_le

theorem length_le_of_startsNoCase {text : String} (h : startsNoCase text cs = true) :
    text.length ≤ cs.length := by
  have hlength := congrArg List.length (beq_iff_eq.mp h)
  rw [List.length_map, List.length_map, List.length_take, String.length_toList] at hlength
  omega

/-! ## Steps -/

/-- **A step within bounds**: it takes no more than there is, and follows no more JSON brackets than
    before or than can be followed. -/
structure Reading.Within (m : Mode) (cs : List Char) (r : Reading) : Prop where
  length_le : r.length ≤ cs.length
  depth_le : r.next.json.depth ≤ max m.json.depth JsonNesting.maxDepth

variable {m : Mode} {r : Reading}

/-- Most steps leave the JSON brackets alone. -/
theorem Reading.Within.of_json (hlength : r.length ≤ cs.length) (hjson : r.next.json = m.json) :
    r.Within m cs := ⟨hlength, hjson ▸ Nat.le_max_left _ _⟩

theorem JsonNesting.depth_pop_le (j : JsonNesting) : j.pop.depth ≤ j.depth := by
  unfold pop
  split
  · exact Nat.le_refl _
  · exact Nat.sub_le _ _

theorem JsonNesting.depth_push?_le {j j' : JsonNesting} {array : Bool}
    (h : j.push? array = some j') : j'.depth ≤ maxDepth := by
  unfold push? at h
  split at h
  · cases h
  · cases h
    show j.depth + 1 ≤ maxDepth
    omega

theorem Mode.json_depth_closeFence_le (m : Mode) (fence : Fence) :
    (m.closeFence fence).json.depth ≤ m.json.depth := by
  unfold closeFence
  dsimp only
  split
  · exact Nat.zero_le _
  · exact Nat.le_refl _

/-! ### The raw layer -/

theorem readRaw_within (m : Mode) (hcs : 0 < cs.length) : (readRaw m cs).Within m cs := by
  unfold readRaw
  cases m.fence with
  | none => exact .of_json (Nat.le_refl _) rfl
  | some fence =>
    dsimp only
    split
    · exact ⟨hcs, Nat.le_trans (m.json_depth_closeFence_le fence) (Nat.le_max_left _ _)⟩
    · split
      · next n hraw => exact .of_json (by simpa using rawLength_le hraw) rfl
      · exact .of_json (Nat.le_refl _) rfl

/-! ### Pieces of both other layers -/

theorem readString_within [Limits] (m : Mode) (hcs : 0 < cs.length) :
    (readString cs m).Within m cs := by
  have hquote := closeQuote_le 1 (cs.drop 1)
  rw [List.length_drop] at hquote
  exact .of_json (show (closeQuote 1 (cs.drop 1)).length ≤ _ by omega) rfl

theorem readLineComment_within (m : Mode) : (readLineComment cs m).Within m cs :=
  .of_json (runLength_le _ _) rfl

theorem readBlockComment_within (m : Mode) (hstarts : startsWith "/*" cs = true) :
    (readBlockComment cs m).Within m cs := by
  have htwo : 2 ≤ cs.length := length_le_of_startsWith hstarts
  unfold readBlockComment
  split
  · next n hclose =>
    have := closeComment_le hclose
    rw [List.length_drop] at this
    exact .of_json (show n ≤ _ by omega) rfl
  · exact .of_json (Nat.le_refl _) rfl

/-! ### The code layers -/

theorem readSpace_within (m : Mode) (cs : List Char) : (readSpace m cs).Within m cs := by
  refine .of_json (runLength_le _ _) ?_
  unfold readSpace
  cases m.position <;> dsimp only
  all_goals first | rfl | (split <;> rfl)

theorem readWord_within [Limits] (m : Mode) (cs : List Char) : (readWord m cs).Within m cs := by
  unfold readWord
  split
  · next n hinstance => exact .of_json (instanceLength?_le hinstance) rfl
  · dsimp only
    split
    · exact .of_json (nameLength_le cs) rfl
    · exact .of_json (nameLength_le cs) rfl

theorem readDollar_within [Limits] (m : Mode) (hcs : 0 < cs.length) :
    (readDollar m cs).Within m cs := by
  unfold readDollar
  dsimp only
  split
  · next hmacro =>
    have hthree : 3 ≤ cs.length := length_le_of_startsWith hmacro
    have hrun := runLength_le isDefinitionPart (cs.drop 3)
    rw [List.length_drop] at hrun
    split
    · exact .of_json hthree rfl
    · exact .of_json (show _ + 3 ≤ cs.length by omega) rfl
  · split
    · next htwo => exact .of_json (length_le_of_startsWith htwo) rfl
    · have hname := nameLength_le (cs.drop 1)
      rw [List.length_drop] at hname
      split
      · exact .of_json hcs rfl
      · exact .of_json (show _ + 1 ≤ cs.length by omega) rfl

theorem readDot_within (m : Mode) (hcs : 0 < cs.length) : (readDot m cs).Within m cs := by
  have hdigits : digitsLength (cs.drop 1) ≤ cs.length - 1 :=
    List.length_drop ▸ runLength_le Char.isDigit (cs.drop 1)
  unfold readDot
  split
  · exact .of_json (show _ + 1 ≤ cs.length by omega) rfl
  · split
    · next hthree => exact .of_json (length_le_of_startsWith hthree) rfl
    · split
      · next htwo => exact .of_json (length_le_of_startsWith htwo) rfl
      · refine .of_json hcs ?_
        dsimp only
        split <;> rfl

theorem length_lt_of_directive? {word : String} (h : directive? m cs = some word) :
    word.length < cs.length := by
  unfold directive? at h
  split at h
  · split at h
    · next c rest hrest =>
      dsimp only at h
      split at h
      · cases h
        have hrun := runLength_le Char.isAlphanum (c :: rest)
        have hlength := congrArg List.length hrest
        rw [List.length_drop] at hlength
        show ((String.ofList ((c :: rest).takeWhile Char.isAlphanum)).map Char.toLower).length < _
        rw [String.length_map, String.length_ofList]
        unfold runLength at hrun
        rw [List.length_cons] at hrun hlength
        omega
      · cases h
    · cases h
  · cases h

theorem readHash_within (m : Mode) (hcs : 0 < cs.length) : (readHash m cs).Within m cs := by
  unfold readHash
  split
  · next hcast =>
    have hseven : 7 ≤ cs.length := by
      rcases Bool.or_eq_true _ _ ▸ hcast with h | h
      · exact length_le_of_startsNoCase h
      · exact length_le_of_startsNoCase h
    exact .of_json hseven rfl
  · split
    · next hsql => exact .of_json (length_le_of_startsNoCase hsql) rfl
    · split
      · next word hword => exact .of_json (length_lt_of_directive? hword) rfl
      · exact .of_json hcs rfl

/-- An operator of two characters is one that was seen ahead. -/
theorem readPaired_within {pair : String} (hpair : pair.length = 2) (m : Mode)
    (hcs : 0 < cs.length) : (readPaired pair m cs).Within m cs := by
  refine .of_json ?_ rfl
  unfold readPaired
  dsimp only
  split
  · next htwo => exact hpair ▸ length_le_of_startsWith htwo
  · exact hcs

theorem readAmpersand_within (m : Mode) (hcs : 0 < cs.length) :
    (readAmpersand m cs).Within m cs := by
  unfold readAmpersand
  split
  · next word kind hfind =>
    have hahead := List.find?_some hfind
    exact .of_json (length_le_of_startsNoCase hahead) rfl
  · exact readPaired_within (show "&&".length = 2 from rfl) m hcs

theorem readJsonOpen_within (m : Mode) (array : Bool) (hcs : 0 < cs.length) :
    (readJsonOpen m array).Within m cs := by
  unfold readJsonOpen
  split
  · next json hpush =>
    exact ⟨hcs, Nat.le_trans (JsonNesting.depth_push?_le hpush) (Nat.le_max_right _ _)⟩
  · exact .of_json hcs rfl

theorem readBraceOpen_within (m : Mode) (hcs : 0 < cs.length) :
    (readBraceOpen m cs).Within m cs := by
  unfold readBraceOpen
  split
  · exact .of_json hcs rfl
  · split
    · split
      · next n hfield => exact .of_json (fieldLength?_le hfield) rfl
      · exact readJsonOpen_within m false hcs
    · exact .of_json hcs rfl

theorem readBraceClose_within (m : Mode) (hcs : 0 < cs.length) :
    (readBraceClose m).Within m cs := by
  refine ⟨hcs, Nat.le_trans ?_ (Nat.le_max_left _ _)⟩
  unfold readBraceClose
  dsimp only
  split
  · exact m.json.depth_pop_le
  · split
    · exact Nat.le_refl _
    · split
      · exact Nat.zero_le _
      · split
        · exact Nat.zero_le _
        · exact Nat.le_refl _

theorem readBracketClose_within (m : Mode) (hcs : 0 < cs.length) :
    (readBracketClose m cs).Within m cs := by
  unfold readBracketClose
  split
  · exact ⟨hcs, Nat.le_trans m.json.depth_pop_le (Nat.le_max_left _ _)⟩
  · exact readPaired_within (show "]]".length = 2 from rfl) m hcs

theorem readApostrophe_within (m : Mode) (hcs : 0 < cs.length) :
    (readApostrophe m cs).Within m cs := by
  unfold readApostrophe
  split
  · split
    · next hpair =>
      have htwo : 2 ≤ (cs.drop 1).length := length_le_of_startsWith hpair
      rw [List.length_drop] at htwo
      exact .of_json (show 3 ≤ cs.length by omega) rfl
    · have hlength := List.length_drop (l := cs) (i := 1)
      split
      · next hrest =>
        rw [hrest, List.length_cons] at hlength
        exact .of_json (show 2 ≤ cs.length by omega) rfl
      · next hrest =>
        rw [hrest, List.length_cons] at hlength
        refine .of_json ?_ rfl
        dsimp only
        split <;> omega
      · exact .of_json hcs rfl
  · exact .of_json hcs rfl

theorem readBar_within (m : Mode) (hcs : 0 < cs.length) : (readBar m cs).Within m cs := by
  unfold readBar
  split
  · next hbars => exact .of_json (length_le_of_startsWith hbars) rfl
  · exact .of_json hcs rfl

section

variable [Limits]

theorem readGeneral_within (m : Mode) (c : Char) (hcs : 0 < cs.length) :
    (readGeneral m c cs).Within m cs := by
  unfold readGeneral
  split
  · exact readWord_within m cs
  · split
    · exact .of_json (numberLength_le cs) rfl
    · split
      · exact readDot_within m hcs
      · exact .of_json (readString_within m.afterOperand hcs).length_le rfl
      · exact readDollar_within m hcs
      · refine .of_json ?_ rfl
        dsimp only
        split
        · next htwo => exact length_le_of_startsWith htwo
        · exact hcs
      · exact readHash_within m hcs
      · exact readAmpersand_within m hcs
      · exact readBraceOpen_within m hcs
      · exact readBraceClose_within m hcs
      · split
        · exact readJsonOpen_within m true hcs
        · exact .of_json hcs rfl
      · exact readBracketClose_within m hcs
      · exact .of_json hcs rfl
      · exact .of_json hcs rfl
      · exact readApostrophe_within m hcs
      · exact .of_json hcs rfl
      · exact readPaired_within rfl m hcs
      · exact readPaired_within rfl m hcs
      · exact readPaired_within rfl m hcs
      · exact readBar_within m hcs
      · split
        · exact .of_json hcs rfl
        · split
          · exact .of_json hcs rfl
          · exact .of_json hcs rfl

theorem readColumnZero_within (m : Mode) (c : Char) (hcs : 0 < cs.length) :
    (readColumnZero m c cs).Within m cs := by
  have hrun := runLength_le isNamePart (cs.drop 1)
  rw [List.length_drop] at hrun
  unfold readColumnZero
  dsimp only
  split
  · exact .of_json (show _ + 1 ≤ cs.length by omega) rfl
  · exact readGeneral_within m c hcs

theorem readPattern_within (m : Mode) (c : Char) (hcs : 0 < cs.length) :
    (readPattern m c cs).Within m cs := by
  have hrun := patternRun_le 0 0 0 false cs
  rw [Nat.zero_add] at hrun
  unfold readPattern
  dsimp only
  split
  · obtain ⟨hlength, hdepth⟩ := readGeneral_within (m.goTo .operand) c hcs
    exact ⟨hlength, hdepth⟩
  · split
    · exact .of_json hrun rfl
    · exact .of_json hrun rfl

theorem readMacroName_within (m : Mode) (hcs : 0 < cs.length) :
    (readMacroName m cs).Within m cs := by
  unfold readMacroName
  dsimp only
  split
  · exact .of_json hcs rfl
  · exact .of_json (runLength_le _ _) rfl

theorem readMacroParams_within (m : Mode) (c : Char) (hcs : 0 < cs.length) :
    (readMacroParams m c cs).Within m cs := by
  unfold readMacroParams
  split
  · exact .of_json hcs rfl
  · split
    · exact .of_json hcs rfl
    · split
      · exact .of_json (nameLength_le cs) rfl
      · exact .of_json hcs rfl

theorem readCode_within (m : Mode) (c : Char) (cs : List Char) :
    (readCode m c (c :: cs)).Within m (c :: cs) := by
  have hcs : 0 < (c :: cs).length := Nat.succ_pos _
  have hvalue := valueLength_le [] 0 (c :: cs)
  rw [Nat.zero_add] at hvalue
  unfold readCode
  split
  · split
    · exact .of_json (lineEndLength_le c cs) rfl
    · exact readSpace_within m _
  · split
    · exact readSpace_within m _
    · split
      · exact readLineComment_within m
      · split
        · next hblock => exact readBlockComment_within m hblock
        · split
          · exact readLineComment_within m
          · split
            · split
              · exact readColumnZero_within m c hcs
              · exact readGeneral_within m c hcs
            · exact readMacroName_within m hcs
            · exact readMacroParams_within m c hcs
            · exact .of_json hvalue rfl
            · exact readPattern_within m c hcs
            · exact readGeneral_within m c hcs

/-! ### The class layer -/

omit [Limits] in
theorem Mode.json_depth_openBrace_le (m : Mode) : m.openBrace.json.depth ≤ m.json.depth := by
  unfold openBrace
  dsimp only
  split
  · exact Nat.zero_le _
  · split
    · exact Nat.zero_le _
    · split
      · exact Nat.zero_le _
      · exact Nat.zero_le _
      · exact Nat.le_refl _
      · exact Nat.le_refl _

theorem readClass_within (m : Mode) (c : Char) (cs : List Char) :
    (readClass m c (c :: cs)).Within m (c :: cs) := by
  have hcs : 0 < (c :: cs).length := Nat.succ_pos _
  unfold readClass
  dsimp only
  split
  · exact .of_json (runLength_le _ _) rfl
  · split
    · exact .of_json (runLength_le _ _) rfl
    · split
      · exact readLineComment_within m
      · split
        · next hblock => exact readBlockComment_within m hblock
        · split
          · exact .of_json (classNameLength_le _) rfl
          · split
            · exact .of_json (numberLength_le _) rfl
            · split
              · exact readString_within m hcs
              · split
                · exact ⟨hcs, Nat.le_trans m.json_depth_openBrace_le (Nat.le_max_left _ _)⟩
                · split
                  · refine .of_json ?_ rfl
                    dsimp only
                    split
                    · next hthree => exact length_le_of_startsWith hthree
                    · exact hcs
                  · split
                    · exact .of_json hcs rfl
                    · split
                      · exact .of_json hcs rfl
                      · exact .of_json hcs rfl

/-! ## Every step -/

theorem readLayer_within (m : Mode) (c : Char) (cs : List Char) :
    (readLayer m c (c :: cs)).Within m (c :: cs) := by
  unfold readLayer
  cases m.layer with
  | raw => exact readRaw_within m (Nat.succ_pos _)
  | udl => exact readClass_within m c cs
  | core => exact readCode_within m c cs
  | expr => exact readCode_within m c cs

end

theorem Reading.Within.atLeastOne (h : r.Within m cs) (hcs : 0 < cs.length) :
    r.atLeastOne.Within m cs := by
  unfold Reading.atLeastOne
  split
  · exact ⟨hcs, h.depth_le⟩
  · exact h

theorem Reading.Within.settleBlock (h : r.Within m cs) : r.settleBlock.Within m cs := by
  unfold Reading.settleBlock
  split
  · exact h
  · exact ⟨h.length_le, h.depth_le⟩

/-- **Whatever is read is a part of the text ahead**, and is followed no deeper than allowed. -/
theorem scan?_within [Limits] (h : scan? m cs = some r) : r.Within m cs := by
  cases cs with
  | nil => cases h
  | cons c cs =>
    cases h
    exact ((readLayer_within m c cs).atLeastOne (Nat.succ_pos _)).settleBlock

end LayeredSyntax
