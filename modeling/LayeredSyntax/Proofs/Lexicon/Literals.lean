/-
  LITERALS — which texts are string literals.

  A string literal stands for a text on one line: a quotation mark, the text with every mark in it
  written twice (`doubled`), and another mark.  Marks are only told apart by the character behind them,
  so a run of marks is read in pairs from the left.

  1. **Pairs of marks are passed** (`closeQuote_doubled`), and the mark behind them closes the literal
     when no other one follows.
  2. **The crux (`exists_doubled`)**: the characters behind an opening mark fall apart into a doubled text
     and what stops it: a mark that is not doubled, the end of the line or that of the text.
  3. Doubling can be undone (`doubled_injective`), so a literal stands for one text only.

  Where a quotation mark begins a string (`Mode.takesStrings`) these are all the strings, and nothing
  else is one (`scan?_string`).
-/
import Mathlib.Data.List.Basic
import LayeredSyntax.Proofs.Lexicon.Bounds
import LayeredSyntax.Proofs.Lexicon.Outcomes

namespace LayeredSyntax

/-! ## Literals -/

/-- A text with every quotation mark written twice. -/
def doubled : List Char → List Char
  | [] => []
  | c :: cs => if c = '"' then '"' :: '"' :: doubled cs else c :: doubled cs

/-- **The literal of a text.** -/
def literal (text : List Char) : List Char := '"' :: (doubled text ++ ['"'])

/-- A text without line ends. -/
def OneLine (text : List Char) : Prop := ∀ c ∈ text, isLineEnd c = false

instance (text : List Char) : Decidable (OneLine text) :=
  List.decidableBAll (fun c => isLineEnd c = false) text

/-- Whether a quotation mark that is not doubled stands in a line behind an opening mark. -/
def HasCloser (line : List Char) : Prop :=
  ∃ text behind, line = doubled text ++ '"' :: behind ∧ behind.head? ≠ some '"'

theorem oneLine_nil : OneLine [] := nofun

theorem oneLine_cons {c : Char} {cs : List Char} :
    OneLine (c :: cs) ↔ isLineEnd c = false ∧ OneLine cs := List.forall_mem_cons

theorem doubled_quote (cs : List Char) : doubled ('"' :: cs) = '"' :: '"' :: doubled cs := if_pos rfl

theorem doubled_cons {c : Char} (hc : c ≠ '"') (cs : List Char) :
    doubled (c :: cs) = c :: doubled cs := if_neg hc

/-- **Doubling can be undone.** -/
theorem doubled_injective {s t : List Char} (h : doubled s = doubled t) : s = t := by
  induction s generalizing t with
  | nil =>
    cases t with
    | nil => rfl
    | cons d t => by_cases hd : d = '"' <;> simp [doubled, hd] at h
  | cons c s ih =>
    cases t with
    | nil => by_cases hc : c = '"' <;> simp [doubled, hc] at h
    | cons d t =>
      by_cases hc : c = '"' <;> by_cases hd : d = '"'
      · simp only [hc, hd, doubled_quote, List.cons.injEq, true_and] at h ⊢
        exact ih h
      · rw [hc, doubled_quote, doubled_cons hd] at h
        exact absurd (List.cons.inj h).1.symm hd
      · rw [hd, doubled_quote, doubled_cons hc] at h
        exact absurd (List.cons.inj h).1 hc
      · rw [doubled_cons hc, doubled_cons hd] at h
        obtain ⟨rfl, htail⟩ := List.cons.inj h
        rw [ih htail]

theorem literal_injective {s t : List Char} (h : literal s = literal t) : s = t :=
  doubled_injective (List.append_cancel_right (List.cons.inj h).2)

theorem length_literal (text : List Char) : (literal text).length = (doubled text).length + 2 := by
  simp [literal]

theorem literal_append (text rest : List Char) :
    literal text ++ rest = '"' :: (doubled text ++ '"' :: rest) := by simp [literal]

/-! ## Looking for the closing mark -/

/-- **Pairs of marks are passed.** -/
theorem closeQuote_doubled {text : List Char} (htext : OneLine text) (n : Nat) (rest : List Char) :
    closeQuote n (doubled text ++ rest) = closeQuote (n + (doubled text).length) rest := by
  induction text generalizing n with
  | nil => rfl
  | cons c text ih =>
    obtain ⟨hc, htext⟩ := oneLine_cons.mp htext
    by_cases hquote : c = '"'
    · rw [hquote, doubled_quote, List.cons_append, List.cons_append, closeQuote, ih htext]
      congr 1
      simp only [List.length_cons]
      omega
    · rw [doubled_cons hquote, List.cons_append, closeQuote_cons, if_neg hquote,
        if_neg (Bool.eq_false_iff.mp hc), ih htext]
      congr 1
      simp only [List.length_cons]
      omega

theorem closeQuote_mark {rest : List Char} (h : rest.head? ≠ some '"') (n : Nat) :
    closeQuote n ('"' :: rest) = ⟨true, n + 1⟩ := by
  rw [closeQuote_cons, if_pos rfl, if_neg h]

theorem closeQuote_stop {rest : List Char} (h : ∀ c ∈ rest.head?, isLineEnd c = true) (n : Nat) :
    closeQuote n rest = ⟨false, n⟩ := by
  cases rest with
  | nil => rfl
  | cons c rest =>
    have hend := h c rfl
    have hquote : c ≠ '"' := by rintro rfl; cases hend
    rw [closeQuote_cons, if_neg hquote, if_pos hend]

/-- **What stands behind an opening mark**: a doubled text, and what stops it. -/
theorem exists_doubled (cs : List Char) : ∃ text rest, cs = doubled text ++ rest ∧ OneLine text ∧
    ((∃ behind, rest = '"' :: behind ∧ behind.head? ≠ some '"') ∨
      ∀ c ∈ rest.head?, isLineEnd c = true) := by
  -- Along the search for the closing mark, which takes pairs of marks at once.
  fun_induction closeQuote 0 cs with
  | case1 =>
    refine ⟨[], [], rfl, oneLine_nil, .inr ?_⟩
    intro c hc
    cases hc
  | case2 n cs ih =>
    obtain ⟨text, rest, rfl, htext, hrest⟩ := ih
    exact ⟨'"' :: text, rest, rfl, oneLine_cons.mpr ⟨rfl, htext⟩, hrest⟩
  | case3 n cs hnot =>
    refine ⟨[], '"' :: cs, rfl, oneLine_nil, .inl ⟨cs, rfl, ?_⟩⟩
    intro hhead
    obtain ⟨cs', hcs⟩ := List.head?_eq_some_iff.mp hhead
    exact hnot cs' rfl hcs
  | case4 n c cs _ hquote hend =>
    refine ⟨[], c :: cs, rfl, oneLine_nil, .inr ?_⟩
    rintro d ⟨⟩
    exact hend
  | case5 n c cs _ hquote hend ih =>
    obtain ⟨text, rest, rfl, htext, hrest⟩ := ih
    refine ⟨c :: text, rest, ?_, oneLine_cons.mpr ⟨Bool.eq_false_iff.mpr hend, htext⟩, hrest⟩
    rw [doubled_cons hquote, List.cons_append]

/-- A line without a closing mark is a doubled text. -/
theorem eq_doubled_of_not_hasCloser {line : List Char} (hline : OneLine line)
    (h : ¬ HasCloser line) : ∃ text, OneLine text ∧ line = doubled text := by
  obtain ⟨text, rest, rfl, htext, ⟨behind, rfl, hbehind⟩ | hrest⟩ := exists_doubled line
  · exact absurd ⟨text, behind, rfl, hbehind⟩ h
  · cases rest with
    | nil => exact ⟨text, htext, List.append_nil _⟩
    | cons c rest =>
      have hc := hline c (List.mem_append_right _ List.mem_cons_self)
      rw [hrest c rfl] at hc
      cases hc

/-! ## Reading literals -/

section

variable {text rest : List Char} (next : Mode)

theorem readString_literal [Limits] (htext : OneLine text) (hrest : rest.head? ≠ some '"') :
    readString (literal text ++ rest) next =
      ⟨if width (literal text) ≤ Limits.stringSize then .string else .error,
        (literal text).length, next⟩ := by
  have hclosing : closeQuote 1 (doubled text ++ '"' :: rest) = ⟨true, (literal text).length⟩ := by
    rw [closeQuote_doubled htext, closeQuote_mark hrest, length_literal]
    congr 1
    omega
  have hdrop : (literal text ++ rest).drop 1 = doubled text ++ '"' :: rest := by
    rw [literal_append, List.drop_succ_cons, List.drop_zero]
  unfold readString
  rw [hdrop, hclosing]
  dsimp only
  rw [List.take_left, Bool.true_and]
  simp only [decide_eq_true_eq]

theorem readString_open [Limits] (htext : OneLine text)
    (hrest : ∀ c ∈ rest.head?, isLineEnd c = true) :
    readString ('"' :: (doubled text ++ rest)) next = ⟨.error, (doubled text).length + 1, next⟩ := by
  unfold readString
  rw [List.drop_succ_cons, List.drop_zero, closeQuote_doubled htext, closeQuote_stop hrest]
  dsimp only
  rw [Bool.false_and, Nat.add_comm]
  rfl

/-- What is read as a string is a literal that fits, and no mark stands behind it. -/
theorem readString_string [Limits] {cs : List Char}
    (h : (readString ('"' :: cs) next).kind = .string) :
    ∃ text rest, '"' :: cs = literal text ++ rest ∧ OneLine text ∧ rest.head? ≠ some '"' ∧
      width (literal text) ≤ Limits.stringSize := by
  obtain ⟨text, rest, rfl, htext, ⟨behind, rfl, hbehind⟩ | hrest⟩ := exists_doubled cs
  · rw [← literal_append, readString_literal next htext hbehind] at h
    refine ⟨text, behind, (literal_append text behind).symm, htext, hbehind, ?_⟩
    by_contra hlarge
    rw [if_neg hlarge] at h
    cases h
  · rw [readString_open next htext hrest] at h
    cases h

end

/-! ## Where literals are read -/

/-- The places of a line where a quotation mark begins a string. -/
def LinePosition.takesStrings : LinePosition → Bool
  | .pattern | .macroName | .macroParams | .macroValue => false
  | _ => true

/-- **Whether a quotation mark begins a string**: everywhere in the class layer and in most places of a
    line of commands. -/
def Mode.takesStrings (m : Mode) : Bool :=
  match m.layer with
  | .raw => false
  | .udl => true
  | .core | .expr => m.position.takesStrings

section

variable {m : Mode}

theorem readRaw_kind_ne_string (m : Mode) (cs : List Char) : (readRaw m cs).kind ≠ .string := by
  unfold readRaw
  split
  · exact nofun
  · split
    · exact nofun
    · split <;> exact nofun

section

variable [Limits]

/-- The run of a pattern never goes back. -/
theorem le_length_patternRun (depth n bytes : Nat) (inside : Bool) (cs : List Char) :
    n ≤ (patternRun depth n bytes inside cs).length := by
  fun_induction patternRun depth n bytes inside cs <;> first | exact Nat.le_refl _ | omega | simp

/-- In the place of a pattern, a quotation mark begins one. -/
theorem readPattern_quote_kind (m : Mode) (cs : List Char) :
    (readPattern m '"' ('"' :: cs)).kind ≠ .string := by
  have hrun : patternRun 0 0 0 false ('"' :: cs) = patternRun 0 1 1 true cs := by
    rw [patternRun_cons]
    rfl
  have hpos := le_length_patternRun 0 1 1 true cs
  unfold readPattern
  rw [hrun, if_neg (by omega)]
  split
  · exact nofun
  · dsimp only
    split <;> exact nofun

theorem readCode_quote (m : Mode) (cs : List Char) : readCode m '"' ('"' :: cs) =
    match m.position with
    | .macroName => ⟨.error, 1, m.goTo .macroValue⟩
    | .macroParams => ⟨.error, 1, m⟩
    | .macroValue => ⟨.rawText, valueLength [] 0 ('"' :: cs), m⟩
    | .pattern => readPattern m '"' ('"' :: cs)
    | _ => readString ('"' :: cs) m.afterOperand := by
  have hline : atLineComment m ('"' :: cs) = false := by
    show (false || (m.layer == .core && false)) = false
    rw [Bool.and_false, Bool.or_false]
  have hhash : atHashComment m ('"' :: cs) = false := Bool.and_false _
  have hblock : startsWith "/*" ('"' :: cs) = false := rfl
  have hstart : (if m.layer = .core then readColumnZero m '"' ('"' :: cs)
      else readGeneral m '"' ('"' :: cs)) = readString ('"' :: cs) m.afterOperand := by
    split <;> rfl
  unfold readCode
  rw [hline, hhash, hblock, hstart]
  cases m.position <;> rfl

theorem readCode_quote_string (h : m.position.takesStrings = true) (cs : List Char) :
    readCode m '"' ('"' :: cs) = readString ('"' :: cs) m.afterOperand := by
  rw [readCode_quote]
  revert h
  cases m.position <;> first | exact fun _ => rfl | exact nofun

theorem readCode_quote_kind (h : m.position.takesStrings = false) (cs : List Char) :
    (readCode m '"' ('"' :: cs)).kind ≠ .string := by
  rw [readCode_quote]
  revert h
  cases m.position <;>
    first
    | exact fun h => Bool.noConfusion h
    | exact fun _ => readPattern_quote_kind m cs
    | exact fun _ => TokenKind.noConfusion

/-- **Where a quotation mark begins a string, a literal is read**, and nowhere else a string. -/
theorem readLayer_quote (m : Mode) (cs : List Char) :
    (m.takesStrings = true → ∃ next, readLayer m '"' ('"' :: cs) = readString ('"' :: cs) next) ∧
      (m.takesStrings = false → (readLayer m '"' ('"' :: cs)).kind ≠ .string) := by
  unfold readLayer Mode.takesStrings
  cases m.layer with
  | raw => exact ⟨nofun, fun _ => readRaw_kind_ne_string m _⟩
  | udl => exact ⟨fun _ => ⟨m, rfl⟩, nofun⟩
  | core => exact ⟨fun h => ⟨_, readCode_quote_string h cs⟩, fun h => readCode_quote_kind h cs⟩
  | expr => exact ⟨fun h => ⟨_, readCode_quote_string h cs⟩, fun h => readCode_quote_kind h cs⟩

/-- A string begins at a quotation mark. -/
theorem readLayer_kind_ne_string {c : Char} (hc : c ≠ '"') (cs : List Char) :
    (readLayer m c (c :: cs)).kind ≠ .string := by
  unfold readLayer
  cases m.layer with
  | raw => exact readRaw_kind_ne_string m _
  | udl => exact (readClass_outcome m cs m.position hc).kind_ne_string
  | core => exact (readCode_outcome m cs hc).kind_ne_string
  | expr => exact (readCode_outcome m cs hc).kind_ne_string

/-! ## Tokens -/

/-- A literal is one token, and a string when it fits. -/
theorem scan?_literal (h : m.takesStrings = true) {text rest : List Char} (htext : OneLine text)
    (hrest : rest.head? ≠ some '"') :
    ∃ next, scan? m (literal text ++ rest) =
      some ⟨if width (literal text) ≤ Limits.stringSize then .string else .error,
        (literal text).length, next⟩ := by
  obtain ⟨next, hlayer⟩ := (readLayer_quote m (doubled text ++ ['"'] ++ rest)).1 h
  have hread := hlayer.trans (readString_literal next htext hrest)
  refine scan?_of_readLayer hread ?_
  rw [length_literal]
  exact Nat.succ_ne_zero _

/-- A literal without closer is an error up to the end of the line. -/
theorem scan?_open (h : m.takesStrings = true) {text rest : List Char} (htext : OneLine text)
    (hrest : ∀ c ∈ rest.head?, isLineEnd c = true) :
    ∃ next, scan? m ('"' :: (doubled text ++ rest)) =
      some ⟨.error, (doubled text).length + 1, next⟩ := by
  obtain ⟨next, hlayer⟩ := (readLayer_quote m (doubled text ++ rest)).1 h
  exact scan?_of_readLayer (hlayer.trans (readString_open next htext hrest)) (Nat.succ_ne_zero _)

/-- **Every string is a literal**, read where literals are. -/
theorem exists_literal_of_string {cs : List Char} {r : Reading} (h : scan? m cs = some r)
    (hkind : r.kind = .string) : m.takesStrings = true ∧ ∃ text rest, cs = literal text ++ rest ∧
      r.length = (literal text).length ∧ OneLine text ∧ rest.head? ≠ some '"' ∧
      width (literal text) ≤ Limits.stringSize := by
  cases cs with
  | nil => cases h
  | cons c cs =>
    obtain ⟨hread, hlength⟩ | ⟨herror, _⟩ := scan?_cases h
    · rw [hkind] at hread
      by_cases hc : c = '"'
      · subst hc
        cases htakes : m.takesStrings with
        | false => exact absurd hread.symm ((readLayer_quote m cs).2 htakes)
        | true =>
          obtain ⟨next, hlayer⟩ := (readLayer_quote m cs).1 htakes
          rw [hlayer] at hread hlength
          obtain ⟨text, rest, hcs, htext, hrest, hfits⟩ := readString_string next hread.symm
          rw [hcs, readString_literal next htext hrest] at hlength
          exact ⟨rfl, text, rest, hcs, hlength, htext, hrest, hfits⟩
      · exact absurd hread.symm (readLayer_kind_ne_string hc cs)
    · rw [hkind] at herror
      cases herror

/-- **Strings are exactly the literals.**  A mode has strings exactly when a quotation mark begins
    one in it and the limit leaves room for the two marks.  Where one does, each literal is one token,
    a string unless it is too large; a string is the literal of one text only; and a literal that its
    line does not close is an error that ends with the line. -/
theorem scan?_string (m : Mode) :
    (m.takesStrings = true ∧ 2 ≤ Limits.stringSize ↔
      ∃ cs r, scan? m cs = some r ∧ r.kind = .string) ∧
    (m.takesStrings = true →
      (∀ text rest, OneLine text → rest.head? ≠ some '"' →
        ∃ next, scan? m (literal text ++ rest) =
          some ⟨if width (literal text) ≤ Limits.stringSize then .string else .error,
            (literal text).length, next⟩) ∧
      (∀ cs r, scan? m cs = some r → r.kind = .string →
        width (cs.take r.length) ≤ Limits.stringSize ∧ (cs.drop r.length).head? ≠ some '"' ∧
          ∃! text, OneLine text ∧ cs.take r.length = literal text) ∧
      (∀ line rest, OneLine line → (∀ c ∈ rest.head?, isLineEnd c = true) → ¬ HasCloser line →
        ∃ next, scan? m ('"' :: (line ++ rest)) = some ⟨.error, line.length + 1, next⟩)) := by
  refine ⟨⟨fun ⟨h, hroom⟩ => ?_, ?_⟩, fun h => ⟨?_, ?_, ?_⟩⟩
  · -- The literal of the empty text is a string.
    obtain ⟨next, hread⟩ := @scan?_literal m _ h [] [] oneLine_nil nofun
    rw [if_pos (show width (literal []) ≤ Limits.stringSize from hroom)] at hread
    exact ⟨_, _, hread, rfl⟩
  · rintro ⟨cs, r, hread, hkind⟩
    obtain ⟨htakes, text, _, _, _, _, _, hfits⟩ := exists_literal_of_string hread hkind
    have hmarks : width (literal text) = 1 + (width (doubled text) + 1) := by
      rw [literal, width_cons, width_append]
      rfl
    exact ⟨htakes, by omega⟩
  · intro text rest htext hrest
    exact scan?_literal h htext hrest
  · intro cs r hread hkind
    obtain ⟨_, text, rest, rfl, hlength, htext, hrest, hfits⟩ := exists_literal_of_string hread hkind
    rw [hlength, List.take_left, List.drop_left]
    refine ⟨hfits, hrest, text, ⟨htext, rfl⟩, ?_⟩
    rintro other ⟨_, hother⟩
    exact (literal_injective hother).symm
  · intro line rest hline hrest hopen
    obtain ⟨text, htext, rfl⟩ := eq_doubled_of_not_hasCloser hline hopen
    exact scan?_open h htext hrest

end

/-- A literal with a doubled mark in it, which stands for one text only, and one that its line does not
    close. -/
theorem scan?_string_doubledMark :
    (∃ next, scan? .expr (literal ['a', '"'] ++ ['+']) = some ⟨.string, 5, next⟩) ∧
    (∃! text, OneLine text ∧ ['"', 'a', '"', '"', '"'] = literal text) ∧
    ∃ next, scan? .expr ('"' :: (['a'] ++ ['\n'])) = some ⟨.error, 2, next⟩ := by
  obtain ⟨hliteral, hstring, hopen⟩ := (scan?_string .expr).2 rfl
  obtain ⟨next, hread⟩ := hliteral ['a', '"'] ['+'] (by decide) (by decide)
  have hfits : width (literal ['a', '"']) ≤ Limits.stringSize := by decide
  rw [if_pos hfits] at hread
  refine ⟨⟨next, hread⟩, (hstring _ _ hread rfl).2.2, ?_⟩
  have hend : ∀ c ∈ ['\n'].head?, isLineEnd c = true := by
    rintro c ⟨⟩
    rfl
  refine hopen ['a'] ['\n'] (by decide) hend ?_
  rintro ⟨text, behind, hline, _⟩
  have hmark : '"' ∈ ['a'] := hline ▸ List.mem_append_right _ List.mem_cons_self
  exact absurd hmark (by decide)

end

end LayeredSyntax
