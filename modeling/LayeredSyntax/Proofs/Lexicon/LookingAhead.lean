/-
  LOOKING AHEAD — how much of the text in front of it the length of a token depends on.

  Most pieces are measured by looking past their end: a point begins a fraction when a digit
  follows, a star ends a comment when a slash does, a mark ends a literal when it is not doubled.
  None of them looks past the end of the line, unless it goes on there itself.

  1. `AlikeFor n cs ds` — two texts agree for `n` characters and on the line feed behind these.
     What comes behind the line feed is arbitrary.
  2. `StaysOnLine` — lengths that the line feed ends whatever stands behind it: names and numbers.
     They are the same in both texts, and at most `n`.  So are literals, patterns and references.
  3. **The crux**: a length that can cross a line — of white space, a block comment, the value of a
     macro, a raw region — is the same in both texts as long as it is at most `n`.  What needs the
     text behind the line feed takes the line feed along (`le_valueLength`, `le_of_rawLength`), and
     is longer than that.
-/
import LayeredSyntax.Lexicon.Scan

namespace LayeredSyntax

/-- **Two texts that agree** for `n` characters and on the line feed behind them. -/
inductive AlikeFor : Nat → List Char → List Char → Prop where
  | stop (cs ds : List Char) : AlikeFor 0 ('\n' :: cs) ('\n' :: ds)
  | cons {n : Nat} {cs ds : List Char} (c : Char) (h : AlikeFor n cs ds) :
      AlikeFor (n + 1) (c :: cs) (c :: ds)

namespace AlikeFor

variable {n k : Nat} {cs ds : List Char}

theorem of_append (u cs ds : List Char) :
    AlikeFor u.length (u ++ '\n' :: cs) (u ++ '\n' :: ds) := by
  induction u with
  | nil => exact .stop cs ds
  | cons c u ih => exact .cons c ih

/-- The line feed is not the last thing that is counted. -/
theorem lt_length (h : AlikeFor n cs ds) : n < cs.length := by
  induction h with
  | stop => simp
  | cons _ _ ih => simp only [List.length_cons]; omega

theorem drop (h : AlikeFor n cs ds) (hk : k ≤ n) : AlikeFor (n - k) (cs.drop k) (ds.drop k) := by
  induction k generalizing n cs ds with
  | zero => exact h
  | succ k ih =>
    cases h with
    | stop => omega
    | @cons n _ _ _ h => simpa using ih h (by omega)

theorem take (h : AlikeFor n cs ds) (hk : k ≤ n) : ds.take k = cs.take k := by
  induction k generalizing n cs ds with
  | zero => rfl
  | succ k ih =>
    cases h with
    | stop => omega
    | cons c h => rw [List.take_succ_cons, List.take_succ_cons, ih h (by omega)]

theorem tail (h : AlikeFor (n + 1) cs ds) : AlikeFor n (cs.drop 1) (ds.drop 1) :=
  h.drop (Nat.le_add_left 1 n)

theorem head? (h : AlikeFor n cs ds) : ds.head? = cs.head? := by cases h <;> rfl

/-! ## Looking for a text -/

theorem startsWith_eq (h : AlikeFor n cs ds) (text : String) (htext : '\n' ∉ text.toList) :
    startsWith text ds = startsWith text cs := by
  unfold startsWith
  generalize text.toList = pattern at htext
  induction pattern generalizing n cs ds with
  | nil => rfl
  | cons a pattern ih =>
    have ha : (a == '\n') = false := beq_false_of_ne fun h => htext (h ▸ List.mem_cons_self)
    cases h with
    | stop => simp only [List.isPrefixOf_cons_cons, ha, Bool.false_and]
    | cons c h =>
      rw [List.isPrefixOf_cons_cons, List.isPrefixOf_cons_cons,
        ih h fun hmem => htext (List.mem_cons_of_mem _ hmem)]

/-- A text that is found has no part behind the line feed. -/
theorem length_le_of_startsWith (h : AlikeFor n cs ds) (text : String)
    (htext : '\n' ∉ text.toList) (hstarts : startsWith text cs = true) :
    text.toList.length ≤ n := by
  unfold startsWith at hstarts
  generalize text.toList = pattern at htext hstarts
  induction pattern generalizing n cs ds with
  | nil => exact Nat.zero_le n
  | cons a pattern ih =>
    cases h with
    | stop =>
      rw [List.isPrefixOf_cons_cons, Bool.and_eq_true, beq_iff_eq] at hstarts
      exact absurd (hstarts.1 ▸ List.mem_cons_self) htext
    | cons c h =>
      rw [List.isPrefixOf_cons_cons, Bool.and_eq_true] at hstarts
      exact Nat.succ_le_succ (ih h (fun hmem => htext (List.mem_cons_of_mem _ hmem)) hstarts.2)

theorem startsNoCase_eq (h : AlikeFor n cs ds) (text : String)
    (htext : '\n' ∉ text.toList.map Char.toLower) :
    startsNoCase text ds = startsNoCase text cs := by
  unfold startsNoCase
  have hlength : text.length = (text.toList.map Char.toLower).length := by
    rw [List.length_map, String.length_toList]
  rw [hlength]
  generalize text.toList.map Char.toLower = pattern at htext
  show ((ds.take pattern.length).map Char.toLower == pattern) =
    ((cs.take pattern.length).map Char.toLower == pattern)
  induction pattern generalizing n cs ds with
  | nil => rfl
  | cons a pattern ih =>
    have ha : ('\n' == a) = false := beq_false_of_ne fun h => htext (h ▸ List.mem_cons_self)
    cases h with
    | stop =>
      have hlower : ('\n').toLower = '\n' := by decide
      simp only [List.length_cons, List.take_succ_cons, List.map_cons, List.cons_beq_cons, hlower,
        ha, Bool.false_and]
    | cons c h =>
      simp only [List.length_cons, List.take_succ_cons, List.map_cons, List.cons_beq_cons]
      rw [ih h fun hmem => htext (List.mem_cons_of_mem _ hmem)]

end AlikeFor

/-! ## Lengths that stay on the line -/

/-- **A length that the end of the line ends**: what stands behind the line feed has no part in
    it. -/
def StaysOnLine (f : List Char → Nat) : Prop :=
  ∀ ⦃n : Nat⦄ ⦃cs ds : List Char⦄, AlikeFor n cs ds → f ds = f cs ∧ f cs ≤ n

theorem AlikeFor.length_takeWhile_le (h : AlikeFor n cs ds) {p : Char → Bool}
    (hp : p '\n' = false) : (cs.takeWhile p).length ≤ n := by
  induction h with
  | stop => simp [hp]
  | cons c h ih =>
    rw [List.takeWhile_cons]
    split
    · rw [List.length_cons]; omega
    · exact Nat.zero_le _

/-- A run that ends on the line is the same in both texts. -/
theorem AlikeFor.takeWhile (h : AlikeFor n cs ds) {p : Char → Bool}
    (hle : (cs.takeWhile p).length ≤ n) : ds.takeWhile p = cs.takeWhile p := by
  induction h with
  | stop =>
    cases hp : p '\n' with
    | false => simp [hp]
    | true => simp [hp] at hle
  | cons c h ih =>
    rw [List.takeWhile_cons] at hle
    rw [List.takeWhile_cons, List.takeWhile_cons]
    split
    · next hp =>
      rw [if_pos hp, List.length_cons] at hle
      rw [ih (by omega)]
    · rfl

theorem staysOnLine_runLength {p : Char → Bool} (hp : p '\n' = false) :
    StaysOnLine (runLength p) := by
  intro n cs ds h
  have hle := h.length_takeWhile_le hp
  unfold runLength
  exact ⟨by rw [h.takeWhile hle], hle⟩

theorem staysOnLine_nameLength : StaysOnLine nameLength := by
  intro n cs ds h
  cases h with
  | stop => exact ⟨rfl, Nat.le_refl 0⟩
  | cons c h =>
    obtain ⟨heq, hle⟩ := staysOnLine_runLength (p := isNamePart) (by decide) h
    simp only [nameLength, heq, true_and]
    split <;> omega

theorem staysOnLine_digitsLength : StaysOnLine digitsLength :=
  staysOnLine_runLength (by decide)

theorem staysOnLine_lineLength : StaysOnLine lineLength :=
  staysOnLine_runLength (by decide)

theorem AlikeFor.digitAhead_eq (h : AlikeFor n cs ds) : digitAhead ds = digitAhead cs := by
  cases h <;> rfl

/-- The fraction and the exponent of a number depend on the mark in front of them. -/
theorem staysOnLine_fractionLength : StaysOnLine fractionLength := by
  intro n cs ds h
  cases h with
  | stop => exact ⟨rfl, Nat.le_refl 0⟩
  | cons c h =>
    by_cases hc : c = '.'
    · subst hc
      obtain ⟨heq, hle⟩ := staysOnLine_digitsLength h
      simp only [fractionLength, h.digitAhead_eq, heq, true_and]
      split <;> omega
    · simp [fractionLength, hc]

theorem staysOnLine_signLength : StaysOnLine signLength := by
  intro n cs ds h
  cases h with
  | stop => exact ⟨rfl, Nat.le_refl 0⟩
  | cons c h =>
    by_cases hplus : c = '+'
    · simp [signLength, hplus]
    · by_cases hminus : c = '-' <;> simp [signLength, hplus, hminus]

theorem staysOnLine_exponentLength : StaysOnLine exponentLength := by
  intro n cs ds h
  cases h with
  | stop => exact ⟨rfl, Nat.le_refl 0⟩
  | @cons n cs ds e h =>
    obtain ⟨hsign, hsignle⟩ := staysOnLine_signLength h
    have hrest := h.drop hsignle
    obtain ⟨hdigits, hdigitsle⟩ := staysOnLine_digitsLength hrest
    simp only [exponentLength, hsign, hrest.digitAhead_eq, hdigits, true_and]
    split
    · split <;> omega
    · omega

theorem staysOnLine_numberLength : StaysOnLine numberLength := by
  intro n cs ds h
  obtain ⟨hwhole, hwholele⟩ := staysOnLine_digitsLength h
  obtain ⟨hfraction, hfractionle⟩ := staysOnLine_fractionLength (h.drop hwholele)
  have hle : digitsLength cs + fractionLength (cs.drop (digitsLength cs)) ≤ n := by omega
  obtain ⟨hexponent, hexponentle⟩ := staysOnLine_exponentLength (h.drop hle)
  unfold numberLength
  simp only [hwhole, hfraction, hexponent, true_and]
  omega

theorem closeQuote_cons (k : Nat) (c : Char) (cs : List Char) :
    closeQuote k (c :: cs) =
      if c = '"' then
        if cs.head? = some '"' then closeQuote (k + 2) (cs.drop 1) else ⟨true, k + 1⟩
      else if isLineEnd c then ⟨false, k⟩ else closeQuote (k + 1) cs := by
  cases cs with
  | nil =>
    by_cases hc : c = '"' <;> simp [closeQuote, hc]
  | cons d cs =>
    by_cases hc : c = '"' <;> by_cases hd : d = '"' <;> simp [closeQuote, hc, hd]

/-- A string literal never crosses the end of a line. -/
theorem AlikeFor.closeQuote_eq (h : AlikeFor n cs ds) (k : Nat) :
    closeQuote k ds = closeQuote k cs ∧ (closeQuote k cs).length ≤ k + n := by
  fun_induction closeQuote k cs generalizing n ds with
  | case1 => cases h
  | case2 k cs ih =>
    obtain _ | ⟨_, _ | ⟨_, h⟩⟩ := h
    obtain ⟨heq, hle⟩ := ih h
    rw [closeQuote]
    exact ⟨heq, by omega⟩
  | case3 k cs hnot =>
    obtain _ | ⟨_, h⟩ := h
    have hhead : cs.head? ≠ some '"' := fun hhead => by
      obtain ⟨cs', hcs⟩ := List.head?_eq_some_iff.mp hhead
      exact hnot cs' rfl hcs
    rw [closeQuote_cons, h.head?, if_pos rfl, if_neg hhead]
    exact ⟨rfl, by show k + 1 ≤ _; omega⟩
  | case4 k c cs hnot hc hend =>
    refine ⟨?_, Nat.le_add_right k n⟩
    obtain _ | ⟨_, h⟩ := h <;> rw [closeQuote_cons, if_neg hc, if_pos hend]
  | case5 k c cs hnot hc hend ih =>
    obtain _ | ⟨_, h⟩ := h
    · exact absurd rfl hend
    · obtain ⟨heq, hle⟩ := ih h
      rw [closeQuote_cons, if_neg hc, if_neg hend]
      exact ⟨heq, by omega⟩

theorem patternRun_cons [Limits] (depth k bytes : Nat) (inside : Bool) (c : Char) (cs : List Char) :
    patternRun depth k bytes inside (c :: cs) =
      if inside then
        if c = '"' then
          if cs.head? = some '"' then patternRun depth (k + 2) (bytes + 2) true (cs.drop 1)
          else if Limits.stringSize < bytes + 1 then ⟨k + 1, depth, true⟩
          else patternRun depth (k + 1) (bytes + 1) false cs
        else if isLineEnd c then ⟨k, depth, true⟩
        else patternRun depth (k + 1) (bytes + c.utf8Size) true cs
      else if c.isDigit || c == '.' || isPatternCode c then
        patternRun depth (k + 1) (bytes + 1) false cs
      else if c = '"' then patternRun depth (k + 1) (bytes + 1) true cs
      else if c = '(' then patternRun (depth + 1) (k + 1) (bytes + 1) false cs
      else if c = ',' && depth != 0 then patternRun depth (k + 1) (bytes + 1) false cs
      else if c = ')' && depth != 0 then patternRun (depth - 1) (k + 1) (bytes + 1) false cs
      else ⟨k, depth, false⟩ := by
  rw [patternRun.eq_def]
  dsimp only
  congr 1
  split
  · split
    · next cs => rfl
    · next hnot =>
      have hhead : cs.head? ≠ some '"' := fun hhead => by
        obtain ⟨cs', hcs⟩ := List.head?_eq_some_iff.mp hhead
        exact hnot cs' hcs
      rw [if_neg hhead]
  · rfl

/-- Neither does a pattern. -/
theorem AlikeFor.patternRun_eq [Limits] (h : AlikeFor n cs ds) (depth k bytes : Nat)
    (inside : Bool) : patternRun depth k bytes inside ds = patternRun depth k bytes inside cs := by
  induction n using Nat.strongRecOn generalizing cs ds depth k bytes inside with
  | ind n ih =>
    cases h with
    | stop => 
      rw [patternRun_cons, patternRun_cons]
      cases inside <;> rfl
    | @cons n cs ds c h =>
      have hone := ih n (Nat.lt_succ_self n) h
      rw [patternRun_cons, patternRun_cons, h.head?]
      simp only [hone]
      by_cases hhead : cs.head? = some '"'
      · obtain _ | @⟨n, _, _, _, h⟩ := h
        · cases hhead
        · have htwo := ih n (by omega) h
          simp only [List.drop_succ_cons, List.drop_zero, htwo]
      · simp only [hhead, if_false]

/-- Nor a reference to a field. -/
theorem AlikeFor.closeField_eq (h : AlikeFor n cs ds) (k : Nat) :
    closeField k ds = closeField k cs := by
  induction h generalizing k with
  | stop => rfl
  | cons c _ ih => rw [closeField, closeField, ih]

theorem fieldLength?_cons (b c : Char) (cs : List Char) :
    fieldLength? (b :: c :: cs) =
      if c = '*' then if cs.head? = some '}' then some 3 else none
      else if isNameStart c then closeField 2 cs else none := by
  by_cases hc : c = '*'
  · subst hc
    cases cs with
    | nil => rfl
    | cons d cs =>
      have hname : isNameStart '*' = false := by decide
      by_cases hd : d = '}' <;> simp [fieldLength?, hd, hname]
  · simp [fieldLength?, hc]

theorem AlikeFor.fieldLength?_eq (h : AlikeFor (n + 1) cs ds) :
    fieldLength? ds = fieldLength? cs := by
  obtain _ | ⟨b, h⟩ := h
  obtain _ | ⟨c, h⟩ := h
  · rfl
  · rw [fieldLength?_cons, fieldLength?_cons, h.head?, h.closeField_eq]

/-! ## Names in several parts -/

theorem dottedLength_cons (k : Nat) (c : Char) (cs : List Char) :
    dottedLength k (c :: cs) =
      if c = '.' then if cs.head?.any isDefinitionPart then dottedLength (k + 2) (cs.drop 1) else k
      else if isDefinitionPart c then dottedLength (k + 1) cs else k := by
  by_cases hc : c = '.'
  · subst hc
    cases cs with
    | nil => rfl
    | cons d cs => simp [dottedLength]
  · cases cs <;> simp [dottedLength, hc]

theorem AlikeFor.dottedLength_eq (h : AlikeFor n cs ds) (k : Nat) :
    dottedLength k ds = dottedLength k cs ∧ dottedLength k cs ≤ k + n := by
  induction n using Nat.strongRecOn generalizing cs ds k with
  | ind n ih =>
    cases h with
    | stop =>
      rw [dottedLength_cons, dottedLength_cons]
      exact ⟨rfl, Nat.le_refl k⟩
    | @cons n cs ds c h =>
      rw [dottedLength_cons, dottedLength_cons, h.head?]
      split
      · split
        · next hpart =>
          obtain _ | @⟨n, cs, ds, d, h⟩ := h
          · have hend : isDefinitionPart '\n' = false := by decide
            simp [hend] at hpart
          · obtain ⟨heq, hle⟩ := ih n (by omega) h (k + 2)
            exact ⟨heq, by simp only [List.drop_succ_cons, List.drop_zero]; omega⟩
        · exact ⟨rfl, Nat.le_add_right k _⟩
      · split
        · obtain ⟨heq, hle⟩ := ih n (Nat.lt_succ_self n) h (k + 1)
          exact ⟨heq, by omega⟩
        · exact ⟨rfl, Nat.le_add_right k _⟩

theorem staysOnLine_classNameLength : StaysOnLine classNameLength := by
  intro n cs ds h
  obtain ⟨hname, hle⟩ := staysOnLine_nameLength h
  have hrest := h.drop hle
  unfold classNameLength
  rw [hname]
  dsimp only
  generalize cs.drop (nameLength cs) = cs' at hrest ⊢
  generalize ds.drop (nameLength cs) = ds' at hrest ⊢
  generalize hk : n - nameLength cs = k at hrest
  cases hrest with
  | stop => exact ⟨rfl, hle⟩
  | @cons k cs' ds' c hrest =>
    by_cases hc : c = '.'
    · subst hc
      obtain ⟨heq, hlength⟩ := (AlikeFor.cons '.' hrest).dottedLength_eq 0
      exact ⟨by simp only [heq], by simp only; omega⟩
    · simpa [hc] using hle

theorem AlikeFor.instanceLength?_eq (h : AlikeFor n cs ds) :
    instanceLength? ds = instanceLength? cs := by
  obtain ⟨hname, hle⟩ := staysOnLine_nameLength h
  have hrest := h.drop hle
  unfold instanceLength?
  rw [hname, h.take hle]
  generalize cs.drop (nameLength cs) = cs' at hrest ⊢
  generalize ds.drop (nameLength cs) = ds' at hrest ⊢
  generalize n - nameLength cs = k at hrest
  cases hrest with
  | stop => rfl
  | cons a hrest =>
    by_cases ha : a = '%'
    · subst ha
      cases hrest with
      | stop =>
        have hend : isNameStart '\n' = false := by decide
        simp only [hend, Bool.and_false, Bool.false_eq_true, if_false]
      | cons c hrest => simp only [(staysOnLine_nameLength (.cons c hrest)).1]
    · simp [ha]

theorem AlikeFor.directive?_eq (h : AlikeFor (n + 1) cs ds) (m : Mode) :
    directive? m ds = directive? m cs := by
  obtain _ | ⟨b, h⟩ := h
  have hword := h.takeWhile (h.length_takeWhile_le (p := Char.isAlphanum) (by decide))
  unfold directive?
  cases h with
  | stop => rfl
  | cons c h => simp only [List.drop_succ_cons, List.drop_zero, hword]

theorem AlikeFor.atArgumentEnd_eq (h : AlikeFor n cs ds) :
    atArgumentEnd ds = atArgumentEnd cs := by
  have hslashes := h.startsWith_eq "//" (by decide)
  have hstar := h.startsWith_eq "/*" (by decide)
  have hhash := h.startsWith_eq "#;" (by decide)
  cases h with
  | stop => rfl
  | cons c h => simp only [atArgumentEnd, hslashes, hstar, hhash]

/-! ## Lengths that can cross a line -/

theorem closeComment_cons (k : Nat) (c : Char) (cs : List Char) :
    closeComment k (c :: cs) =
      if c = '*' ∧ cs.head? = some '/' then some (k + 2) else closeComment (k + 1) cs := by
  by_cases hc : c = '*'
  · cases cs with
    | nil => simp [closeComment]
    | cons d cs => by_cases hd : d = '/' <;> simp [closeComment, hc, hd]
  · simp [closeComment, hc]

theorem le_of_closeComment {k r : Nat} (h : closeComment k cs = some r) : k < r := by
  induction cs generalizing k with
  | nil => cases h
  | cons c cs ih =>
    rw [closeComment_cons] at h
    split at h
    · cases h; omega
    · exact Nat.lt_of_succ_lt (ih h)

theorem AlikeFor.closeComment_eq (h : AlikeFor n cs ds) {k r : Nat}
    (hr : closeComment k cs = some r) (hle : r ≤ k + n) : closeComment k ds = some r := by
  induction h generalizing k with
  | stop =>
    have := le_of_closeComment hr
    omega
  | cons c h ih =>
    rw [closeComment_cons] at hr
    rw [closeComment_cons, h.head?]
    split
    · next hclose => rwa [if_pos hclose] at hr
    · next hopen =>
      rw [if_neg hopen] at hr
      exact ih hr (by omega)

/-- A raw region either ends in front of a character or goes on behind it. -/
theorem rawLength_cons (kind : FenceKind) (quote : Option Char) (depth k : Nat) (c : Char) :
    (∀ cs, rawLength kind quote depth k (c :: cs) = some k) ∨
      ∃ quote' depth', ∀ cs, rawLength kind quote depth k (c :: cs) =
        rawLength kind quote' depth' (k + 1) cs := by
  cases quote with
  | some mark => exact .inr ⟨_, _, fun cs => by rw [rawLength]⟩
  | none =>
    by_cases hquote : kind.quotes c
    · exact .inr ⟨_, _, fun cs => by rw [rawLength.eq_def]; exact if_pos hquote⟩
    · by_cases hclose : c = kind.closer
      · cases depth with
        | zero => exact .inl fun cs => by rw [rawLength, if_neg hquote, if_pos hclose]
        | succ depth =>
          exact .inr ⟨_, _, fun cs => by rw [rawLength, if_neg hquote, if_pos hclose]⟩
      · refine .inr ⟨none, if c = kind.opener then depth + 1 else depth, fun cs => ?_⟩
        rw [rawLength.eq_def]
        dsimp only
        rw [if_neg hquote, if_neg hclose]
        split <;> rfl

theorem le_of_rawLength {kind : FenceKind} {quote : Option Char} {depth k r : Nat}
    (h : rawLength kind quote depth k cs = some r) : k ≤ r := by
  induction cs generalizing quote depth k with
  | nil => cases h
  | cons c cs ih =>
    obtain hend | ⟨quote', depth', hon⟩ := rawLength_cons kind quote depth k c
    · rw [hend] at h
      cases h
      exact Nat.le_refl _
    · rw [hon] at h
      exact Nat.le_of_succ_le (ih h)

theorem AlikeFor.rawLength_eq (h : AlikeFor n cs ds) {kind : FenceKind} {quote : Option Char}
    {depth k r : Nat} (hr : rawLength kind quote depth k cs = some r) (hle : r ≤ k + n) :
    rawLength kind quote depth k ds = some r := by
  induction h generalizing quote depth k with
  | stop =>
    obtain hend | ⟨quote', depth', hon⟩ := rawLength_cons kind quote depth k '\n'
    · rw [hend] at hr ⊢
      exact hr
    · rw [hon] at hr
      have := le_of_rawLength hr
      omega
  | cons c h ih =>
    obtain hend | ⟨quote', depth', hon⟩ := rawLength_cons kind quote depth k c
    · rw [hend] at hr ⊢
      exact hr
    · rw [hon] at hr ⊢
      exact ih hr (by omega)

theorem valueLength_cons (passed : List Char) (k : Nat) (c : Char) (cs : List Char) :
    valueLength passed k (c :: cs) =
      if c = '\r' ∧ cs.head? = some '\n' then
        if asksToContinue passed then valueLength ('\n' :: '\r' :: passed) (k + 2) (cs.drop 1)
        else k
      else if isLineEnd c then
        if asksToContinue passed then valueLength (c :: passed) (k + 1) cs else k
      else valueLength (c :: passed) (k + 1) cs := by
  by_cases hc : c = '\r'
  · cases cs with
    | nil => simp [valueLength]
    | cons d cs => by_cases hd : d = '\n' <;> simp [valueLength, hc, hd]
  · simp [valueLength, hc]

theorem valueLength_newline (passed : List Char) (k : Nat) (cs : List Char) :
    valueLength passed k ('\n' :: cs) =
      if asksToContinue passed then valueLength ('\n' :: passed) (k + 1) cs else k := by
  have hpair : ¬('\n' = '\r' ∧ cs.head? = some '\n') := fun h => absurd h.1 (by decide)
  have hend : isLineEnd '\n' = true := rfl
  rw [valueLength_cons, if_neg hpair, if_pos hend]

theorem le_valueLength (passed : List Char) (k : Nat) (cs : List Char) :
    k ≤ valueLength passed k cs := by
  fun_induction valueLength passed k cs <;> omega

/-- The value of a macro either ends in front of a character, or goes on behind it, or goes on
    behind the line end that it is a part of. -/
theorem valueLength_step (passed : List Char) (k : Nat) (c : Char) (next : Option Char) :
    (∀ cs : List Char, cs.head? = next → valueLength passed k (c :: cs) = k) ∨
      (∃ passed', ∀ cs : List Char, cs.head? = next →
        valueLength passed k (c :: cs) = valueLength passed' (k + 1) cs) ∨
      ∃ d passed', next = some d ∧ ∀ cs : List Char,
        valueLength passed k (c :: d :: cs) = valueLength passed' (k + 2) cs := by
  by_cases hpair : c = '\r' ∧ next = some '\n'
  · obtain ⟨rfl, rfl⟩ := hpair
    by_cases hasks : asksToContinue passed
    · exact .inr (.inr ⟨'\n', _, rfl, fun cs => by rw [valueLength, if_pos hasks]⟩)
    · refine .inl fun cs hcs => ?_
      rw [valueLength_cons, if_pos ⟨rfl, hcs⟩, if_neg hasks]
  · by_cases hends : isLineEnd c ∧ ¬asksToContinue passed
    · refine .inl fun cs hcs => ?_
      rw [valueLength_cons, hcs, if_neg hpair, if_pos hends.1, if_neg hends.2]
    · refine .inr (.inl ⟨c :: passed, fun cs hcs => ?_⟩)
      rw [valueLength_cons, hcs, if_neg hpair]
      by_cases hend : isLineEnd c
      · rw [if_pos hend, if_pos (Decidable.not_not.mp fun hasks => hends ⟨hend, hasks⟩)]
      · rw [if_neg hend]

theorem AlikeFor.valueLength_eq (h : AlikeFor n cs ds) (passed : List Char) (k : Nat)
    (hle : valueLength passed k cs ≤ k + n) :
    valueLength passed k ds = valueLength passed k cs := by
  induction n using Nat.strongRecOn generalizing cs ds passed k with
  | ind n ih =>
    cases h with
    | stop cs ds =>
      rw [valueLength_newline] at hle
      rw [valueLength_newline, valueLength_newline]
      split
      · next hasks =>
        rw [if_pos hasks] at hle
        have := le_valueLength ('\n' :: passed) (k + 1) cs
        omega
      · rfl
    | @cons n cs ds c h =>
      obtain hend | ⟨passed', hone⟩ | ⟨d, passed', hnext, htwo⟩ :=
        valueLength_step passed k c cs.head?
      · rw [hend cs rfl, hend ds h.head?]
      · rw [hone cs rfl] at hle ⊢
        rw [hone ds h.head?]
        exact ih n (Nat.lt_succ_self n) h _ _ (by omega)
      · cases h with
        | stop cs ds =>
          cases hnext
          rw [htwo] at hle
          have := le_valueLength passed' (k + 2) cs
          omega
        | @cons n cs ds _ h =>
          cases hnext
          rw [htwo] at hle ⊢
          rw [htwo]
          exact ih n (by omega) h _ _ (by omega)

end LayeredSyntax
