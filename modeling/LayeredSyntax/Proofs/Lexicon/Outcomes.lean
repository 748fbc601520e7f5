/-
  OUTCOMES — how a step can end that does not begin at a quotation mark.

  There are many branches in which a step answers with an error, but few reasons to do so.
  `Reading.Outcome` lists them: a name can be too long, a block comment can be without closer, a pattern
  can break off, a character or a sign can mean nothing.  All other steps read something, and what they
  read is no string.

  A token is what the step has read (`scan?_cases`), or one character when it could not take any.

  **So a string is only read where a quotation mark stands ahead** (`Outcome.kind_ne_string`).  What a step
  does in front of a quotation mark is said elsewhere, and so is the raw layer, where only the fence
  counts.
-/
import LayeredSyntax.Proofs.Lexicon.LookingAhead

namespace LayeredSyntax

variable [Limits]

/-- **How a step ends** at a place of the line, in front of a character that is no quotation mark. -/
inductive Reading.Outcome (place : LinePosition) (cs : List Char) (r : Reading) : Prop
  /-- Something that cannot fail. -/
  | reads (herror : r.kind ≠ .error) (hstring : r.kind ≠ .string)
  /-- A name, which can be too long. -/
  | names (kind : TokenKind) (herror : kind ≠ .error) (hstring : kind ≠ .string)
      (hhead : cs.head? ≠ some '/') (hkind : r.kind = nameOr kind r.length)
  /-- A block comment, which can be without closer. -/
  | comments (hahead : startsWith "/*" cs = true) (hstring : r.kind ≠ .string)
      (hopen : r.kind = .error → closeComment 2 (cs.drop 2) = none ∧ r.length = cs.length)
  /-- A pattern, which can break off. -/
  | patterns (hplace : place = .pattern) (hstring : r.kind ≠ .string)
  /-- A character that means nothing here. -/
  | refuses (hkind : r.kind = .error) (hlength : r.length = 1)
  /-- The sign of a macro without a name. -/
  | nameless (hkind : r.kind = .error) (hlength : r.length = 3)
      (hahead : startsWith "$$$" cs = true)

theorem nameOr_ne {kind other : TokenKind} {n : Nat} (hkind : kind ≠ other) (herror : other ≠ .error) :
    nameOr kind n ≠ other := by
  unfold nameOr
  split
  · exact Ne.symm herror
  · exact hkind

namespace Reading.Outcome

variable {place : LinePosition} {c : Char} {cs : List Char} {r : Reading}

theorem of_reads {kind : TokenKind} {n : Nat} {next : Mode} (herror : kind ≠ .error)
    (hstring : kind ≠ .string) : Outcome place cs ⟨kind, n, next⟩ :=
  .reads herror hstring

theorem of_name {kind : TokenKind} {n : Nat} {next : Mode} (herror : kind ≠ .error)
    (hstring : kind ≠ .string) (hc : c ≠ '/') : Outcome place (c :: cs) ⟨nameOr kind n, n, next⟩ :=
  .names kind herror hstring (fun h => hc (Option.some.inj h)) rfl

theorem of_comment {next : Mode} (hahead : startsWith "/*" cs = true) :
    Outcome place cs (readBlockComment cs next) := by
  refine .comments hahead ?_ ?_ <;> unfold readBlockComment <;> split
  · exact nofun
  · exact nofun
  · exact nofun
  · next hopen => exact fun _ => ⟨hopen, rfl⟩

/-- Only what is read and how much of it matters. -/
theorem congr {r' : Reading} (h : Outcome place cs r) (hkind : r'.kind = r.kind)
    (hlength : r'.length = r.length) : Outcome place cs r' := by
  cases h with
  | reads herror hstring => exact .reads (hkind ▸ herror) (hkind ▸ hstring)
  | names kind herror hstring hhead hname =>
    exact .names kind herror hstring hhead (by rw [hkind, hlength, hname])
  | comments hahead hstring hopen =>
    exact .comments hahead (hkind ▸ hstring) fun h => hlength ▸ hopen (hkind ▸ h)
  | patterns hplace hstring => exact .patterns hplace (hkind ▸ hstring)
  | refuses hk hl => exact .refuses (hkind.trans hk) (hlength.trans hl)
  | nameless hk hl hahead => exact .nameless (hkind.trans hk) (hlength.trans hl) hahead

/-- A step without a string at its beginning reads none. -/
theorem kind_ne_string (h : Outcome place cs r) : r.kind ≠ .string := by
  cases h with
  | reads _ hstring => exact hstring
  | names kind _ hstring _ hkind => exact hkind ▸ nameOr_ne hstring nofun
  | comments _ hstring _ => exact hstring
  | patterns _ hstring => exact hstring
  | refuses hkind _ => exact hkind ▸ nofun
  | nameless hkind _ _ => exact hkind ▸ nofun

end Reading.Outcome

/-! ## The code layers -/

section

open Reading

variable {place : LinePosition} (m : Mode) {c : Char} (cs : List Char)

omit [Limits] in
theorem ne_slash_of_isNameStart (hc : isNameStart c = true) : c ≠ '/' := by
  rintro rfl
  revert hc
  decide

theorem readWord_outcome (hc : c ≠ '/') : Outcome place (c :: cs) (readWord m (c :: cs)) := by
  unfold readWord
  split
  · exact .of_name nofun nofun hc
  · dsimp only
    split
    · exact .of_reads nofun nofun
    · exact .of_name nofun nofun hc

theorem readDollar_outcome : Outcome place ('$' :: cs) (readDollar m ('$' :: cs)) := by
  have hsign : '$' ≠ '/' := by decide
  unfold readDollar
  dsimp only
  split
  · next hahead =>
    split
    · exact .nameless rfl rfl hahead
    · exact .of_name nofun nofun hsign
  · split
    · exact .of_reads nofun nofun
    · split
      · exact .refuses rfl rfl
      · split
        · exact .of_reads nofun nofun
        · split
          · exact .of_reads nofun nofun
          · exact .of_name nofun nofun hsign

theorem readDot_outcome : Outcome place cs (readDot m cs) := by
  unfold readDot
  repeat' split
  all_goals exact .of_reads nofun nofun

theorem readHash_outcome : Outcome place cs (readHash m cs) := by
  unfold readHash
  repeat' split
  all_goals exact .of_reads nofun nofun

theorem readAmpersand_outcome : Outcome place cs (readAmpersand m cs) := by
  unfold readAmpersand
  split <;> exact .of_reads nofun nofun

theorem readJsonOpen_outcome (array : Bool) : Outcome place cs (readJsonOpen m array) := by
  unfold readJsonOpen
  split
  · exact .of_reads nofun nofun
  · exact .refuses rfl rfl

theorem readBraceOpen_outcome : Outcome place cs (readBraceOpen m cs) := by
  unfold readBraceOpen
  split
  · exact .of_reads nofun nofun
  · split
    · split
      · exact .of_reads nofun nofun
      · exact readJsonOpen_outcome m cs false
    · exact .of_reads nofun nofun

theorem readBracketClose_outcome : Outcome place cs (readBracketClose m cs) := by
  unfold readBracketClose
  split <;> exact .of_reads nofun nofun

theorem readApostrophe_outcome : Outcome place cs (readApostrophe m cs) := by
  unfold readApostrophe
  repeat' split
  all_goals exact .of_reads nofun nofun

theorem readBar_outcome : Outcome place cs (readBar m cs) := by
  unfold readBar
  split
  · exact .of_reads nofun nofun
  · exact .refuses rfl rfl

theorem readGeneral_outcome (hc : c ≠ '"') : Outcome place (c :: cs) (readGeneral m c (c :: cs)) := by
  unfold readGeneral
  split
  · next hname => exact readWord_outcome m cs (ne_slash_of_isNameStart hname)
  · split
    · exact .of_reads nofun nofun
    · split
      · exact readDot_outcome m _
      · exact absurd rfl hc
      · exact readDollar_outcome m cs
      · exact .of_reads nofun nofun
      · exact readHash_outcome m _
      · exact readAmpersand_outcome m _
      · exact readBraceOpen_outcome m _
      · exact .of_reads nofun nofun
      · split
        · exact readJsonOpen_outcome m _ true
        · exact .of_reads nofun nofun
      · exact readBracketClose_outcome m _
      · exact .of_reads nofun nofun
      · exact .of_reads nofun nofun
      · exact readApostrophe_outcome m _
      · exact .of_reads nofun nofun
      · exact .of_reads nofun nofun
      · exact .of_reads nofun nofun
      · exact .of_reads nofun nofun
      · exact readBar_outcome m _
      · split
        · exact .of_reads nofun nofun
        · split
          · exact .of_reads nofun nofun
          · exact .refuses rfl rfl

theorem readColumnZero_outcome (hc : c ≠ '"') :
    Outcome place (c :: cs) (readColumnZero m c (c :: cs)) := by
  unfold readColumnZero
  dsimp only
  split
  · next hlabel =>
    refine .of_name nofun nofun ?_
    rintro rfl
    revert hlabel
    decide
  · exact readGeneral_outcome m cs hc

theorem readPattern_outcome (hplace : place = .pattern) (hc : c ≠ '"') :
    Outcome place (c :: cs) (readPattern m c (c :: cs)) := by
  unfold readPattern
  dsimp only
  split
  · exact readGeneral_outcome _ cs hc
  · refine .patterns hplace ?_
    split
    · exact nofun
    · dsimp only
      split <;> exact nofun

theorem readMacroName_outcome : Outcome place (c :: cs) (readMacroName m (c :: cs)) := by
  unfold readMacroName
  dsimp only
  split
  · exact .refuses rfl rfl
  · next hlength =>
    refine .of_name nofun nofun ?_
    rintro rfl
    exact hlength (congrArg List.length (List.takeWhile_cons_of_neg (by decide)))

theorem readMacroParams_outcome : Outcome place (c :: cs) (readMacroParams m c (c :: cs)) := by
  unfold readMacroParams
  split
  · exact .of_reads nofun nofun
  · split
    · exact .of_reads nofun nofun
    · split
      · next hname => exact .of_name nofun nofun (ne_slash_of_isNameStart hname)
      · exact .refuses rfl rfl

/-- **The outcomes of the code layers.** -/
theorem readCode_outcome (hc : c ≠ '"') : Outcome m.position (c :: cs) (readCode m c (c :: cs)) := by
  unfold readCode
  split
  · split
    · exact .of_reads nofun nofun
    · exact .of_reads nofun nofun
  · split
    · exact .of_reads nofun nofun
    · split
      · exact .of_reads nofun nofun
      · split
        · next hahead => exact .of_comment hahead
        · split
          · exact .of_reads nofun nofun
          · split
            · split
              · exact readColumnZero_outcome m cs hc
              · exact readGeneral_outcome m cs hc
            · exact readMacroName_outcome m cs
            · exact readMacroParams_outcome m cs
            · exact .of_reads nofun nofun
            · next hplace => exact readPattern_outcome m cs hplace hc
            · exact readGeneral_outcome m cs hc

/-! ## The class layer -/

/-- **The outcomes of the class layer**, which has no places. -/
theorem readClass_outcome (place : LinePosition) (hc : c ≠ '"') :
    Outcome place (c :: cs) (readClass m c (c :: cs)) := by
  unfold readClass
  refine iteInduction (fun _ => .of_reads nofun nofun) fun _ => ?_
  refine iteInduction (fun _ => .of_reads nofun nofun) fun _ => ?_
  refine iteInduction (fun _ => .of_reads nofun nofun) fun _ => ?_
  refine iteInduction (fun hahead => .of_comment hahead) fun _ => ?_
  refine iteInduction (fun hname => .of_name nofun nofun (ne_slash_of_isNameStart hname)) fun _ => ?_
  refine iteInduction (fun _ => .of_reads nofun nofun) fun _ => ?_
  rw [if_neg hc]
  refine iteInduction (fun _ => .of_reads nofun nofun) fun _ => ?_
  refine iteInduction (fun _ => .of_reads nofun nofun) fun _ => ?_
  refine iteInduction (fun _ => .of_reads nofun nofun) fun _ => ?_
  split
  · exact .of_reads nofun nofun
  · exact .refuses rfl rfl

/-! ## Tokens -/

variable {m : Mode} {c : Char} {cs : List Char}

/-- A step that takes something is a token. -/
theorem scan?_of_readLayer {r : Reading} (h : readLayer m c (c :: cs) = r) (hlength : r.length ≠ 0) :
    ∃ next, scan? m (c :: cs) = some ⟨r.kind, r.length, next⟩ := by
  refine ⟨r.atLeastOne.settleBlock.next, ?_⟩
  rw [scan?, h]
  unfold settleBlock atLeastOne
  rw [if_neg hlength]
  split <;> rfl

/-- A token is what the step has read, or one character that the step could not take. -/
theorem scan?_cases {r : Reading} (h : scan? m (c :: cs) = some r) :
    (r.kind = (readLayer m c (c :: cs)).kind ∧ r.length = (readLayer m c (c :: cs)).length) ∨
      (r.kind = .error ∧ r.length = 1) := by
  obtain rfl := Option.some.inj h
  unfold settleBlock atLeastOne
  split <;> split
  · exact .inr ⟨rfl, rfl⟩
  · exact .inr ⟨rfl, rfl⟩
  · exact .inl ⟨rfl, rfl⟩
  · exact .inl ⟨rfl, rfl⟩

end

end LayeredSyntax
