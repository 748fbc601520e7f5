/-
  CAUSES — when an error is put down to what really went wrong.

  An error token does not know why it is one; the cause is guessed again from its text and its layer.
  `GivesUp` says what really happened: a region or a comment without closer, a literal that its line does
  not close or that is too large, a name that is too long, a character or a sign that means nothing.

  1. **Every error has its reason** (`exists_givesUp`): outside of patterns and of the heads of macros,
     a step that answers with an error gives up in one of these ways.
  2. **The crux (`GivesUp.guess`)**: only the first characters and the size are left to guess from.  They
     give the reason away, except for an open literal that looks like a closed one: too large, with a
     doubled mark at its end.

  So there the guess names the reason and nothing else (`cause_eq_iff_givesUp`).  Elsewhere it can be
  wrong: in the head of a macro a quotation mark is a character that means nothing
  (`cause_of_macroQuote`), and a pattern that begins with a closed literal can break off behind it
  (`cause_of_openPattern`).  Both are reported as open literals.
-/
import LayeredSyntax.Proofs.Lexicon.Bounds
import LayeredSyntax.Proofs.Lexicon.Fencing
import LayeredSyntax.Proofs.Lexicon.Literals
import LayeredSyntax.Proofs.Source.Lines
import LayeredSyntax.Token.Fault

namespace LayeredSyntax

/-! ## Reasons to give up -/

variable [Limits]

/-- **Why a step gives up**, and how many characters it has taken by then. -/
inductive GivesUp (m : Mode) : List Char → Nat → LexicalCause → Prop
  /-- No balanced text ahead stands in front of the closer of the region. -/
  | region {fence : Fence} {cs : List Char} (hlayer : m.layer = .raw) (hfence : m.fence = some fence)
      (hopen : ∀ text rest, Balanced fence.kind text → cs ≠ text ++ fence.kind.closer :: rest) :
      GivesUp m cs cs.length .unterminatedRegion
  /-- The line ends inside a literal. -/
  | openString {text rest : List Char} (htakes : m.takesStrings = true) (htext : OneLine text)
      (hrest : ∀ c ∈ rest.head?, isLineEnd c = true) :
      GivesUp m ('"' :: (doubled text ++ rest)) ((doubled text).length + 1) .unterminatedString
  /-- A literal takes too many bytes. -/
  | largeString {text rest : List Char} (htakes : m.takesStrings = true) (htext : OneLine text)
      (hrest : rest.head? ≠ some '"') (hlarge : Limits.stringSize < width (literal text)) :
      GivesUp m (literal text ++ rest) (literal text).length (.stringTooLarge (width (literal text)))
  /-- No closer stands behind the opener of a comment. -/
  | comment {cs : List Char} (hlayer : m.layer ≠ .raw) (hahead : startsWith "/*" cs = true)
      (hopen : ¬ ['*', '/'] <:+: cs.drop 2) : GivesUp m cs cs.length .unterminatedComment
  /-- A name is too long. -/
  | name {c : Char} {cs : List Char} {n : Nat} (hlayer : m.layer ≠ .raw) (hslash : c ≠ '/')
      (hquote : c ≠ '"') (hlong : Limits.nameLength < n) : GivesUp m (c :: cs) n (.nameTooLong n)
  /-- A character means nothing here. -/
  | character {c : Char} {cs : List Char} (hlayer : m.layer ≠ .raw) (hquote : c ≠ '"') :
      GivesUp m (c :: cs) 1 (.invalidCharacter c)
  /-- A sign of three characters needs a name behind it. -/
  | sign {cs : List Char} (hlayer : m.layer ≠ .raw) (hahead : startsWith "$$$" cs = true) :
      GivesUp m cs 3 (.malformedToken "$$$")

omit [Limits] in
theorem closeComment_eq_none_iff (n : Nat) (cs : List Char) :
    closeComment n cs = none ↔ ¬ ['*', '/'] <:+: cs := by
  induction cs generalizing n with
  | nil => simp [closeComment]
  | cons c cs ih =>
    rw [closeComment_cons, List.infix_cons_iff]
    have hstarts : ['*', '/'] <+: c :: cs ↔ c = '*' ∧ cs.head? = some '/' := by
      cases cs <;> simp [List.cons_prefix_cons, eq_comm]
    rw [hstarts]
    by_cases hcloser : c = '*' ∧ cs.head? = some '/'
    · simp [hcloser]
    · simp [hcloser, ih]

/-! ## The guess -/

omit [Limits] in
theorem layer_ne_raw {m : Mode} (h : m.takesStrings = true) : m.layer ≠ .raw := by
  intro hlayer
  unfold Mode.takesStrings at h
  rw [hlayer] at h
  cases h

section

variable {m : Mode} {span : Span}

omit [Limits] in
theorem exists_of_startsWith {text : String} {cs : List Char} (h : startsWith text cs = true) :
    ∃ rest, cs = text.toList ++ rest := by
  obtain ⟨rest, hrest⟩ := List.isPrefixOf_iff_prefix.mp h
  exact ⟨rest, hrest.symm⟩

omit [Limits] in
theorem startsWith_quote {c : Char} (hc : c ≠ '"') (cs : List Char) :
    startsWith "\"" (c :: cs) = false := by
  show ('"' == c && true) = false
  rw [Bool.and_true, beq_eq_false_iff_ne]
  exact hc.symm

/-- The guess from a text that begins neither a string nor a comment, by its size. -/
theorem cause_of_plain {c : Char} {cs : List Char} (hlayer : m.layer ≠ .raw) (hquote : c ≠ '"')
    (hcomment : startsWith "/*" (c :: cs) = false) :
    (⟨.error, String.ofList (c :: cs), span, m⟩ : Token).cause false =
      if Limits.nameLength < (c :: cs).length then .nameTooLong (c :: cs).length
      else if cs = [] then .invalidCharacter c
      else .malformedToken (String.ofList (c :: cs)) := by
  unfold Token.cause
  simp only [String.toList_ofList, if_neg hlayer, startsWith_quote hquote, hcomment,
    Bool.false_eq_true, if_false]
  cases cs <;> rfl

/-- The guess from a text that begins with a quotation mark. -/
theorem cause_of_quote {cs : List Char} (hlayer : m.layer ≠ .raw) (hquote : cs.head? = some '"') :
    (⟨.error, String.ofList cs, span, m⟩ : Token).cause false =
      if cs.getLast? = some '"' ∧ Limits.stringSize < width cs then .stringTooLarge (width cs)
      else .unterminatedString := by
  obtain ⟨cs, rfl⟩ := List.head?_eq_some_iff.mp hquote
  have hstart : startsWith "\"" ('"' :: cs) = true := rfl
  unfold Token.cause isOversizedString
  simp only [String.toList_ofList, if_neg hlayer, hstart, Bool.false_eq_true, if_false, if_true,
    utf8ByteSize_eq_width, Bool.and_eq_true, beq_iff_eq, decide_eq_true_eq]

theorem cause_of_comment {cs : List Char} (hlayer : m.layer ≠ .raw)
    (hahead : startsWith "/*" cs = true) :
    (⟨.error, String.ofList cs, span, m⟩ : Token).cause false = .unterminatedComment := by
  obtain ⟨rest, rfl⟩ := exists_of_startsWith hahead
  have hstart : startsWith "\"" ("/*".toList ++ rest) = false := rfl
  unfold Token.cause
  simp only [String.toList_ofList, if_neg hlayer, hstart, hahead, Bool.false_eq_true, if_false, if_true]

theorem cause_of_raw (hlayer : m.layer = .raw) (text : String) :
    (⟨.error, text, span, m⟩ : Token).cause false = .unterminatedRegion := by
  unfold Token.cause
  simp only [if_pos hlayer, Bool.false_eq_true, if_false]

/-- **A reason can be guessed** from the text and the layer, but for an open literal that looks like a
    closed one that is too large, as long as names may be as long as the sign that means nothing. -/
theorem GivesUp.guess {cs : List Char} {n : Nat} {cause : LexicalCause} (h : GivesUp m cs n cause)
    (hsign : 3 ≤ Limits.nameLength) (hn : n ≤ cs.length) (hopen : cause = .unterminatedString →
      ¬ ((cs.take n).getLast? = some '"' ∧ Limits.stringSize < width (cs.take n))) :
    (⟨.error, String.ofList (cs.take n), span, m⟩ : Token).cause false = cause := by
  cases h with
  | region hlayer _ _ => exact cause_of_raw hlayer _
  | @openString text rest htakes htext hrest =>
    have htake : ('"' :: (doubled text ++ rest)).take ((doubled text).length + 1) =
        '"' :: doubled text := by
      rw [List.take_succ_cons, List.take_left]
    rw [htake] at hopen ⊢
    rw [cause_of_quote (layer_ne_raw htakes) rfl, if_neg (hopen rfl)]
  | @largeString text rest htakes htext hrest hlarge =>
    have hlast : (literal text).getLast? = some '"' := by
      rw [literal, ← List.cons_append, List.getLast?_concat]
    rw [List.take_left, cause_of_quote (layer_ne_raw htakes) rfl, if_pos ⟨hlast, hlarge⟩]
  | comment hlayer hahead _ => rw [List.take_length, cause_of_comment hlayer hahead]
  | @name c cs n hlayer hslash hquote hlong =>
    obtain ⟨k, rfl⟩ := Nat.exists_eq_add_one_of_ne_zero (Nat.ne_zero_of_lt hlong)
    have htaken : (c :: cs.take k).length = k + 1 := by
      simp only [List.length_cons] at hn ⊢
      rw [List.length_take_of_le (by omega)]
    have hcomment : startsWith "/*" (c :: cs.take k) = false := by
      show ('/' == c && _) = false
      rw [beq_eq_false_iff_ne.mpr hslash.symm, Bool.false_and]
    rw [List.take_succ_cons, cause_of_plain hlayer hquote hcomment, htaken, if_pos hlong]
  | @character c cs hlayer hquote =>
    have hcomment : startsWith "/*" [c] = false := Bool.and_false _
    have hshort : ¬ Limits.nameLength < [c].length := Nat.not_lt.mpr Limits.nameLength_range
    rw [List.take_succ_cons, List.take_zero, cause_of_plain hlayer hquote hcomment, if_neg hshort,
      if_pos rfl]
  | sign hlayer hahead =>
    obtain ⟨rest, rfl⟩ := exists_of_startsWith hahead
    show (⟨.error, String.ofList ['$', '$', '$'], span, m⟩ : Token).cause false = _
    have hshort : ¬ Limits.nameLength < ['$', '$', '$'].length := Nat.not_lt.mpr hsign
    rw [cause_of_plain hlayer (by decide) rfl, if_neg hshort, if_neg (List.cons_ne_nil _ _)]

end

/-! ## Steps that give up -/

section

variable {m : Mode} {cs : List Char} {r : Reading}

theorem exists_givesUp_of_raw (hlayer : m.layer = .raw) (h : scan? m cs = some r)
    (hkind : r.kind = .error) : ∃ cause, GivesUp m cs r.length cause := by
  have hcs : cs ≠ [] := by rintro rfl; cases h
  cases hfence : m.fence with
  | none =>
    have hread : readRaw m cs = ⟨.rawText, cs.length, m⟩ := by unfold readRaw; rw [hfence]
    rw [scan?_of_raw hlayer hcs, hread,
      Reading.settled_eq (mt List.length_eq_zero_iff.mp hcs) TokenKind.noConfusion rfl] at h
    obtain rfl := Option.some.inj h
    cases hkind
  | some fence =>
    obtain hclose | ⟨htext, _⟩ | ⟨_, hlength⟩ := scan?_region_cases hlayer hfence h
    · exact absurd (hkind.symm.trans hclose) nofun
    · exact absurd (hkind.symm.trans htext) nofun
    · rw [hlength]
      refine ⟨_, .region hlayer hfence ?_⟩
      -- Balanced text in front of a closer would have been read, and the closer too.
      rintro text rest htext rfl
      by_cases hne : text = []
      · rw [hne, List.nil_append, scan?_closer hlayer hfence] at h
        obtain rfl := Option.some.inj h
        cases hkind
      · rw [scan?_balanced hlayer hfence htext hne] at h
        obtain rfl := Option.some.inj h
        cases hkind

theorem exists_givesUp_of_quote (htakes : m.takesStrings = true) {cs : List Char}
    (h : scan? m ('"' :: cs) = some r) (hkind : r.kind = .error) :
    ∃ cause, GivesUp m ('"' :: cs) r.length cause := by
  obtain ⟨text, rest, rfl, htext, ⟨behind, rfl, hbehind⟩ | hrest⟩ := exists_doubled cs
  · -- The literal is closed, so it must be too large.
    obtain ⟨next, hread⟩ := scan?_literal htakes htext hbehind
    rw [← literal_append] at h ⊢
    obtain rfl := Option.some.inj (h.symm.trans hread)
    refine ⟨_, .largeString htakes htext hbehind ?_⟩
    by_contra hfits
    rw [if_pos (Nat.not_lt.mp hfits)] at hkind
    cases hkind
  · obtain ⟨next, hread⟩ := scan?_open htakes htext hrest
    obtain rfl := Option.some.inj (h.symm.trans hread)
    exact ⟨_, .openString htakes htext hrest⟩

/-- A name that is refused is too long. -/
theorem nameLength_lt_of_nameOr {kind : TokenKind} {n : Nat} (hkind : kind ≠ .error)
    (h : nameOr kind n = .error) : Limits.nameLength < n := by
  unfold nameOr at h
  split at h
  · next hlong => exact hlong
  · exact absurd h hkind

/-- A step in front of another character: a comment, a name, or something that means nothing. -/
theorem exists_givesUp_of_outcome {c : Char} {cs : List Char} {place : LinePosition}
    (hlayer : m.layer ≠ .raw) (hc : c ≠ '"') (hplace : place ≠ .pattern)
    (h : r.Outcome place (c :: cs)) (hkind : r.kind = .error) :
    ∃ cause, GivesUp m (c :: cs) r.length cause := by
  cases h with
  | reads herror _ => exact absurd hkind herror
  | patterns h _ => exact absurd h hplace
  | names kind herror _ hhead hname =>
    have hlong := nameLength_lt_of_nameOr herror (hname.symm.trans hkind)
    exact ⟨_, .name hlayer (fun h => hhead (congrArg some h)) hc hlong⟩
  | comments hahead _ hopen =>
    obtain ⟨hnone, hall⟩ := hopen hkind
    rw [hall]
    exact ⟨_, .comment hlayer hahead ((closeComment_eq_none_iff _ _).mp hnone)⟩
  | refuses _ hone =>
    rw [hone]
    exact ⟨_, .character hlayer hc⟩
  | nameless _ hthree hahead =>
    rw [hthree]
    exact ⟨_, .sign hlayer hahead⟩

/-- Where strings are read, no pattern is. -/
theorem exists_outcome (htakes : m.takesStrings = true) {c : Char} (hc : c ≠ '"') (cs : List Char) :
    ∃ place, place ≠ .pattern ∧ (readLayer m c (c :: cs)).Outcome place (c :: cs) := by
  have hcode : m.position.takesStrings = true →
      ∃ place, place ≠ .pattern ∧ (readCode m c (c :: cs)).Outcome place (c :: cs) := by
    intro h
    refine ⟨m.position, ?_, readCode_outcome m cs hc⟩
    intro hpattern
    rw [hpattern] at h
    cases h
  unfold Mode.takesStrings at htakes
  unfold readLayer
  cases hlayer : m.layer with
  | raw => rw [hlayer] at htakes; cases htakes
  | udl => exact ⟨.commandStart, nofun, readClass_outcome m cs _ hc⟩
  | core => rw [hlayer] at htakes; exact hcode htakes
  | expr => rw [hlayer] at htakes; exact hcode htakes

/-- **Every error has its reason.** -/
theorem exists_givesUp (hplace : m.layer = .raw ∨ m.takesStrings = true) (h : scan? m cs = some r)
    (hkind : r.kind = .error) : ∃ cause, GivesUp m cs r.length cause := by
  obtain hlayer | htakes := hplace
  · exact exists_givesUp_of_raw hlayer h hkind
  · cases cs with
    | nil => cases h
    | cons c cs =>
      by_cases hc : c = '"'
      · subst hc
        exact exists_givesUp_of_quote htakes h hkind
      · have hlayer := layer_ne_raw htakes
        obtain ⟨place, hplace, houtcome⟩ := exists_outcome htakes hc cs
        obtain ⟨hread, hsize⟩ | ⟨_, hone⟩ := scan?_cases h
        · exact exists_givesUp_of_outcome hlayer hc hplace (houtcome.congr hread hsize) hkind
        · rw [hone]
          exact ⟨_, .character hlayer hc⟩

end

/-! ## Error tokens -/

variable {m : Mode} {cs : List Char}

/-- **The guess is right** for every error token in a region or where strings are read: its cause is the
    reason to give up, unless the line ends in a literal that looks like a closed one, too large and with
    a mark at its end.  Names must be allowed that are as long as the sign that means nothing. -/
theorem cause_eq_iff_givesUp (hsign : 3 ≤ Limits.nameLength) {p : Position} {s : TokenStep}
    (h : Token.read? p m cs = some s) (hkind : s.token.kind = .error)
    (hplace : m.layer = .raw ∨ m.takesStrings = true)
    (hopen : GivesUp m cs s.token.text.length .unterminatedString →
      isOversizedString s.token.text = false) (cause : LexicalCause) :
    s.token.cause false = cause ↔ GivesUp m cs s.token.text.length cause := by
  obtain ⟨r, hread, rfl⟩ := Option.map_eq_some_iff.mp h
  dsimp only at hkind hopen ⊢
  have hle := (scan?_within hread).length_le
  have hlength : (String.ofList (cs.take r.length)).length = r.length := by
    rw [String.length_ofList, List.length_take_of_le hle]
  rw [hlength] at hopen ⊢
  rw [hkind]
  have hguess : ∀ reason, GivesUp m cs r.length reason →
      (⟨.error, String.ofList (cs.take r.length), ⟨p, p.after (cs.take r.length)⟩, m⟩ : Token).cause
        false = reason := by
    intro reason hreason
    refine hreason.guess hsign hle ?_
    rintro rfl ⟨hlast, hlarge⟩
    have hsize := hopen hreason
    unfold isOversizedString at hsize
    rw [utf8ByteSize_eq_width, String.toList_ofList, hlast, decide_eq_true hlarge] at hsize
    cases hsize
  constructor
  · rintro rfl
    obtain ⟨reason, hreason⟩ := exists_givesUp hplace hread hkind
    rwa [hguess reason hreason]
  · exact hguess cause

/-! ## Wrong guesses -/

/-- A closed literal inside a pattern is passed, unless it makes the pattern too large. -/
theorem patternRun_doubled {text rest : List Char} (htext : OneLine text)
    (hrest : rest.head? ≠ some '"') (depth n bytes : Nat)
    (hfits : bytes + width (doubled text) + 1 ≤ Limits.stringSize) :
    patternRun depth n bytes true (doubled text ++ '"' :: rest) =
      patternRun depth (n + (doubled text).length + 1) (bytes + width (doubled text) + 1) false
        rest := by
  induction text generalizing n bytes with
  | nil =>
    have hsize : ¬ Limits.stringSize < bytes + 1 := Nat.not_lt.mpr hfits
    rw [doubled, List.nil_append, patternRun_cons, if_pos rfl, if_pos rfl, if_neg hrest, if_neg hsize]
    rfl
  | cons c text ih =>
    obtain ⟨hc, htext⟩ := oneLine_cons.mp htext
    by_cases hquote : c = '"'
    · have hmark : '"'.utf8Size = 1 := rfl
      rw [hquote, doubled_quote, width_cons, width_cons, hmark] at hfits ⊢
      have hpair (cs : List Char) : patternRun depth n bytes true ('"' :: '"' :: cs) =
          patternRun depth (n + 2) (bytes + 2) true cs := by
        rw [patternRun_cons]
        rfl
      rw [List.cons_append, List.cons_append, hpair, ih htext _ _ (by omega)]
      simp only [List.length_cons]
      congr 1 <;> omega
    · rw [doubled_cons hquote, width_cons] at hfits ⊢
      rw [List.cons_append, patternRun_cons, if_pos rfl, if_neg hquote,
        if_neg (Bool.eq_false_iff.mp hc), ih htext _ _ (by omega)]
      simp only [List.length_cons]
      congr 1 <;> omega

/-- A line end stops a pattern. -/
theorem patternRun_stop {rest : List Char} (hrest : ∀ c ∈ rest.head?, isLineEnd c = true)
    (depth n bytes : Nat) : patternRun depth n bytes false rest = ⟨n, depth, false⟩ := by
  cases rest with
  | nil => rfl
  | cons c rest =>
    have hend := hrest c rfl
    simp only [isLineEnd, Bool.or_eq_true, beq_iff_eq] at hend
    rw [patternRun_cons]
    obtain rfl | rfl := hend <;> rfl

section

variable (hlayer : m.layer = .core ∨ m.layer = .expr)
include hlayer

/-- The error token of a step in the code layers that begins at a quotation mark. -/
theorem read?_of_quote {n : Nat} {next : Mode} (hread : readCode m '"' ('"' :: cs) = ⟨.error, n, next⟩)
    (hn : n ≠ 0) (p : Position) : ∃ s, Token.read? p m ('"' :: cs) = some s ∧
      s.token.kind = .error ∧ s.token.text = String.ofList (('"' :: cs).take n) ∧
      s.token.cause false = if (('"' :: cs).take n).getLast? = some '"' ∧
        Limits.stringSize < width (('"' :: cs).take n) then
          .stringTooLarge (width (('"' :: cs).take n)) else .unterminatedString := by
  have hcode : readLayer m '"' ('"' :: cs) = readCode m '"' ('"' :: cs) := by
    unfold readLayer
    obtain hlayer | hlayer := hlayer <;> rw [hlayer]
  have hraw : m.layer ≠ .raw := by
    obtain hlayer | hlayer := hlayer <;> rw [hlayer] <;> exact nofun
  obtain ⟨behind, hscan⟩ := scan?_of_readLayer (hcode.trans hread) hn
  have hhead : (('"' :: cs).take n).head? = some '"' := by
    rw [List.head?_take, if_neg hn]
    rfl
  refine ⟨_, by rw [Token.read?, hscan]; rfl, rfl, rfl, ?_⟩
  exact cause_of_quote hraw hhead

/-- **In the head of a macro the guess is wrong**: a quotation mark is a character that means nothing
    there, and is reported as a literal that its line does not close, whatever stands behind it. -/
theorem cause_of_macroQuote (hplace : m.position = .macroName ∨ m.position = .macroParams)
    (p : Position) : ∃ s, Token.read? p m ('"' :: cs) = some s ∧ s.token.kind = .error ∧
      s.token.text = "\"" ∧ s.token.cause false = .unterminatedString := by
  have hread : ∃ next, readCode m '"' ('"' :: cs) = ⟨.error, 1, next⟩ := by
    rw [readCode_quote]
    obtain hplace | hplace := hplace <;> rw [hplace] <;> exact ⟨_, rfl⟩
  obtain ⟨next, hread⟩ := hread
  obtain ⟨s, hs, hkind, htext, hcause⟩ := read?_of_quote hlayer hread Nat.one_ne_zero p
  refine ⟨s, hs, hkind, htext, hcause.trans (if_neg ?_)⟩
  rintro ⟨_, hlarge⟩
  exact absurd hlarge (Nat.not_lt.mpr Limits.stringSize_range)

/-- **In a pattern the guess can be wrong**: a literal that is closed and fits, in front of a parenthesis
    that the line leaves open, is reported as a literal that its line does not close. -/
theorem cause_of_openPattern (hplace : m.position = .pattern) {text rest : List Char} (htext : OneLine text)
    (hfits : width (literal text) ≤ Limits.stringSize)
    (hrest : ∀ c ∈ rest.head?, isLineEnd c = true) (p : Position) :
    ∃ s, Token.read? p m (literal text ++ '(' :: rest) = some s ∧ s.token.kind = .error ∧
      s.token.text = String.ofList (literal text ++ ['(']) ∧
      s.token.cause false = .unterminatedString := by
  have hrun : patternRun 0 0 0 false (literal text ++ '(' :: rest) =
      ⟨(literal text).length + 1, 1, false⟩ := by
    have hopen (cs : List Char) : patternRun 0 0 0 false ('"' :: cs) = patternRun 0 1 1 true cs := by
      rw [patternRun_cons]
      rfl
    have hparen (n bytes : Nat) : patternRun 0 n bytes false ('(' :: rest) = ⟨n + 1, 1, false⟩ := by
      rw [patternRun_cons]
      exact patternRun_stop hrest 1 (n + 1) (bytes + 1)
    have hsize : 1 + width (doubled text) + 1 ≤ Limits.stringSize := by
      rwa [literal, width_cons, width_append, ← Nat.add_assoc] at hfits
    rw [literal_append, hopen, patternRun_doubled htext (by simp) _ _ _ hsize, hparen, length_literal]
    congr 1
    omega
  have hread : readCode m '"' (literal text ++ '(' :: rest) =
      ⟨.error, (literal text).length + 1, m.afterOperand⟩ := by
    rw [literal_append, readCode_quote, hplace, ← literal_append]
    dsimp only
    unfold readPattern
    rw [hrun, if_neg (Nat.succ_ne_zero _)]
    rfl
  have htake : (literal text ++ '(' :: rest).take ((literal text).length + 1) =
      literal text ++ ['('] := by
    rw [List.take_length_add_append]
    rfl
  rw [literal_append] at hread htake ⊢
  obtain ⟨s, hs, hkind, htext, hcause⟩ := read?_of_quote hlayer hread (Nat.succ_ne_zero _) p
  rw [htake] at htext hcause
  refine ⟨s, hs, hkind, htext, hcause.trans (if_neg ?_)⟩
  rintro ⟨hlast, _⟩
  rw [List.getLast?_concat] at hlast
  cases hlast

end

end LayeredSyntax
