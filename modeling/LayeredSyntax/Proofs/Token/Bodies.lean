/-
  MEMBER BODIES — what the brace behind the keywords of a method opens.

  The class layer keeps one note of what the next brace of a member holds, and writes over it word
  by word: the keyword of the member first, then the language and the code mode in square brackets.

  1. Outside of braces the class layer goes by the texts of the tokens alone
     (`ClassContext.takeText`), so what it knows behind some tokens is a fold over them
     (`Lexes.inClass`).
  2. A keyword in square brackets settles the body when its value is read, and everything else in
     the list leaves the note alone (`ClassContext.Holds.foldl_spells`).
  3. So **the layer behind the brace is a fold over the keywords** (`Lexes.layer_of_body`).

  The fold depends on the order in one case.  A foreign language stands against every code mode
  behind it, but **a language of our own starts over** (`bodyBehind_native`): the code mode counts
  when it stands behind the language, and is lost when it stands in front of it.  Where these two do
  not come together, the order does not matter (`bodyBehind_perm`).
-/
import LayeredSyntax.Proofs.Token.Lexing

namespace LayeredSyntax

/-! ## The class layer without braces -/

/-- Whether a token of the class layer is a word. -/
def isWord (text : String) : Bool :=
  match text.toList with
  | c :: _ => !isBlank c && isNameStart c
  | [] => false

theorem isWord_cons (c : Char) (cs : List Char) :
    isWord (String.ofList (c :: cs)) = (!isBlank c && isNameStart c) := by
  unfold isWord
  rw [String.toList_ofList]

/-- The context behind a token that is no opening brace. -/
def ClassContext.takeText (u : ClassContext) (text : String) : ClassContext :=
  if isWord text then u.takeWord text.toLower
  else
    match text.toList with
    | [c] => (u.takeSymbol? c).getD u
    | _ => u

theorem ClassContext.takeText_of_none {u : ClassContext} {c : Char} {cs : List Char}
    (hword : isBlank c = true ∨ isNameStart c = false) (hsymbol : u.takeSymbol? c = none) :
    u.takeText (String.ofList (c :: cs)) = u := by
  have hno : isWord (String.ofList (c :: cs)) = false := by
    rw [isWord_cons]
    rcases hword with h | h
    · rw [h]
      rfl
    · rw [h, Bool.and_false]
  unfold takeText
  rw [hno, String.toList_ofList]
  cases cs with
  | nil => simp only [hsymbol, Option.getD_none, Bool.false_eq_true, if_false]
  | cons => rfl

/-- The symbols of the class layer, without the brace that opens. -/
def classSymbols : List Char := ['}', '[', ']', '(', ')', ';', '=', ',', ':']

theorem ClassContext.takeSymbol?_eq_none {u : ClassContext} {c : Char} (h : c ∉ classSymbols) :
    u.takeSymbol? c = none := by
  unfold takeSymbol?
  split <;> first | rfl | exact absurd (by decide) h

theorem classSymbols_apart : ∀ c ∈ classSymbols, isBlank c = false ∧ isNameStart c = false ∧
    c.isDigit = false ∧ ['-', '+', '*'].contains c = false := by
  have hall : (classSymbols.all fun c => !isBlank c && !isNameStart c && !c.isDigit &&
      !(['-', '+', '*'].contains c)) = true := by decide
  intro c hc
  have hapart := List.all_eq_true.mp hall c hc
  simp only [Bool.and_eq_true, Bool.not_eq_true'] at hapart
  exact ⟨hapart.1.1.1, hapart.1.1.2, hapart.1.2, hapart.2⟩

/-- What was read of a text begins with the character ahead. -/
theorem Reading.take_atLeastOne (r : Reading) (c : Char) (cs : List Char) :
    ∃ n, (c :: cs).take r.atLeastOne.length = c :: cs.take n := by
  unfold Reading.atLeastOne
  split
  · exact ⟨0, rfl⟩
  · next hne =>
    obtain ⟨n, hn⟩ := Nat.exists_eq_succ_of_ne_zero hne
    exact ⟨n, by rw [hn]; rfl⟩

theorem classNameLength_ne_zero {c : Char} (h : isNameStart c = true) (cs : List Char) :
    classNameLength (c :: cs) ≠ 0 := by
  have hfirst : nameLength (c :: cs) ≠ 0 := by
    simp only [nameLength, h, if_true]
    exact Nat.succ_ne_zero _
  unfold classNameLength
  dsimp only
  split <;> omega

theorem eq_slash_of_startsWith {text : String} {c : Char} {cs : List Char}
    (hhead : text.toList.head? = some '/') (h : startsWith text (c :: cs) = true) : c = '/' := by
  obtain ⟨rest, hrest⟩ := List.head?_eq_some_iff.mp hhead
  unfold startsWith at h
  rw [hrest, List.isPrefixOf_cons_cons] at h
  exact (eq_of_beq (Bool.and_eq_true_iff.mp h).1).symm

/-- A token that is no word and no symbol leaves the context as it is, and goes by its text so. -/
theorem Reading.next_of_takeSymbol?_none (c : Char) (cs : List Char) {m : Mode} {r : Reading}
    (hnext : r.next = m) (hword : isBlank c = true ∨ isNameStart c = false)
    (hsymbol : m.member.takeSymbol? c = none) : r.next = m.inMember (m.member.takeText
      (String.ofList ((c :: cs).take r.atLeastOne.length))) := by
  obtain ⟨n, htake⟩ := r.take_atLeastOne c cs
  rw [htake, ClassContext.takeText_of_none hword hsymbol]
  exact hnext

/-- A comment leaves the context as it is. -/
theorem Reading.next_of_slash {m : Mode} {c : Char} {cs : List Char} {r : Reading} {text : String}
    (hhead : text.toList.head? = some '/') (hstarts : startsWith text (c :: cs) = true)
    (hnext : r.next = m) : r.next = m.inMember (m.member.takeText
      (String.ofList ((c :: cs).take r.atLeastOne.length))) := by
  obtain rfl := eq_slash_of_startsWith hhead hstarts
  exact r.next_of_takeSymbol?_none '/' cs hnext (.inr (by decide)) rfl

/-- A word is taken as it is, in lower case. -/
theorem takeText_className {c : Char} (hname : isNameStart c = true) (hblank : isBlank c = false)
    (u : ClassContext) (cs : List Char) : ∃ n, classNameLength (c :: cs) = n + 1 ∧
      u.takeText (String.ofList ((c :: cs).take (n + 1))) =
        u.takeWord (String.ofList ((c :: cs).take (n + 1))).toLower := by
  obtain ⟨n, hn⟩ := Nat.exists_eq_succ_of_ne_zero (classNameLength_ne_zero hname cs)
  have hword : isWord (String.ofList ((c :: cs).take (n + 1))) = true := by
    rw [List.take_succ_cons, isWord_cons, hname, hblank]
    rfl
  refine ⟨n, hn, ?_⟩
  unfold ClassContext.takeText
  rw [if_pos hword]

/-- A symbol is taken by its character. -/
theorem ClassContext.takeText_of_symbol {u v : ClassContext} {c : Char}
    (hname : isNameStart c = false) (h : u.takeSymbol? c = some v) :
    u.takeText (String.ofList [c]) = v := by
  have hno : isWord (String.ofList [c]) = false := by
    rw [isWord_cons, hname, Bool.and_false]
  unfold takeText
  rw [hno, String.toList_ofList]
  simp only [Bool.false_eq_true, if_false, h, Option.getD_some]

section

variable [Limits]

/-- **Without a brace ahead the class layer stays**, and goes by the text of the token. -/
theorem readClass_inClass (m : Mode) {c : Char} (cs : List Char) (hbrace : c ≠ '{') :
    (readClass m c (c :: cs)).next = m.inMember (m.member.takeText (String.ofList
      ((c :: cs).take (readClass m c (c :: cs)).atLeastOne.length))) := by
  -- Everything but words and symbols leaves the context as it is.
  have hkeep := fun (r : Reading) (hnext : r.next = m) => r.next_of_takeSymbol?_none c cs hnext
  unfold readClass
  split
  · next hblank =>
    exact hkeep _ rfl (.inl hblank) <| ClassContext.takeSymbol?_eq_none fun hmem =>
      Bool.noConfusion (hblank.symm.trans (classSymbols_apart c hmem).1)
  next hblank =>
  split
  · next h => exact Reading.next_of_slash rfl h rfl
  split
  · next h => exact Reading.next_of_slash rfl h rfl
  split
  · next h =>
    refine Reading.next_of_slash rfl h ?_
    unfold readBlockComment
    split <;> rfl
  split
  · next hname =>
    obtain ⟨n, hn, htake⟩ := takeText_className hname (Bool.not_eq_true _ |>.mp hblank) m.member cs
    unfold Reading.atLeastOne
    simp only [hn, Nat.succ_ne_zero, if_false, htake]
  next hname =>
  have hname' : isNameStart c = false := Bool.not_eq_true _ |>.mp hname
  split
  · next hdigit =>
    exact hkeep _ rfl (.inr hname') <| ClassContext.takeSymbol?_eq_none fun hmem =>
      Bool.noConfusion (hdigit.symm.trans (classSymbols_apart c hmem).2.2.1)
  split
  · next hquote =>
    subst hquote
    exact hkeep _ rfl (.inr hname') rfl
  split
  · next hpoint =>
    subst hpoint
    exact hkeep _ rfl (.inr hname') rfl
  split
  · next hoperator =>
    exact hkeep _ rfl (.inr hname') <| ClassContext.takeSymbol?_eq_none fun hmem =>
      Bool.noConfusion (hoperator.symm.trans (classSymbols_apart c hmem).2.2.2)
  split
  · next u hu =>
    exact congrArg m.inMember (ClassContext.takeText_of_symbol hname' hu).symm
  · next hnone => exact hkeep _ rfl (.inr hname') hnone

/-- What is read in the class layer, where no brace stands ahead. -/
theorem scan?_inClass {m : Mode} {c : Char} {cs : List Char} {r : Reading}
    (hr : scan? m (c :: cs) = some r) (hl : m.layer = .udl) (hbrace : c ≠ '{') :
    r.next.layer = .udl ∧
      r.next.member = m.member.takeText (String.ofList ((c :: cs).take r.length)) := by
  have hscan : scan? m (c :: cs) = some (readClass m c (c :: cs)).atLeastOne.settleBlock := by
    simp only [scan?, readLayer, hl]
  obtain rfl := Option.some.inj (hscan.symm.trans hr)
  have hclass := readClass_inClass m cs hbrace
  generalize readClass m c (c :: cs) = reading at hclass
  have hkeep : reading.atLeastOne.settleBlock.length = reading.atLeastOne.length ∧
      reading.atLeastOne.settleBlock.next.layer = reading.next.layer ∧
      reading.atLeastOne.settleBlock.next.member = reading.next.member := by
    unfold Reading.settleBlock Reading.atLeastOne
    split <;> split <;> exact ⟨rfl, rfl, rfl⟩
  rw [hkeep.1, hkeep.2.1, hkeep.2.2, hclass]
  exact ⟨hl, rfl⟩

/-- A brace that opens, in the class layer. -/
theorem scan?_brace {m : Mode} (cs : List Char) (hl : m.layer = .udl) :
    ∃ r, scan? m ('{' :: cs) = some r ∧ r.length = 1 ∧ r.next.layer = m.openBrace.layer := by
  have hscan : scan? m ('{' :: cs) = some (readClass m '{' ('{' :: cs)).atLeastOne.settleBlock := by
    simp only [scan?, readLayer, hl]
  exact ⟨_, hscan, rfl, rfl⟩

/-- A token of the class layer that is no opening brace. -/
theorem Token.inClass_of_read? {p : Position} {m : Mode} {cs : List Char} {s : TokenStep}
    (hs : Token.read? p m cs = some s) (hl : m.layer = .udl) (hbrace : s.token.text ≠ "\x7b") :
    s.next.layer = .udl ∧ s.next.member = m.member.takeText s.token.text := by
  unfold Token.read? at hs
  obtain ⟨r, hr, rfl⟩ := Option.map_eq_some_iff.mp hs
  cases cs with
  | nil => cases hr
  | cons c cs =>
    refine scan?_inClass hr hl ?_
    rintro rfl
    obtain ⟨r', hr', hlength, _⟩ := scan?_brace cs hl
    obtain rfl := Option.some.inj (hr'.symm.trans hr)
    exact hbrace (by dsimp only; rw [hlength]; rfl)

/-- A brace of the class layer. -/
theorem Token.brace_of_read? {p : Position} {m : Mode} {cs : List Char} {s : TokenStep}
    (hs : Token.read? p m cs = some s) (hl : m.layer = .udl) (hbrace : s.token.text = "\x7b") :
    s.next.layer = m.openBrace.layer := by
  obtain ⟨_, text, _, hcs, htoken⟩ := Token.read?_spec hs
  have htext : text = ['{'] := by
    rw [htoken] at hbrace
    exact String.ofList_injective hbrace
  subst htext
  obtain ⟨r, hr, _, hlayer⟩ := scan?_brace s.rest hl
  unfold Token.read? at hs
  rw [hcs, List.singleton_append, hr] at hs
  have hstep : s.next = r.next := congrArg TokenStep.next (Option.some.inj hs).symm
  rw [hstep]
  exact hlayer

/-- **Between braces the class layer goes by the texts of the tokens.** -/
theorem Lexes.inClass {r r' : Reader} {ts : List Token} (h : Lexes r ts r')
    (hl : r.mode.layer = .udl) (hbrace : ∀ t ∈ ts, t.text ≠ "\x7b") : r'.mode.layer = .udl ∧
      r'.mode.member = (ts.map (·.text)).foldl ClassContext.takeText r.mode.member := by
  induction h with
  | nil => exact ⟨hl, rfl⟩
  | @cons p m cs s ts r hs _ ih =>
    obtain ⟨hl', hmember⟩ := Token.inClass_of_read? hs hl (hbrace _ List.mem_cons_self)
    obtain ⟨hend, hfold⟩ := ih hl' fun t ht => hbrace t (List.mem_cons_of_mem _ ht)
    refine ⟨hend, hfold.trans ?_⟩
    rw [List.map_cons, List.foldl_cons, ← hmember]
    rfl

end

/-! ## What is noted of the body -/

/-- What a keyword of a member's list says of the body. -/
inductive MemberKeyword where
  | language (value : String)
  | codeMode (value : String)
  /-- Something else. -/
  | other
deriving DecidableEq

/-- What the brace holds behind a keyword. -/
def MemberKeyword.settle (body : BodyKind) : MemberKeyword → BodyKind
  | language value => if isNativeLanguage value then .code else .raw
  | codeMode value => if body = .raw then .raw else if value = "expression" then .expr else .code
  | other => body

theorem MemberKeyword.settle_language (body : BodyKind) (value : String) :
    settle body (.language value) = if isNativeLanguage value then .code else .raw := rfl

theorem MemberKeyword.settle_codeMode (body : BodyKind) (value : String) :
    settle body (.codeMode value) =
      if body = .raw then .raw else if value = "expression" then .expr else .code := rfl

/-- **What the brace of a method holds behind its keywords.** -/
def bodyBehind (keywords : List MemberKeyword) : BodyKind :=
  keywords.foldl MemberKeyword.settle .code

/-- The layer of a body. -/
def BodyKind.layer : BodyKind → Layer
  | absent => .udl
  | code => .core
  | expr => .expr
  | raw => .raw

/-- Tokens that neither open nor close anything but parentheses, and end no member. -/
def Quiet (text : String) : Prop := text ∉ ["\x7b", "\x7d", "[", "]", ";"]

/-- Words that the class layer waits for the value of. -/
def settlingWords : List String :=
  ["language", "codemode", "initialexpression", "condition", "sqlcomputecode"]

/-- **How a keyword is spelled in the list of a member**, with what stands between it and its
    value. -/
inductive MemberKeyword.Spells : List String → MemberKeyword → Prop where
  | language {word value : String} {gap : List String} (hword : isWord word = true)
      (hname : word.toLower = "language") (hgap : ∀ t ∈ gap, Quiet t ∧ isWord t = false)
      (hvalue : isWord value = true) (hfree : value.toLower ∉ settlingWords) :
      Spells (word :: gap ++ [value]) (.language value.toLower)
  | codeMode {word value : String} {gap : List String} (hword : isWord word = true)
      (hname : word.toLower = "codemode") (hgap : ∀ t ∈ gap, Quiet t ∧ isWord t = false)
      (hvalue : isWord value = true) (hfree : value.toLower ∉ settlingWords) :
      Spells (word :: gap ++ [value]) (.codeMode value.toLower)
  | other {text : String} (hquiet : Quiet text)
      (hfree : isWord text = true → text.toLower ∉ settlingWords) : Spells [text] .other

/-- How a list of keywords is spelled; what stands between two keywords is something else. -/
inductive SpellsKeywords : List String → List MemberKeyword → Prop where
  | nil : SpellsKeywords [] []
  | cons {texts rest : List String} {k : MemberKeyword} {ks : List MemberKeyword}
      (h : k.Spells texts) (hrest : SpellsKeywords rest ks) :
      SpellsKeywords (texts ++ rest) (k :: ks)

namespace ClassContext

variable {u : ClassContext} {text : String} {texts : List String} {opened : Nat} {body : BodyKind}

/-- What is known of a member: what its brace holds, and how many square brackets are open. -/
structure Holds (u : ClassContext) (opened : Nat) (body : BodyKind) : Prop where
  pending : u.pending = body
  brackets : u.brackets = opened
  memberStart : u.memberStart = false

/-- Whether no word settles the body: a code mode is of no account where the body is raw. -/
def Free (u : ClassContext) : Prop :=
  u.awaiting ≠ .language ∧ (u.awaiting = .codeMode → u.pending = .raw)

/-! ### Symbols -/

/-- What a symbol leaves alone: it can only change whether a braced value is awaited. -/
structure Keeps (u v : ClassContext) : Prop where
  pending : v.pending = u.pending
  brackets : v.brackets = u.brackets
  memberStart : v.memberStart = u.memberStart
  awaiting : v.awaiting = u.awaiting ∨ (v.awaiting = .expression ∧ u.brackets = 0) ∨
    (v.awaiting = .nothing ∧ (u.awaiting = .expression ∨ u.awaiting = .code))

theorem Keeps.rfl : u.Keeps u := ⟨Eq.refl _, Eq.refl _, Eq.refl _, .inl (Eq.refl _)⟩

theorem keeps_dropValue (u : ClassContext) : u.Keeps u.dropValue := by
  unfold dropValue
  split
  · next h => exact ⟨rfl, rfl, rfl, .inr (.inr ⟨rfl, h⟩)⟩
  · exact .rfl

theorem keeps_takeText (u : ClassContext) (hquiet : Quiet text) (hword : isWord text = false) :
    u.Keeps (u.takeText text) := by
  unfold takeText
  rw [hword]
  simp only [Bool.false_eq_true, if_false]
  split
  · next c hc =>
    obtain rfl : text = String.ofList [c] := by rw [← hc, String.ofList_toList]
    unfold takeSymbol?
    split <;> first | exact absurd (by decide) hquiet | skip
    · exact ⟨rfl, rfl, rfl, .inl rfl⟩
    · have h := u.keeps_dropValue
      exact ⟨h.pending, h.brackets, h.memberStart, h.awaiting⟩
    · rw [Option.getD_some]
      split
      · next h =>
        have hzero : u.brackets = 0 := eq_of_beq (Bool.and_eq_true_iff.mp h).2
        exact ⟨rfl, rfl, rfl, .inr (.inl ⟨rfl, hzero⟩)⟩
      · exact .rfl
    · exact u.keeps_dropValue
    · exact .rfl
    · exact .rfl
  · exact .rfl

theorem Holds.of_keeps {v : ClassContext} (h : u.Holds opened body) (hkeeps : u.Keeps v) :
    v.Holds opened body :=
  ⟨hkeeps.pending.trans h.pending, hkeeps.brackets.trans h.brackets,
    hkeeps.memberStart.trans h.memberStart⟩

theorem Free.of_keeps {v : ClassContext} (h : u.Free) (hkeeps : u.Keeps v) : v.Free := by
  unfold Free
  rw [hkeeps.pending]
  rcases hkeeps.awaiting with ha | ⟨ha, _⟩ | ⟨ha, _⟩
  · rw [ha]
    exact h
  · rw [ha]
    exact ⟨Awaited.noConfusion, fun h => Awaited.noConfusion h⟩
  · rw [ha]
    exact ⟨Awaited.noConfusion, fun h => Awaited.noConfusion h⟩

/-! ### Words -/

theorem takeText_word (u : ClassContext) (hword : isWord text = true) :
    u.takeText text = u.takeWord text.toLower := by
  unfold takeText
  rw [if_pos hword]

theorem awaitedBy_eq_none {word : String} (armed : Bool) (h : word ∉ settlingWords) :
    awaitedBy armed word = none := by
  unfold settlingWords at h
  simp only [List.mem_cons, List.not_mem_nil, or_false, not_or] at h
  obtain ⟨hlanguage, hmode, hinitial, hcondition, hcompute⟩ := h
  unfold awaitedBy keywordValueBody?
  simp [hlanguage, hmode, hinitial, hcondition, hcompute]

/-- A word where none is awaited can only be waited for the value of. -/
theorem Free.takeWord_eq (hfree : u.Free) (hstart : u.memberStart = false) (word : String) :
    u.takeWord word = if u.brackets = 0 then u
      else { u with awaiting := (awaitedBy (u.pending != .absent) word).getD u.awaiting } := by
  have hvalue : u.takeValue word = u := by
    unfold takeValue
    cases ha : u.awaiting with
    | language => exact absurd ha hfree.1
    | codeMode => simp [hfree.2 ha]
    | nothing => rfl
    | expression => rfl
    | code => rfl
  have hmember : u.takeMember word = u := by
    unfold takeMember
    rw [hstart]
    rfl
  unfold takeWord
  rw [hvalue, hmember]

/-! ### The header of a member -/

/-- Outside of square brackets nothing says what the brace holds. -/
theorem Holds.foldl_quiet (h : u.Holds 0 body) (hfree : u.Free)
    (hquiet : ∀ t ∈ texts, Quiet t) :
    (texts.foldl takeText u).Holds 0 body ∧ (texts.foldl takeText u).Free := by
  induction texts generalizing u with
  | nil => exact ⟨h, hfree⟩
  | cons t ts ih =>
    have hts := fun t ht => hquiet t (List.mem_cons_of_mem _ ht)
    rw [List.foldl_cons]
    cases hword : isWord t with
    | true =>
      rw [u.takeText_word hword, hfree.takeWord_eq h.memberStart, if_pos h.brackets]
      exact ih h hfree hts
    | false =>
      have hkeeps := u.keeps_takeText (hquiet t List.mem_cons_self) hword
      exact ih (h.of_keeps hkeeps) (hfree.of_keeps hkeeps) hts

/-- Whether a member begins here. -/
structure AtMember (u : ClassContext) : Prop where
  memberStart : u.memberStart = true
  brackets : u.brackets = 0
  awaiting : u.awaiting = .nothing

/-- The keyword of a member arms its body. -/
theorem AtMember.takeText (h : u.AtMember) (hword : isWord text = true)
    (hbody : memberBody? text.toLower = some body) :
    (u.takeText text).Holds 0 body ∧ (u.takeText text).Free := by
  have hvalue : u.takeValue text.toLower = u := by
    unfold takeValue
    rw [h.awaiting]
  have hmember : u.takeMember text.toLower = { u with pending := body, memberStart := false } := by
    unfold takeMember
    rw [if_pos h.memberStart, hbody]
    rfl
  rw [u.takeText_word hword]
  unfold takeWord
  rw [hvalue, hmember, if_pos h.brackets]
  refine ⟨⟨rfl, h.brackets, rfl⟩, ?_⟩
  unfold Free
  dsimp only
  rw [h.awaiting]
  exact ⟨Awaited.noConfusion, fun h => Awaited.noConfusion h⟩

theorem Holds.takeText_opening (h : u.Holds 0 body) (hfree : u.Free) :
    (u.takeText "[").Holds 1 body ∧ (u.takeText "[").Free := by
  have heq : u.takeText "[" = { u with brackets := min (u.brackets + 1) maxBrackets } := rfl
  rw [heq, h.brackets]
  exact ⟨⟨h.pending, rfl, h.memberStart⟩, hfree⟩

theorem Holds.takeText_closing (h : u.Holds 1 body) (hfree : u.Free) :
    (u.takeText "]").Holds 0 body ∧ (u.takeText "]").Free := by
  have heq : u.takeText "]" = { u.dropValue with brackets := u.brackets - 1 } := rfl
  have hkeeps := u.keeps_dropValue
  have h' := h.of_keeps hkeeps
  have hfree' : u.dropValue.Free := hfree.of_keeps hkeeps
  rw [heq, h.brackets]
  exact ⟨⟨h'.pending, rfl, h'.memberStart⟩, hfree'⟩

/-! ### The list of keywords -/

/-- What is waited for is waited for until a word comes. -/
theorem Holds.foldl_gap (h : u.Holds 1 body) (hawaiting : u.awaiting = .language ∨
    u.awaiting = .codeMode) (hgap : ∀ t ∈ texts, Quiet t ∧ isWord t = false) :
    (texts.foldl takeText u).Holds 1 body ∧
      (texts.foldl takeText u).awaiting = u.awaiting := by
  induction texts generalizing u with
  | nil => exact ⟨h, rfl⟩
  | cons t ts ih =>
    obtain ⟨hquiet, hword⟩ := hgap t List.mem_cons_self
    have hkeeps := u.keeps_takeText hquiet hword
    have hsame : (u.takeText t).awaiting = u.awaiting := by
      rcases hkeeps.awaiting with hsame | ⟨_, hzero⟩ | ⟨_, hbraced⟩
      · exact hsame
      · exact absurd (h.brackets.symm.trans hzero) Nat.one_ne_zero
      · rcases hawaiting with ha | ha <;> rw [ha] at hbraced <;>
          exact absurd hbraced (by decide)
    rw [List.foldl_cons, ← hsame]
    exact ih (h.of_keeps hkeeps) (hsame ▸ hawaiting) fun t ht => hgap t (List.mem_cons_of_mem _ ht)

/-- The keyword of a value makes the member wait for it. -/
theorem Holds.awaits (h : u.Holds 1 body) (hfree : u.Free) (hbody : body ≠ .absent)
    (hword : isWord text = true) {a : Awaited} (ha : awaitedBy true text.toLower = some a) :
    (u.takeText text).Holds 1 body ∧ (u.takeText text).awaiting = a := by
  have harmed : (u.pending != .absent) = true := by
    rw [h.pending]
    exact bne_iff_ne.mpr hbody
  rw [u.takeText_word hword, hfree.takeWord_eq h.memberStart, harmed, ha,
    if_neg (h.brackets ▸ Nat.one_ne_zero)]
  exact ⟨⟨h.pending, h.brackets, h.memberStart⟩, rfl⟩

/-- The value of a keyword, which is waited for no longer. -/
theorem Holds.takeText_value {v : ClassContext} (h : u.Holds 1 body) (hword : isWord text = true)
    (hfree : text.toLower ∉ settlingWords) (hvalue : u.takeValue text.toLower = v)
    (hstart : v.memberStart = u.memberStart) :
    u.takeText text = v := by
  have hmember : v.takeMember text.toLower = v := by
    unfold takeMember
    rw [hstart, h.memberStart]
    rfl
  rw [u.takeText_word hword]
  unfold takeWord
  rw [hvalue, hmember, if_neg (h.brackets ▸ Nat.one_ne_zero), awaitedBy_eq_none _ hfree,
    Option.getD_none]

theorem Holds.takeText_language (h : u.Holds 1 body) (hbody : body ≠ .absent)
    (ha : u.awaiting = .language) (hword : isWord text = true)
    (hfree : text.toLower ∉ settlingWords) :
    (u.takeText text).Holds 1 (MemberKeyword.settle body (.language text.toLower)) ∧
      (u.takeText text).Free := by
  have hvalue : u.takeValue text.toLower = { u with
      pending := MemberKeyword.settle body (.language text.toLower), awaiting := .nothing } := by
    unfold takeValue
    rw [ha]
    dsimp only
    rw [if_neg (h.pending ▸ hbody)]
    rfl
  rw [h.takeText_value hword hfree hvalue rfl]
  exact ⟨⟨rfl, h.brackets, h.memberStart⟩, Awaited.noConfusion, fun h => Awaited.noConfusion h⟩

theorem Holds.takeText_codeMode (h : u.Holds 1 body) (hbody : body ≠ .absent)
    (ha : u.awaiting = .codeMode) (hword : isWord text = true)
    (hfree : text.toLower ∉ settlingWords) :
    (u.takeText text).Holds 1 (MemberKeyword.settle body (.codeMode text.toLower)) ∧
      (u.takeText text).Free := by
  by_cases hraw : body = .raw
  · subst hraw
    have hvalue : u.takeValue text.toLower = u := by
      unfold takeValue
      rw [ha, h.pending]
      rfl
    rw [h.takeText_value hword hfree hvalue rfl]
    exact ⟨h, fun hl => Awaited.noConfusion (ha.symm.trans hl), fun _ => h.pending⟩
  · have hvalue : u.takeValue text.toLower = { u with
        pending := MemberKeyword.settle body (.codeMode text.toLower), awaiting := .nothing } := by
      have hcode : u.pending = .code ∨ u.pending = .expr := by
        rw [h.pending]
        cases body with
        | absent => exact absurd rfl hbody
        | code => exact .inl rfl
        | expr => exact .inr rfl
        | raw => exact absurd rfl hraw
      unfold takeValue
      rw [ha]
      dsimp only
      rw [if_pos hcode, MemberKeyword.settle_codeMode, if_neg hraw]
    rw [h.takeText_value hword hfree hvalue rfl]
    exact ⟨⟨rfl, h.brackets, h.memberStart⟩, Awaited.noConfusion, fun h => Awaited.noConfusion h⟩

/-- **A keyword settles the body with its value**, and nothing else does. -/
theorem Holds.foldl_spells {k : MemberKeyword} (h : u.Holds 1 body) (hfree : u.Free)
    (hbody : body ≠ .absent) (hspells : k.Spells texts) :
    (texts.foldl ClassContext.takeText u).Holds 1 (k.settle body) ∧
      (texts.foldl ClassContext.takeText u).Free := by
  cases hspells with
  | @language word value gap hword hname hgap hvalue hfree' =>
    obtain ⟨h₁, ha₁⟩ := h.awaits hfree hbody hword (a := .language) (by rw [hname]; rfl)
    obtain ⟨h₂, ha₂⟩ := h₁.foldl_gap (.inl ha₁) hgap
    rw [List.foldl_append, List.foldl_cons, List.foldl_cons, List.foldl_nil]
    exact h₂.takeText_language hbody (ha₂.trans ha₁) hvalue hfree'
  | @codeMode word value gap hword hname hgap hvalue hfree' =>
    obtain ⟨h₁, ha₁⟩ := h.awaits hfree hbody hword (a := .codeMode) (by rw [hname]; rfl)
    obtain ⟨h₂, ha₂⟩ := h₁.foldl_gap (.inr ha₁) hgap
    rw [List.foldl_append, List.foldl_cons, List.foldl_cons, List.foldl_nil]
    exact h₂.takeText_codeMode hbody (ha₂.trans ha₁) hvalue hfree'
  | @other text hquiet hfree' =>
    rw [List.foldl_cons, List.foldl_nil]
    cases hword : isWord text with
    | true =>
      rw [u.takeText_word hword, hfree.takeWord_eq h.memberStart,
        if_neg (h.brackets ▸ Nat.one_ne_zero), awaitedBy_eq_none _ (hfree' hword), Option.getD_none]
      exact ⟨h, hfree⟩
    | false =>
      have hkeeps := u.keeps_takeText hquiet hword
      exact ⟨h.of_keeps hkeeps, hfree.of_keeps hkeeps⟩

theorem settle_ne_absent {k : MemberKeyword} (hbody : body ≠ .absent) :
    k.settle body ≠ .absent := by
  cases k with
  | language value =>
    rw [MemberKeyword.settle_language]
    split <;> exact BodyKind.noConfusion
  | codeMode value =>
    rw [MemberKeyword.settle_codeMode]
    split
    · exact BodyKind.noConfusion
    · split <;> exact BodyKind.noConfusion
  | other => exact hbody

/-- **What is noted behind a list of keywords.** -/
theorem Holds.foldl_keywords {ks : List MemberKeyword} (h : u.Holds 1 body) (hfree : u.Free)
    (hbody : body ≠ .absent) (hspells : SpellsKeywords texts ks) :
    (texts.foldl ClassContext.takeText u).Holds 1 (ks.foldl MemberKeyword.settle body) ∧
      (texts.foldl ClassContext.takeText u).Free := by
  induction hspells generalizing u body with
  | nil => exact ⟨h, hfree⟩
  | cons hk _ ih =>
    obtain ⟨h', hfree'⟩ := h.foldl_spells hfree hbody hk
    rw [List.foldl_append, List.foldl_cons]
    exact ih h' hfree' (settle_ne_absent hbody)

end ClassContext

/-- The brace of a member, outside of all brackets. -/
theorem Mode.layer_openBrace {m : Mode} {body : BodyKind} (h : m.member.Holds 0 body)
    (hparens : m.member.parens = 0) (hl : m.layer = .udl) : m.openBrace.layer = body.layer := by
  have htop : m.member.atTop = true := by
    unfold ClassContext.atTop
    rw [h.brackets, hparens]
    rfl
  unfold openBrace
  simp only [htop, Bool.not_true, Bool.false_and, Bool.false_eq_true, if_false, h.pending]
  cases body with
  | absent => exact hl
  | code => rfl
  | expr => rfl
  | raw => rfl

theorem ne_brace_of_isWord {text : String} (h : isWord text = true) : text ≠ "\x7b" := by
  rintro rfl
  exact absurd h (by decide)

theorem Quiet.ne_brace {text : String} (h : Quiet text) : text ≠ "\x7b" := by
  rintro rfl
  exact h (by decide)

/-- No keyword of a list has a brace. -/
theorem SpellsKeywords.ne_brace {texts : List String} {ks : List MemberKeyword}
    (h : SpellsKeywords texts ks) : ∀ t ∈ texts, t ≠ "\x7b" := by
  have hvalued : ∀ {word value : String} {gap : List String}, isWord word = true →
      (∀ t ∈ gap, Quiet t ∧ isWord t = false) → isWord value = true →
      ∀ t ∈ word :: gap ++ [value], t ≠ "\x7b" := by
    intro word value gap hword hgap hvalue t ht
    rcases List.mem_append.mp ht with ht | ht
    · rcases List.mem_cons.mp ht with rfl | ht
      · exact ne_brace_of_isWord hword
      · exact (hgap t ht).1.ne_brace
    · obtain rfl := List.mem_singleton.mp ht
      exact ne_brace_of_isWord hvalue
  induction h with
  | nil => exact fun t ht => absurd ht List.not_mem_nil
  | cons hk _ ih =>
    intro t ht
    rcases List.mem_append.mp ht with ht | ht
    · cases hk with
      | language hword _ hgap hvalue => exact hvalued hword hgap hvalue t ht
      | codeMode hword _ hgap hvalue => exact hvalued hword hgap hvalue t ht
      | other hquiet =>
        obtain rfl := List.mem_singleton.mp ht
        exact hquiet.ne_brace
    · exact ih t ht

/-- **The layer behind the brace of a method is a fold over its keywords.**  The method begins where
    a member can begin; its keywords stand in square brackets, its brace outside of all brackets. -/
theorem Lexes.layer_of_body [Limits] {r r' : Reader} {keyword opening closing brace : Token}
    {head list rest : List Token} {keywords : List MemberKeyword}
    (h : Lexes r (keyword :: head ++ opening :: list ++ closing :: rest ++ [brace]) r')
    (hl : r.mode.layer = .udl) (hstart : r.mode.member.AtMember)
    (hword : isWord keyword.text = true) (hkeyword : memberBody? keyword.text.toLower = some .code)
    (hhead : ∀ t ∈ head, Quiet t.text) (hopening : opening.text = "[")
    (hlist : SpellsKeywords (list.map (·.text)) keywords) (hclosing : closing.text = "]")
    (hrest : ∀ t ∈ rest, Quiet t.text) (hbrace : brace.text = "\x7b")
    (hparens : brace.mode.member.parens = 0) :
    r'.mode.layer = (bodyBehind keywords).layer := by
  obtain ⟨r₁, hheader, hopen⟩ := h.split
  obtain ⟨_, hmode⟩ := hopen.head
  -- The header up to the brace has no brace of its own.
  have hne : ∀ t ∈ keyword :: head ++ opening :: list ++ closing :: rest, t.text ≠ "\x7b" := by
    intro t ht
    simp only [List.mem_append, List.mem_cons] at ht
    rcases ht with ((rfl | ht) | rfl | ht) | rfl | ht
    · exact ne_brace_of_isWord hword
    · exact (hhead t ht).ne_brace
    · rw [hopening]
      decide
    · exact hlist.ne_brace _ (List.mem_map_of_mem ht)
    · rw [hclosing]
      decide
    · exact (hrest t ht).ne_brace
  obtain ⟨hl₁, hmember⟩ := hheader.inClass hl hne
  have hquiet : ∀ text ∈ head.map (·.text), Quiet text := List.forall_mem_map.mpr hhead
  have hquiet' : ∀ text ∈ rest.map (·.text), Quiet text := List.forall_mem_map.mpr hrest
  obtain ⟨hnote, hfree⟩ := hstart.takeText hword hkeyword
  obtain ⟨hnote, hfree⟩ := hnote.foldl_quiet hfree hquiet
  obtain ⟨hnote, hfree⟩ := hnote.takeText_opening hfree
  obtain ⟨hnote, hfree⟩ := hnote.foldl_keywords hfree BodyKind.noConfusion hlist
  obtain ⟨hnote, hfree⟩ := hnote.takeText_closing hfree
  obtain ⟨hnote, _⟩ := hnote.foldl_quiet hfree hquiet'
  have hnoted : r₁.mode.member.Holds 0 (bodyBehind keywords) := by
    rw [hmember]
    simp only [List.map_append, List.map_cons, List.foldl_append, List.foldl_cons, hopening,
      hclosing]
    exact hnote
  have hlayer := Mode.layer_openBrace hnoted (hmode ▸ hparens) hl₁
  cases hopen with
  | cons hs hnil =>
    cases hnil
    exact (Token.brace_of_read? hs hl₁ hbrace).trans hlayer

/-! ## The order of keywords -/

namespace MemberKeyword

/-- The language that a keyword names. -/
def language? : MemberKeyword → Option String
  | language value => some value
  | _ => none

/-- The code mode that a keyword names. -/
def codeMode? : MemberKeyword → Option String
  | codeMode value => some value
  | _ => none

end MemberKeyword

/-- The languages that a list of keywords names. -/
def languages (ks : List MemberKeyword) : List String := ks.filterMap MemberKeyword.language?

/-- The code modes that a list of keywords names. -/
def codeModes (ks : List MemberKeyword) : List String := ks.filterMap MemberKeyword.codeMode?

variable {ks ls : List MemberKeyword}

theorem foldl_settle_raw (h : languages ks = []) : ks.foldl MemberKeyword.settle .raw = .raw := by
  induction ks with
  | nil => rfl
  | cons k ks ih =>
    cases k with
    | language => cases h
    | codeMode => exact ih h
    | other => exact ih h

/-- Without a language the last code mode counts. -/
theorem foldl_settle_codeModes {body : BodyKind} (hbody : body ≠ .raw) (h : languages ks = []) :
    ks.foldl MemberKeyword.settle body =
      ((codeModes ks).getLast?.map fun value => if value = "expression" then .expr else .code).getD
        body := by
  induction ks generalizing body with
  | nil => rfl
  | cons k ks ih =>
    cases k with
    | language => cases h
    | codeMode value =>
      have hne : MemberKeyword.settle body (.codeMode value) ≠ .raw := by
        rw [MemberKeyword.settle_codeMode, if_neg hbody]
        split <;> exact BodyKind.noConfusion
      rw [List.foldl_cons, ih hne h, MemberKeyword.settle_codeMode, if_neg hbody]
      have hcons : codeModes (.codeMode value :: ks) = value :: codeModes ks := rfl
      rw [hcons]
      cases hmodes : codeModes ks with
      | nil => rfl
      | cons v vs => rw [List.getLast?_cons_cons]; rfl
    | other => exact ih hbody h

/-- **A language of our own starts over**: what stands in front of it is lost. -/
theorem bodyBehind_native {value : String} (h : isNativeLanguage value = true) :
    bodyBehind (ks ++ .language value :: ls) = bodyBehind ls := by
  unfold bodyBehind
  rw [List.foldl_append, List.foldl_cons, MemberKeyword.settle_language, if_pos h]

/-- A foreign language stands against every code mode. -/
theorem bodyBehind_foreign {value : String} (h : isNativeLanguage value = false)
    (hls : languages ls = []) : bodyBehind (ks ++ .language value :: ls) = .raw := by
  unfold bodyBehind
  rw [List.foldl_append, List.foldl_cons, MemberKeyword.settle_language, if_neg (by simp [h]),
    foldl_settle_raw hls]

/-- What the keywords of a method ask for, in whatever order. -/
def bodyOf (ks : List MemberKeyword) : BodyKind :=
  if (languages ks).any (!isNativeLanguage ·) then .raw
  else if "expression" ∈ codeModes ks then .expr
  else .code

/-- Of at most one code mode the last one is the one that there is. -/
theorem getLast?_codeMode {modes : List String} (hle : modes.length ≤ 1) :
    (modes.getLast?.map fun value => if value = "expression" then BodyKind.expr else .code).getD
      .code = if "expression" ∈ modes then .expr else .code := by
  cases modes with
  | nil => rfl
  | cons v vs =>
    obtain rfl : vs = [] :=
      List.length_eq_zero_iff.mp (Nat.le_zero.mp (Nat.le_of_succ_le_succ hle))
    simp only [List.getLast?_singleton, Option.map_some, Option.getD_some, List.mem_singleton,
      eq_comm (a := "expression")]

theorem codeModes_append_language (ks ls : List MemberKeyword) (value : String) :
    codeModes (ks ++ .language value :: ls) = codeModes ks ++ codeModes ls := by
  unfold codeModes
  rw [List.filterMap_append]
  rfl

/-- **The brace opens what the keywords ask for**, where there is at most one language and at most
    one code mode, and a language of our own does not come together with an expression. -/
theorem bodyBehind_eq_bodyOf (hlanguages : (languages ks).length ≤ 1)
    (hmodes : (codeModes ks).length ≤ 1)
    (hapart : ∀ value ∈ languages ks, isNativeLanguage value = true →
      "expression" ∉ codeModes ks) : bodyBehind ks = bodyOf ks := by
  unfold bodyOf
  cases hnames : languages ks with
  | nil =>
    unfold bodyBehind
    rw [foldl_settle_codeModes BodyKind.noConfusion hnames, getLast?_codeMode hmodes]
    rfl
  | cons value more =>
    obtain ⟨front, k, back, rfl, _, hk, hback⟩ := List.filterMap_eq_cons_iff.mp hnames
    obtain rfl : k = .language value := by
      cases k with
      | language v => exact congrArg MemberKeyword.language (Option.some.inj hk)
      | codeMode => cases hk
      | other => cases hk
    obtain rfl : more = [] := by
      rw [hnames] at hlanguages
      exact List.length_eq_zero_iff.mp (Nat.le_zero.mp (Nat.le_of_succ_le_succ hlanguages))
    simp only [List.any_cons, List.any_nil, Bool.or_false]
    cases hnative : isNativeLanguage value with
    | false =>
      rw [bodyBehind_foreign hnative hback]
      rfl
    | true =>
      -- The expression is not among the code modes, and even less among those behind the language.
      have hno := hapart value (hnames ▸ List.mem_singleton_self _) hnative
      have hno' : "expression" ∉ codeModes back := fun hmem =>
        hno (codeModes_append_language front back value ▸ List.mem_append_right _ hmem)
      have hle : (codeModes back).length ≤ 1 := by
        rw [codeModes_append_language, List.length_append] at hmodes
        omega
      rw [bodyBehind_native hnative]
      unfold bodyBehind
      rw [foldl_settle_codeModes BodyKind.noConfusion hback, getLast?_codeMode hle, if_neg hno',
        if_neg hno]
      rfl

/-- **The order of the keywords does not matter** there. -/
theorem bodyBehind_perm (h : ks.Perm ls) (hlanguages : (languages ks).length ≤ 1)
    (hmodes : (codeModes ks).length ≤ 1)
    (hapart : ∀ value ∈ languages ks, isNativeLanguage value = true →
      "expression" ∉ codeModes ks) : bodyBehind ks = bodyBehind ls := by
  have hl : (languages ks).Perm (languages ls) := h.filterMap _
  have hm : (codeModes ks).Perm (codeModes ls) := h.filterMap _
  have hapart' : ∀ value ∈ languages ls, isNativeLanguage value = true →
      "expression" ∉ codeModes ls := fun value hvalue hnative hmem =>
    hapart value (hl.mem_iff.mpr hvalue) hnative (hm.mem_iff.mpr hmem)
  rw [bodyBehind_eq_bodyOf hlanguages hmodes hapart,
    bodyBehind_eq_bodyOf (hl.length_eq ▸ hlanguages) (hm.length_eq ▸ hmodes) hapart']
  unfold bodyOf
  simp only [hl.any_eq, hm.mem_iff]

/-- Where these two come together, the order decides. -/
example : bodyBehind [.codeMode "expression", .language "cache"] = .code ∧
    bodyBehind [.language "cache", .codeMode "expression"] = .expr := by decide +kernel

end LayeredSyntax
