/-
  MEMBERS — what a member leaves behind for the next one.

  A semicolon outside of all brackets ends a member.  Behind it the class layer stands where it
  stands at the start of a text, but for one note: **a keyword whose value never came is still waited
  for** (`Lexes.mode_behind_member`).  A braced value is given up at the semicolon; the value of a
  language or a code mode is not.

  1. So there are three modes behind a member, one for each note that can be left
     (`ClassContext.leftover_cases`), and whatever else the member was made of is forgotten: two
     members that leave the same note have the same tokens behind them (`Lexes.alike_behind`).
  2. **A note that was left takes the name of the next method for the value**
     (`Lexes.layer_of_leftover`): behind a list with a language and no value the body of the next
     method is read as another language, unless the method is named like one of our own.
-/
import LayeredSyntax.Proofs.Lexicon.Canonical
import LayeredSyntax.Proofs.Token.Bodies

namespace LayeredSyntax

/-! ## The mode behind a member -/

namespace ClassContext

/-- What is still waited for where a member ends. -/
def leftover (u : ClassContext) : Awaited := u.dropValue.awaiting

/-- Behind a member that left a note. -/
def behind (left : Awaited) : ClassContext := ⟨.absent, 0, 0, left, true, false⟩

variable {u : ClassContext}

theorem leftover_eq_nothing_iff :
    u.leftover = .nothing ↔ u.awaiting ≠ .language ∧ u.awaiting ≠ .codeMode := by
  unfold leftover dropValue
  cases h : u.awaiting <;> simp [h]

/-- **Only a language and a code mode are left behind.** -/
theorem leftover_cases (u : ClassContext) :
    u.leftover = .nothing ∨ u.leftover = .language ∨ u.leftover = .codeMode := by
  unfold leftover dropValue
  cases h : u.awaiting <;> simp [h]

/-- A semicolon outside of all brackets. -/
theorem takeText_semicolon (htop : u.atTop = true) (hvalue : u.inValue = false) :
    u.takeText ";" = behind u.leftover := by
  have htake : u.takeText ";" = { u.dropValue with memberStart := true, pending := .absent } := by
    show (if u.atTop then { u.dropValue with memberStart := true, pending := .absent }
      else u.dropValue) = _
    rw [if_pos htop]
  obtain ⟨hbrackets, hparens⟩ := Bool.and_eq_true_iff.mp htop
  have hdrop : u.dropValue = { u with awaiting := u.leftover } := by
    unfold leftover dropValue
    split <;> rfl
  rw [htake, hdrop, hvalue, eq_of_beq hbrackets, eq_of_beq hparens]
  rfl

end ClassContext

/-- The mode behind a member that left a note. -/
def Mode.behindMember (left : Awaited) : Mode := inClass (.behind left)

/-- A text begins as if behind a member that left nothing. -/
theorem Mode.udl_eq_behindMember : Mode.udl = behindMember .nothing := rfl

namespace Lexes

variable {r r' : Reader} {ts : List Token}

/-- Reading goes from canonical modes to canonical modes. -/
theorem canonical [Limits] (h : Lexes r ts r') (hm : r.mode.Canonical) : r'.mode.Canonical := by
  induction h with
  | nil => exact hm
  | @cons p m cs s ts r hs _ ih =>
    unfold Token.read? at hs
    obtain ⟨a, ha, rfl⟩ := Option.map_eq_some_iff.mp hs
    exact ih (hm.scan? ha)

/-- **Behind a member** the mode depends on the note that was left, and on nothing else. -/
theorem mode_behind_member [Limits] {text : List Char} {t : Token}
    (h : Lexes (.atStart .udl text) (ts ++ [t]) r) (htext : t.text = ";")
    (hl : t.mode.layer = .udl) (htop : t.mode.member.atTop = true) :
    r.mode = .behindMember t.mode.member.leftover := by
  obtain ⟨r₁, hts, ht⟩ := h.split
  obtain ⟨_, hmode⟩ := ht.head
  rw [hmode] at hl htop ⊢
  have hcanonical := hts.canonical Mode.udl_canonical
  have hend := ht.canonical hcanonical
  have hbrace : ∀ u ∈ [t], u.text ≠ "\x7b" := by
    intro u hu
    rw [List.mem_singleton.mp hu, htext]
    decide
  obtain ⟨hlayer, hmember⟩ := ht.inClass hl hbrace
  rw [List.map_singleton, List.foldl_cons, List.foldl_nil, htext,
    ClassContext.takeText_semicolon htop (hcanonical.inValue_eq (.inl hl))] at hmember
  rw [hend.eq_inClass hlayer, hmember]
  rfl

/-- **Members that leave the same note are told apart by nothing behind them**: the same
    characters are the same tokens there, moved. -/
theorem alike_behind [Limits] {text₁ text₂ : List Char} {ts₁ ts₂ us : List Token} {t₁ t₂ : Token}
    {r₁ r₂ : Reader} (h₁ : Lexes (.atStart .udl text₁) (ts₁ ++ [t₁]) r₁)
    (h₂ : Lexes (.atStart .udl text₂) (ts₂ ++ [t₂]) r₂)
    (ht₁ : t₁.text = ";" ∧ t₁.mode.layer = .udl ∧ t₁.mode.member.atTop = true)
    (ht₂ : t₂.text = ";" ∧ t₂.mode.layer = .udl ∧ t₂.mode.member.atTop = true)
    (hleft : t₁.mode.member.leftover = t₂.mode.member.leftover) (hahead : r₁.ahead = r₂.ahead)
    (h : Lexes r₁ us r) : ∃ us' r', Lexes r₂ us' r' ∧ r'.mode = r.mode ∧ r'.ahead = r.ahead ∧
      List.Forall₂ (Token.MovedBy (r₂.place.offset - r₁.place.offset)) us us' := by
  have hmode₁ := h₁.mode_behind_member ht₁.1 ht₁.2.1 ht₁.2.2
  have hmode₂ := h₂.mode_behind_member ht₂.1 ht₂.2.1 ht₂.2.2
  obtain ⟨us', q, hus', hmoved⟩ := h.moved r₂.place
  rw [hmode₁, hleft, ← hmode₂, hahead] at hus'
  exact ⟨us', { r with place := q }, hus', rfl, rfl, hmoved⟩

end Lexes

/-! ## What a note does to the next member -/

/-- What the brace of a method holds behind the note that was left and the name of the method. -/
def Awaited.bodyNamed (left : Awaited) (name : String) : BodyKind :=
  match left with
  | .language => if isNativeLanguage name then .code else .raw
  | .codeMode => if name = "expression" then .expr else .code
  | _ => .code

/-- White space and comments. -/
def Spacing (text : String) : Prop :=
  ∃ c cs, text = String.ofList (c :: cs) ∧ (isBlank c = true ∨ c = '/')

theorem Spacing.ne_brace {text : String} (h : Spacing text) : text ≠ "\x7b" := by
  obtain ⟨c, cs, rfl, hc⟩ := h
  intro heq
  obtain ⟨rfl, _⟩ := List.cons.inj (String.ofList_injective heq : c :: cs = ['{'])
  rcases hc with hc | hc
  · exact absurd hc (by decide)
  · exact absurd hc (by decide)

namespace ClassContext

/-- Nothing is noted of white space and comments. -/
theorem takeText_spacing (u : ClassContext) {text : String} (h : Spacing text) :
    u.takeText text = u := by
  obtain ⟨c, cs, rfl, hc⟩ := h
  have hsymbol : c ∉ classSymbols := by
    intro hmem
    rcases hc with hc | rfl
    · exact Bool.noConfusion (hc.symm.trans (classSymbols_apart c hmem).1)
    · exact absurd hmem (by decide)
  refine takeText_of_none (hc.imp_right ?_) (takeSymbol?_eq_none hsymbol)
  rintro rfl
  decide

theorem foldl_spacing (u : ClassContext) {texts : List String} (h : ∀ t ∈ texts, Spacing t) :
    texts.foldl takeText u = u := by
  induction texts with
  | nil => rfl
  | cons t ts ih =>
    rw [List.foldl_cons, u.takeText_spacing (h t List.mem_cons_self)]
    exact ih fun t ht => h t (List.mem_cons_of_mem _ ht)

/-- The keyword of a method arms its body, and what was left is still waited for. -/
theorem takeText_behind {left : Awaited} {keyword : String} (hword : isWord keyword = true)
    (hkeyword : memberBody? keyword.toLower = some .code) :
    (behind left).takeText keyword = ⟨.code, 0, 0, left, false, false⟩ := by
  have hvalue : (behind left).takeValue keyword.toLower = behind left := by
    cases left <;> rfl
  rw [takeText_word _ hword]
  unfold takeWord
  rw [hvalue]
  unfold takeMember
  rw [hkeyword]
  rfl

/-- **The name of the method is taken for the value that is waited for.** -/
theorem takeText_leftover (left : Awaited) {name : String} (hword : isWord name = true) :
    (takeText ⟨.code, 0, 0, left, false, false⟩ name).Holds 0 (left.bodyNamed name.toLower) ∧
      (takeText ⟨.code, 0, 0, left, false, false⟩ name).Free := by
  have hfree : ∀ body, Free ⟨body, 0, 0, .nothing, false, false⟩ := fun _ =>
    ⟨Awaited.noConfusion, fun h => Awaited.noConfusion h⟩
  rw [takeText_word _ hword]
  cases left with
  | language => exact ⟨⟨rfl, rfl, rfl⟩, hfree _⟩
  | codeMode => exact ⟨⟨rfl, rfl, rfl⟩, hfree _⟩
  | nothing => exact ⟨⟨rfl, rfl, rfl⟩, hfree _⟩
  | expression =>
    exact ⟨⟨rfl, rfl, rfl⟩, Awaited.noConfusion, fun h => Awaited.noConfusion h⟩
  | code => exact ⟨⟨rfl, rfl, rfl⟩, Awaited.noConfusion, fun h => Awaited.noConfusion h⟩

end ClassContext

/-- **The body of a method behind a member**, where nothing in square brackets settles it: commands,
    unless a note that was left takes the name of the method for something else. -/
theorem Lexes.layer_of_leftover [Limits] {r r' : Reader} {keyword name brace : Token}
    {gap rest : List Token} {left : Awaited}
    (h : Lexes r (keyword :: gap ++ name :: rest ++ [brace]) r') (hmode : r.mode = .behindMember left)
    (hword : isWord keyword.text = true) (hkeyword : memberBody? keyword.text.toLower = some .code)
    (hgap : ∀ t ∈ gap, Spacing t.text) (hname : isWord name.text = true)
    (hrest : ∀ t ∈ rest, Quiet t.text) (hbrace : brace.text = "\x7b")
    (hparens : brace.mode.member.parens = 0) :
    r'.mode.layer = (left.bodyNamed name.text.toLower).layer := by
  obtain ⟨r₁, hheader, hopen⟩ := h.split
  obtain ⟨_, hmode₁⟩ := hopen.head
  have hne : ∀ t ∈ keyword :: gap ++ name :: rest, t.text ≠ "\x7b" := by
    intro t ht
    simp only [List.mem_append, List.mem_cons] at ht
    rcases ht with (rfl | ht) | rfl | ht
    · exact ne_brace_of_isWord hword
    · exact (hgap t ht).ne_brace
    · exact ne_brace_of_isWord hname
    · exact (hrest t ht).ne_brace
  obtain ⟨hl₁, hmember⟩ := hheader.inClass (by rw [hmode]; rfl) hne
  have hspacing : ∀ text ∈ gap.map (·.text), Spacing text := List.forall_mem_map.mpr hgap
  have hquiet : ∀ text ∈ rest.map (·.text), Quiet text := List.forall_mem_map.mpr hrest
  obtain ⟨hnote, hfree⟩ := ClassContext.takeText_leftover left hname
  obtain ⟨hnote, _⟩ := hnote.foldl_quiet hfree hquiet
  have hnoted : r₁.mode.member.Holds 0 (left.bodyNamed name.text.toLower) := by
    rw [hmember, hmode]
    simp only [List.map_append, List.map_cons, List.foldl_append, List.foldl_cons]
    show ClassContext.Holds (((rest.map (·.text)).foldl ClassContext.takeText
      (((gap.map (·.text)).foldl ClassContext.takeText
        ((ClassContext.behind left).takeText keyword.text)).takeText name.text))) _ _
    rw [ClassContext.takeText_behind hword hkeyword, ClassContext.foldl_spacing _ hspacing]
    exact hnote
  have hlayer := Mode.layer_openBrace hnoted (hmode₁ ▸ hparens) hl₁
  cases hopen with
  | cons hs hnil =>
    cases hnil
    exact (Token.brace_of_read? hs hl₁ hbrace).trans hlayer

/-- A list that names no value for the language leaves it to the name of the next method. -/
example : (["Method", " ", "A", "[", "Language", "]", ";"].foldl ClassContext.takeText
      Mode.udl.member) = .behind .language ∧
    Awaited.language.bodyNamed "b" = .raw ∧ Awaited.nothing.bodyNamed "b" = .code := by
  decide +kernel

end LayeredSyntax
