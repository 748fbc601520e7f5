/-
  TOKENS SIDE BY SIDE — the tokens of a text cut the text into pieces.

  Reading a text takes its characters away from the front, piece by piece, and the place moves on by
  what was taken.  `Cut` says just this of a list of tokens: each takes some characters, its text is
  these characters, and it stands where they stand.

  From a cut it follows that the tokens lie side by side (`Cut.tiles`), that the bytes that a token
  marks off in the text are its own text (`Cut.slice`), and that the texts of all tokens one behind
  the other are the whole text (`Cut.join`).
-/
import LayeredSyntax.Proofs.Tree.Reading
import LayeredSyntax.Token.Tokenize

namespace LayeredSyntax

/-- **Whether tokens cut some characters into pieces**, from a place on. -/
inductive Cut : Position → List Char → List Token → Prop where
  | nil (p : Position) : Cut p [] []
  | cons {p : Position} {text rest : List Char} {m : Mode} {kind : TokenKind} {tokens : List Token}
      (hne : text ≠ []) (h : Cut (p.after text) rest tokens) :
      Cut p (text ++ rest) (⟨kind, String.ofList text, ⟨p, p.after text⟩, m⟩ :: tokens)

/-! ## Reading cuts a text -/

section

variable [Limits]

/-- Reading one token takes some characters. -/
theorem Token.read?_spec {p : Position} {m : Mode} {cs : List Char} {s : TokenStep}
    (h : Token.read? p m cs = some s) : ∃ kind text, text ≠ [] ∧ cs = text ++ s.rest ∧
      s.token = ⟨kind, String.ofList text, ⟨p, p.after text⟩, m⟩ := by
  unfold Token.read? at h
  obtain ⟨r, hr, rfl⟩ := Option.map_eq_some_iff.mp h
  refine ⟨r.kind, cs.take r.length, fun hnil => ?_, (List.take_append_drop _ _).symm, rfl⟩
  rcases List.take_eq_nil_iff.mp hnil with hzero | rfl
  · exact absurd (scan?_length_pos hr) (by omega)
  · cases hr

/-- Only at the end of a text no token is read. -/
theorem Token.eq_nil_of_read?_eq_none {p : Position} {m : Mode} {cs : List Char}
    (h : Token.read? p m cs = none) : cs = [] := by
  cases cs with
  | nil => rfl
  | cons c cs => cases h

/-- **Reading a text cuts it into pieces.** -/
theorem cut_tokenizeFrom (done : Array Token) (p : Position) (m : Mode) (cs : List Char) :
    ∃ tokens, (tokenizeFrom done p m cs).toList = done.toList ++ tokens ∧ Cut p cs tokens := by
  fun_induction tokenizeFrom done p m cs with
  | case1 done p m cs hbound =>
    refine ⟨[overflowToken p m cs], Array.toList_push, ?_⟩
    have hcut : Cut p (cs ++ []) [overflowToken p m cs] := .cons hbound.2 (.nil _)
    rwa [List.append_nil] at hcut
  | case2 done p m cs _ hnone =>
    obtain rfl := Token.eq_nil_of_read?_eq_none hnone
    exact ⟨[], (List.append_nil _).symm, .nil _⟩
  | case3 done p m cs _ s hs _ ih =>
    obtain ⟨tokens, htokens, hcut⟩ := ih
    obtain ⟨kind, text, hne, rfl, htoken⟩ := Token.read?_spec hs
    rw [htoken] at htokens hcut
    refine ⟨⟨kind, String.ofList text, ⟨p, p.after text⟩, m⟩ :: tokens, ?_, .cons hne hcut⟩
    rw [htoken, htokens, Array.toList_push, List.append_assoc]
    rfl

theorem cut_tokenize (m : Mode) (text : String) :
    Cut .origin text.toList (tokenize m text).toList := by
  obtain ⟨tokens, htokens, hcut⟩ := cut_tokenizeFrom #[] .origin m text.toList
  unfold tokenize
  rw [htokens]
  exact hcut

end

/-! ## What a cut is like -/

variable {p : Position} {cs : List Char} {tokens : List Token}

/-- Only of nothing there are no tokens. -/
theorem Cut.eq_nil_iff (h : Cut p cs tokens) : tokens = [] ↔ cs = [] := by
  cases h with
  | nil => exact ⟨fun _ => rfl, fun _ => rfl⟩
  | cons hne _ =>
    exact ⟨fun h => absurd h (List.cons_ne_nil _ _),
      fun h => absurd (List.append_eq_nil_iff.mp h).1 hne⟩

/-- Cuts one behind the other. -/
theorem Cut.append {ds : List Char} {more : List Token} (h : Cut p cs tokens)
    (h' : Cut (p.after cs) ds more) : Cut p (cs ++ ds) (tokens ++ more) := by
  induction h with
  | nil => exact h'
  | cons hne _ ih =>
    rw [Position.after_append] at h'
    rw [List.append_assoc]
    exact .cons hne (ih h')

/-- Some tokens at the front of a cut take a front of the characters. -/
theorem Cut.split {more : List Token} (h : Cut p cs (tokens ++ more)) : ∃ front back,
    cs = front ++ back ∧ Cut p front tokens ∧ Cut (p.after front) back more := by
  induction tokens generalizing p cs with
  | nil => exact ⟨[], cs, rfl, .nil p, h⟩
  | cons t tokens ih =>
    cases h with
    | @cons _ text rest _ _ _ hne h =>
      obtain ⟨front, back, rfl, hfront, hback⟩ := ih h
      refine ⟨text ++ front, back, (List.append_assoc ..).symm, .cons hne hfront, ?_⟩
      rwa [Position.after_append]

theorem Cut.start_of_head? {t : Token} (h : Cut p cs tokens) (ht : tokens.head? = some t) :
    t.start = p.offset := by
  cases h with
  | nil => cases ht
  | cons _ _ =>
    cases ht
    rfl

theorem Cut.stop_of_getLast? {t : Token} (h : Cut p cs tokens) (ht : tokens.getLast? = some t) :
    t.stop = (p.after cs).offset := by
  obtain ⟨init, rfl⟩ := List.getLast?_eq_some_iff.mp ht
  obtain ⟨front, back, rfl, _, hback⟩ := h.split
  cases hback with
  | @cons _ text rest _ _ _ _ hnil =>
    cases hnil
    rw [Position.after_append, List.append_nil]
    rfl

/-- The tokens of a cut stand side by side. -/
theorem Cut.tiles (h : Cut p cs tokens) : Tiles p.offset tokens := by
  induction h with
  | nil => trivial
  | @cons p text rest m kind tokens hne _ ih =>
    have hsize : Token.size ⟨kind, String.ofList text, ⟨p, p.after text⟩, m⟩ = width text := by
      show (p.after text).offset - p.offset = _
      rw [Position.after_offset, Nat.add_sub_cancel_left]
    refine ⟨rfl, ?_, ?_⟩
    · rw [hsize]
      exact Position.after_offset p text
    · rw [hsize, ← Position.after_offset]
      exact ih

/-- What stands between two places of a text. -/
theorem sliceBytes?_of_append {cs before inside behind : List Char}
    (h : cs = before ++ (inside ++ behind)) :
    sliceBytes? (width before) (width (before ++ inside)) cs = some inside := by
  unfold sliceBytes?
  rw [h, splitAtByte?_width_append]
  show (if _ then none else _) = some inside
  rw [width_append, if_neg (by omega), Nat.add_sub_cancel_left, splitAtByte?_width_append]
  rfl

/-- **The bytes that a token marks off are its text.** -/
theorem Cut.slice (h : Cut p cs tokens) : ∀ {source : String} {before : List Char},
    source.toList = before ++ cs → p.offset = width before →
      ∀ t ∈ tokens, sliceText source t.start t.stop = t.text := by
  induction h with
  | nil => exact fun _ _ t ht => absurd ht List.not_mem_nil
  | @cons p text rest m kind tokens _ _ ih =>
    intro source before hsource hoffset t ht
    have hafter : (p.after text).offset = width (before ++ text) := by
      rw [Position.after_offset, hoffset, width_append]
    rcases List.mem_cons.mp ht with rfl | ht
    · have hbytes : sliceBytes? p.offset (p.after text).offset source.toList = some text := by
        rw [hoffset, hafter]
        exact sliceBytes?_of_append hsource
      show sliceText source p.offset (p.after text).offset = String.ofList text
      unfold sliceText
      rw [hbytes]
    · exact ih (by rw [hsource, List.append_assoc]) hafter t ht

/-- **The texts of the tokens are the whole text.** -/
theorem Cut.join (h : Cut p cs tokens) :
    String.join (tokens.map (·.text)) = String.ofList cs := by
  induction h with
  | nil => rfl
  | cons _ _ ih => rw [List.map_cons, String.join_cons, ih, String.ofList_append]

/-! ## The texts of places -/

/-- What stands between two bytes is cut out of the text. -/
theorem sliceBytes?_spec {cs inner : List Char} {start stop : Nat}
    (h : sliceBytes? start stop cs = some inner) :
    width inner = stop - start ∧ ∃ before rest, cs = before ++ (inner ++ rest) := by
  unfold sliceBytes? at h
  obtain ⟨⟨before, tail⟩, hbefore, h⟩ := Option.bind_eq_some_iff.mp h
  dsimp only at h
  split at h
  · cases h
  · obtain ⟨⟨inside, rest⟩, hinside, h⟩ := Option.bind_eq_some_iff.mp h
    cases h
    obtain ⟨rfl, hwidth⟩ := splitAtByte?_eq_some_iff.mp hinside
    exact ⟨hwidth, before, rest, (splitAtByte?_eq_some_iff.mp hbefore).1⟩

/-- Nothing stands between a byte and itself. -/
theorem sliceText_self (source : String) (n : Nat) : sliceText source n n = "" := by
  unfold sliceText
  split
  · next inner h =>
    rw [width_eq_zero_iff.mp ((sliceBytes?_spec h).1.trans (Nat.sub_self n)), String.ofList_nil]
  · rfl

/-- Nothing stands in the empty text. -/
theorem sliceText_empty (start stop : Nat) : sliceText "" start stop = "" := by
  unfold sliceText
  split
  · next inner h =>
    obtain ⟨_, before, rest, hnil⟩ := sliceBytes?_spec h
    have hinner := (List.append_eq_nil_iff.mp (List.append_eq_nil_iff.mp hnil.symm).2).1
    rw [hinner, String.ofList_nil]
  · rfl

/-- Places that spell tokens have their texts. -/
theorem Table.Spells.join {t : Table} {ls : List Place} (h : t.Spells ls tokens) (source : String)
    (hslice : ∀ x ∈ tokens, sliceText source x.start x.stop = x.text) :
    String.join (ls.map (·.text source)) = String.join (tokens.map (·.text)) := by
  induction h with
  | nil => rfl
  | @token l x ls tokens _ hstart hstop _ ih =>
    have htext : l.text source = x.text := by
      show sliceText source l.start l.stop = x.text
      rw [hstart, hstop]
      exact hslice x List.mem_cons_self
    rw [List.map_cons, List.map_cons, String.join_cons, String.join_cons, htext,
      ih fun y hy => hslice y (List.mem_cons_of_mem _ hy)]
  | @missing l ls tokens _ hsize _ ih =>
    have htext : l.text source = "" := by
      show sliceText source l.start (l.start + l.node.size) = ""
      rw [hsize]
      exact sliceText_self source l.start
    rw [List.map_cons, String.join_cons, htext, ih hslice, String.empty_append]

end LayeredSyntax
