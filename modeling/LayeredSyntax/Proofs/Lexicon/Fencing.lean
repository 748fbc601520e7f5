/-
  FENCING — what a raw region takes.

  Inside a fence nothing is known about the language but that its brackets balance.  `Balanced` says so
  without a counter: a balanced text is put together from single characters, from quoted stretches and
  from balanced texts between an opener and a closer.

  1. **The counter passes a balanced text as if it were not there** (`Balanced.rawLength_append`), so a
     region goes on to the first closer behind it.
  2. **The crux (`unwinds_of_rawLength`)**: with `depth` brackets open, what is passed up to the closer
     of the fence is `depth + 1` balanced texts with a closer between each two of them (`Unwinds`).  Every
     closer inside takes one bracket off and one text with it, so the counter never falls below zero.
  3. A step into the raw layer is neither trivia nor a command, and so it keeps no block open
     (`scan?_raw_keepsNoBlock`).

  With no bracket open there is one text, the region itself (`scan?_fenced`).
-/
import LayeredSyntax.Proofs.Lexicon.Canonical

namespace LayeredSyntax

/-! ## Balanced texts -/

/-- **A balanced text** for a kind of fence. -/
inductive Balanced (kind : FenceKind) : List Char → Prop
  | nil : Balanced kind []
  /-- A character that means nothing to the fence. -/
  | plain {c : Char} {cs : List Char} (hopener : c ≠ kind.opener) (hcloser : c ≠ kind.closer)
      (hquote : kind.quotes c = false) (h : Balanced kind cs) : Balanced kind (c :: cs)
  /-- A quoted stretch: from a mark to its next occurrence. -/
  | quoted {mark : Char} {body cs : List Char} (hquote : kind.quotes mark = true)
      (hbody : mark ∉ body) (h : Balanced kind cs) : Balanced kind (mark :: (body ++ mark :: cs))
  /-- A balanced text between brackets. -/
  | nested {body cs : List Char} (hbody : Balanced kind body) (h : Balanced kind cs) :
      Balanced kind (kind.opener :: (body ++ kind.closer :: cs))

variable {kind : FenceKind}

namespace FenceKind

theorem quotes_opener (kind : FenceKind) : kind.quotes kind.opener = false := by
  cases kind <;> decide

theorem quotes_closer (kind : FenceKind) : kind.quotes kind.closer = false := by
  cases kind <;> decide

theorem opener_ne_closer (kind : FenceKind) : kind.opener ≠ kind.closer := by
  cases kind <;> decide

end FenceKind

namespace Balanced

/-- Balanced texts can be put one behind the other. -/
theorem append {cs ds : List Char} (hcs : Balanced kind cs) (hds : Balanced kind ds) :
    Balanced kind (cs ++ ds) := by
  induction hcs with
  | nil => exact hds
  | plain hopener hcloser hquote _ ih => exact .plain hopener hcloser hquote ih
  | quoted hquote hbody _ ih =>
    rw [List.cons_append, List.append_assoc, List.cons_append]
    exact .quoted hquote hbody ih
  | nested hbody _ _ ih =>
    rw [List.cons_append, List.append_assoc, List.cons_append]
    exact .nested hbody ih

/-- A balanced text does not begin with the closer. -/
theorem head?_ne {cs : List Char} (h : Balanced kind cs) : cs.head? ≠ some kind.closer := by
  cases h with
  | nil => exact nofun
  | plain _ hcloser _ _ => exact fun heq => hcloser (Option.some.inj heq)
  | quoted hquote _ _ =>
    intro heq
    obtain rfl := Option.some.inj heq
    rw [kind.quotes_closer] at hquote
    cases hquote
  | nested _ _ => exact fun heq => kind.opener_ne_closer (Option.some.inj heq)

end Balanced

/-! ## Passing balanced texts -/

section

variable (depth n : Nat) (rest : List Char)

theorem rawLength_quote {mark : Char} (hquote : kind.quotes mark = true) :
    rawLength kind none depth n (mark :: rest) = rawLength kind (some mark) depth (n + 1) rest := by
  rw [rawLength.eq_def]
  exact if_pos hquote

theorem rawLength_opener : rawLength kind none depth n (kind.opener :: rest) =
    rawLength kind none (depth + 1) (n + 1) rest := by
  rw [rawLength.eq_def]
  dsimp only
  rw [if_neg (Bool.eq_false_iff.mp kind.quotes_opener), if_neg kind.opener_ne_closer, if_pos rfl]

theorem rawLength_closer : rawLength kind none (depth + 1) n (kind.closer :: rest) =
    rawLength kind none depth (n + 1) rest := by
  rw [rawLength, if_neg (Bool.eq_false_iff.mp kind.quotes_closer), if_pos rfl]

theorem rawLength_fence : rawLength kind none 0 n (kind.closer :: rest) = some n := by
  rw [rawLength, if_neg (Bool.eq_false_iff.mp kind.quotes_closer), if_pos rfl]

theorem rawLength_plain {c : Char} (hopener : c ≠ kind.opener) (hcloser : c ≠ kind.closer)
    (hquote : kind.quotes c = false) :
    rawLength kind none depth n (c :: rest) = rawLength kind none depth (n + 1) rest := by
  rw [rawLength.eq_def]
  dsimp only
  rw [if_neg (Bool.eq_false_iff.mp hquote), if_neg hcloser, if_neg hopener]

/-- A quoted stretch is passed up to the next occurrence of its mark. -/
theorem rawLength_quoted {mark : Char} {body : List Char} (hbody : mark ∉ body) :
    rawLength kind (some mark) depth n (body ++ mark :: rest) =
      rawLength kind none depth (n + body.length + 1) rest := by
  induction body generalizing n with
  | nil => rw [List.nil_append, rawLength, if_pos rfl]; rfl
  | cons c body ih =>
    obtain ⟨hc, hbody⟩ := not_or.mp (mt List.mem_cons.mpr hbody)
    rw [List.cons_append, rawLength, if_neg (Ne.symm hc), ih _ hbody, List.length_cons]
    congr 1
    omega

end

/-- **A balanced text is passed as if it were not there**, whatever brackets are open. -/
theorem Balanced.rawLength_append {cs : List Char} (h : Balanced kind cs) (depth n : Nat)
    (rest : List Char) :
    rawLength kind none depth n (cs ++ rest) = rawLength kind none depth (n + cs.length) rest := by
  induction h generalizing depth n rest with
  | nil => rfl
  | plain hopener hcloser hquote _ ih =>
    rw [List.cons_append, rawLength_plain _ _ _ hopener hcloser hquote, ih, List.length_cons]
    congr 1
    omega
  | quoted hquote hbody _ ih =>
    rw [List.cons_append, List.append_assoc, List.cons_append, rawLength_quote _ _ _ hquote,
      rawLength_quoted _ _ _ hbody, ih]
    congr 1
    simp only [List.length_cons, List.length_append]
    omega
  | nested _ _ ihbody ih =>
    rw [List.cons_append, List.append_assoc, List.cons_append, rawLength_opener, ihbody,
      rawLength_closer, ih]
    congr 1
    simp only [List.length_cons, List.length_append]
    omega

/-! ## What is passed -/

/-- Balanced texts, one more than there are open brackets, with a closer between each two. -/
def Unwinds (kind : FenceKind) : Nat → List Char → Prop
  | 0, cs => Balanced kind cs
  | depth + 1, cs => ∃ front back, cs = front ++ kind.closer :: back ∧ Balanced kind front ∧
      Unwinds kind depth back

/-- A balanced text can be put in front. -/
theorem Unwinds.prepend {depth : Nat} {front cs : List Char} (hfront : Balanced kind front)
    (h : Unwinds kind depth cs) : Unwinds kind depth (front ++ cs) := by
  cases depth with
  | zero => exact hfront.append h
  | succ depth =>
    obtain ⟨first, back, rfl, hfirst, hback⟩ := h
    exact ⟨front ++ first, back, (List.append_assoc _ _ _).symm, hfront.append hfirst, hback⟩

/-- What is passed from inside a quoted stretch, or from outside of any. -/
def UnwindsFrom (kind : FenceKind) (quote : Option Char) (depth : Nat) (cs : List Char) : Prop :=
  match quote with
  | none => Unwinds kind depth cs
  | some mark => ∃ body back, cs = body ++ mark :: back ∧ mark ∉ body ∧ Unwinds kind depth back

/-- One more character of a quoted stretch; its mark ends it. -/
theorem UnwindsFrom.cons {mark c : Char} {depth : Nat} {cs : List Char}
    (h : UnwindsFrom kind (if c = mark then none else some mark) depth cs) :
    UnwindsFrom kind (some mark) depth (c :: cs) := by
  by_cases hc : c = mark
  · rw [if_pos hc] at h
    exact ⟨[], cs, by rw [hc, List.nil_append], List.not_mem_nil, h⟩
  · rw [if_neg hc] at h
    obtain ⟨body, back, rfl, hbody, hback⟩ := h
    refine ⟨c :: body, back, rfl, ?_, hback⟩
    rw [List.mem_cons, not_or]
    exact ⟨Ne.symm hc, hbody⟩

/-- **Up to the closer of the fence** every open bracket is closed. -/
theorem unwinds_of_rawLength {quote : Option Char} {depth n r : Nat} {cs : List Char}
    (h : rawLength kind quote depth n cs = some r) :
    ∃ passed rest, cs = passed ++ kind.closer :: rest ∧ r = n + passed.length ∧
      UnwindsFrom kind quote depth passed := by
  -- By the number of characters passed, one case for each thing that the counter does with one.
  have hstep : ∀ {c : Char} {cs passed rest : List Char} {n r : Nat},
      cs = passed ++ kind.closer :: rest → r = n + 1 + passed.length →
      c :: cs = (c :: passed) ++ kind.closer :: rest ∧ r = n + (c :: passed).length := by
    rintro c cs passed rest n r rfl rfl
    refine ⟨rfl, ?_⟩
    rw [List.length_cons]
    omega
  fun_induction rawLength kind quote depth n cs with
  | case1 => cases h
  | case2 depth n c cs mark ih =>
    obtain ⟨passed, rest, hcs, hr, hpassed⟩ := ih h
    obtain ⟨hcs, hr⟩ := hstep (c := c) hcs hr
    exact ⟨_, rest, hcs, hr, hpassed.cons⟩
  | case3 depth n c cs hquote ih =>
    obtain ⟨passed, rest, hcs, hr, body, back, rfl, hbody, hback⟩ := ih h
    obtain ⟨hcs, hr⟩ := hstep (c := c) hcs hr
    refine ⟨_, rest, hcs, hr, ?_⟩
    have hfront : c :: (body ++ c :: back) = (c :: (body ++ [c])) ++ back := by
      rw [List.cons_append, List.append_assoc, List.singleton_append]
    show Unwinds kind depth (c :: (body ++ c :: back))
    rw [hfront]
    exact hback.prepend (.quoted hquote hbody .nil)
  | case4 n cs hquote =>
    obtain rfl := Option.some.inj h
    exact ⟨[], cs, rfl, rfl, .nil⟩
  | case5 n cs hquote depth ih =>
    obtain ⟨passed, rest, hcs, hr, hpassed⟩ := ih h
    obtain ⟨hcs, hr⟩ := hstep (c := kind.closer) hcs hr
    exact ⟨_, rest, hcs, hr, [], passed, rfl, .nil, hpassed⟩
  | case6 depth n cs hquote hcloser ih =>
    obtain ⟨passed, rest, hcs, hr, front, back, rfl, hfront, hback⟩ := ih h
    obtain ⟨hcs, hr⟩ := hstep (c := kind.opener) hcs hr
    refine ⟨_, rest, hcs, hr, ?_⟩
    have hbrackets : kind.opener :: (front ++ kind.closer :: back) =
        (kind.opener :: (front ++ [kind.closer])) ++ back := by
      rw [List.cons_append, List.append_assoc, List.singleton_append]
    show Unwinds kind depth (kind.opener :: (front ++ kind.closer :: back))
    rw [hbrackets]
    exact hback.prepend (.nested hfront .nil)
  | case7 depth n c cs hquote hcloser hopener ih =>
    obtain ⟨passed, rest, hcs, hr, hpassed⟩ := ih h
    obtain ⟨hcs, hr⟩ := hstep (c := c) hcs hr
    have hplain : Balanced kind [c] :=
      .plain hopener hcloser (Bool.eq_false_iff.mpr hquote) .nil
    exact ⟨_, rest, hcs, hr, hpassed.prepend hplain⟩

/-! ## Steps in a region -/

namespace Mode

/-- The same mode with no block kept open for a command. -/
def withoutBlock (m : Mode) : Mode := { m with blockCommand := false }

theorem withoutBlock_eq_self {m : Mode} (h : m.blockCommand = false) : m.withoutBlock = m := by
  unfold withoutBlock
  rw [← h]

theorem closeFence_fence (m : Mode) (fence : Fence) : (m.closeFence fence).fence = none := by
  unfold closeFence
  dsimp only
  split <;> rfl

theorem closeFence_layer (m : Mode) (fence : Fence) :
    (m.closeFence fence).layer = fence.resume := by
  unfold closeFence
  dsimp only
  split
  · next hresume => rw [hresume]; rfl
  · rfl

end Mode

section

variable {m : Mode} {fence : Fence} {cs : List Char} {r : Reading}

theorem scan?_of_raw [Limits] (hlayer : m.layer = .raw) (hcs : cs ≠ []) :
    scan? m cs = some (readRaw m cs).atLeastOne.settleBlock := by
  obtain ⟨c, cs, rfl⟩ := List.exists_cons_of_ne_nil hcs
  rw [scan?, readLayer, hlayer]

theorem readRaw_balanced (hfence : m.fence = some fence) {text : List Char}
    (htext : Balanced fence.kind text) (hne : text ≠ []) (rest : List Char) :
    readRaw m (text ++ fence.kind.closer :: rest) = ⟨.rawText, text.length, m⟩ := by
  have hhead : (text ++ fence.kind.closer :: rest).head? ≠ some fence.kind.closer := by
    rw [List.head?_append_of_ne_nil _ hne]
    exact htext.head?_ne
  have hlength : rawLength fence.kind none 0 0 (text ++ fence.kind.closer :: rest) =
      some text.length := by
    rw [htext.rawLength_append, rawLength_fence, Nat.zero_add]
  unfold readRaw
  rw [hfence]
  dsimp only
  rw [if_neg hhead, hlength]

theorem readRaw_closer (hfence : m.fence = some fence) (rest : List Char) :
    readRaw m (fence.kind.closer :: rest) = ⟨.punctuation, 1, m.closeFence fence⟩ := by
  unfold readRaw
  rw [hfence]
  exact if_pos rfl

/-- What is read in a region is the closer, a balanced text in front of it, or all that is left. -/
theorem readRaw_cases (hfence : m.fence = some fence) (cs : List Char) :
    readRaw m cs = ⟨.punctuation, 1, m.closeFence fence⟩ ∨
    (∃ text rest, cs = text ++ fence.kind.closer :: rest ∧ Balanced fence.kind text ∧
      text ≠ [] ∧ readRaw m cs = ⟨.rawText, text.length, m⟩) ∨
    readRaw m cs = ⟨.error, cs.length, m⟩ := by
  unfold readRaw
  rw [hfence]
  dsimp only
  split
  · exact .inl rfl
  · next hhead =>
    right
    cases hlength : rawLength fence.kind none 0 0 cs with
    | none => exact .inr rfl
    | some n =>
      obtain ⟨text, rest, rfl, hn, htext⟩ := unwinds_of_rawLength hlength
      rw [Nat.zero_add] at hn
      refine .inl ⟨text, rest, rfl, htext, ?_, by rw [hn]⟩
      rintro rfl
      exact hhead rfl

/-- The code layers enter a region by its opening word. -/
theorem readCode_kind_of_raw [Limits] {c : Char} (hlayer : m.layer ≠ .raw)
    (hnext : (readCode m c cs).next.layer = .raw) : (readCode m c cs).kind = .embedOpen := by
  cases readCode_codeStep m c cs with
  | stays hstays => exact absurd (hstays.layer.symm.trans hnext) hlayer
  | opens _ _ hkind _ => exact hkind
  | leaves _ _ hleaves => rw [hleaves] at hnext; cases hnext
  | ends _ _ hends => rw [hends] at hnext; cases hnext

/-- The steps of the class layer: it is only left by a bracket. -/
inductive Reading.ClassStep (m : Mode) (r : Reading) : Prop
  | stays (h : r.next.layer = m.layer)
  | marks (hkind : r.kind = .punctuation)

theorem readClass_classStep [Limits] (m : Mode) (c : Char) (cs : List Char) :
    Reading.ClassStep m (readClass m c cs) := by
  -- The conditions are taken off one by one; none of them matters.
  unfold readClass
  refine iteInduction (fun _ => .stays rfl) fun _ => ?_
  refine iteInduction (fun _ => .stays rfl) fun _ => ?_
  refine iteInduction (fun _ => .stays rfl) fun _ => ?_
  refine iteInduction (fun _ => ?_) fun _ => ?_
  · unfold readBlockComment
    split <;> exact .stays rfl
  refine iteInduction (fun _ => .stays rfl) fun _ => ?_
  refine iteInduction (fun _ => .stays rfl) fun _ => ?_
  refine iteInduction (fun _ => .stays rfl) fun _ => ?_
  refine iteInduction (fun _ => .marks rfl) fun _ => ?_
  refine iteInduction (fun _ => .marks rfl) fun _ => ?_
  refine iteInduction (fun _ => .stays rfl) fun _ => ?_
  split
  · exact .marks rfl
  · exact .stays rfl

theorem Reading.layer_settled (r : Reading) :
    r.atLeastOne.settleBlock.next.layer = r.next.layer := by
  unfold settleBlock atLeastOne
  split <;> split <;> rfl

/-- Behind a token that is neither trivia nor a command no block is kept open. -/
theorem Reading.settled_eq (hlength : r.length ≠ 0) (hkind : r.kind ≠ .command)
    (htrivia : r.kind.isTrivia = false) :
    r.atLeastOne.settleBlock = ⟨r.kind, r.length, r.next.withoutBlock⟩ := by
  unfold settleBlock atLeastOne
  rw [if_neg hlength, htrivia, decide_eq_false hkind]
  rfl

variable [Limits]

/-- A step into the raw layer, or inside of it, is neither trivia nor a command. -/
theorem readLayer_kind_of_raw {c : Char} (hnext : (readLayer m c cs).next.layer = .raw) :
    (readLayer m c cs).kind ≠ .command ∧ (readLayer m c cs).kind.isTrivia = false := by
  have hcode : m.layer ≠ .raw → (readCode m c cs).next.layer = .raw →
      (readCode m c cs).kind ≠ .command ∧ (readCode m c cs).kind.isTrivia = false := by
    intro hlayer hnext
    rw [readCode_kind_of_raw hlayer hnext]
    exact ⟨nofun, rfl⟩
  unfold readLayer at hnext ⊢
  cases hlayer : m.layer with
  | core =>
    rw [hlayer] at hnext
    exact hcode (hlayer ▸ nofun) hnext
  | expr =>
    rw [hlayer] at hnext
    exact hcode (hlayer ▸ nofun) hnext
  | udl =>
    rw [hlayer] at hnext
    cases readClass_classStep m c cs with
    | stays hstays => exact absurd (hlayer.symm.trans (hstays.symm.trans hnext)) nofun
    | marks hkind =>
      dsimp only
      rw [hkind]
      exact ⟨nofun, rfl⟩
  | raw =>
    dsimp only
    cases hfence : m.fence with
    | none =>
      unfold readRaw
      rw [hfence]
      exact ⟨nofun, rfl⟩
    | some fence =>
      obtain hclose | ⟨_, _, _, _, _, htext⟩ | herror := readRaw_cases hfence cs
      · rw [hclose]; exact ⟨nofun, rfl⟩
      · rw [htext]; exact ⟨nofun, rfl⟩
      · rw [herror]; exact ⟨nofun, rfl⟩

/-- Balanced text in front of the closer is one token. -/
theorem scan?_balanced (hlayer : m.layer = .raw) (hfence : m.fence = some fence) {text : List Char}
    (htext : Balanced fence.kind text) (hne : text ≠ []) (rest : List Char) :
    scan? m (text ++ fence.kind.closer :: rest) =
      some ⟨.rawText, text.length, m.withoutBlock⟩ := by
  have hcs : text ++ fence.kind.closer :: rest ≠ [] := by simp
  have hlength : text.length ≠ 0 := mt List.length_eq_zero_iff.mp hne
  rw [scan?_of_raw hlayer hcs, readRaw_balanced hfence htext hne,
    Reading.settled_eq hlength TokenKind.noConfusion rfl]

/-- The closer is another token. -/
theorem scan?_closer (hlayer : m.layer = .raw) (hfence : m.fence = some fence) (rest : List Char) :
    scan? m (fence.kind.closer :: rest) =
      some ⟨.punctuation, 1, (m.closeFence fence).withoutBlock⟩ := by
  rw [scan?_of_raw hlayer (List.cons_ne_nil _ _), readRaw_closer hfence,
    Reading.settled_eq Nat.one_ne_zero TokenKind.noConfusion rfl]

/-- **What is read in a region**: the closer, a balanced text in front of it, or all that is left. -/
theorem scan?_region_cases (hlayer : m.layer = .raw) (hfence : m.fence = some fence)
    (h : scan? m cs = some r) :
    r.kind = .punctuation ∨
    (r.kind = .rawText ∧ Balanced fence.kind (cs.take r.length) ∧
      (cs.drop r.length).head? = some fence.kind.closer) ∨
    (r.kind = .error ∧ r.length = cs.length) := by
  have hcs : cs ≠ [] := by rintro rfl; cases h
  rw [scan?_of_raw hlayer hcs] at h
  obtain rfl := Option.some.inj h
  obtain hclose | ⟨text, rest, rfl, htext, hne, hread⟩ | herror := readRaw_cases hfence cs
  · rw [hclose, Reading.settled_eq Nat.one_ne_zero TokenKind.noConfusion rfl]
    exact .inl rfl
  · rw [hread, Reading.settled_eq (mt List.length_eq_zero_iff.mp hne) TokenKind.noConfusion rfl]
    dsimp only
    rw [List.take_left, List.drop_left]
    exact .inr (.inl ⟨rfl, htext, rfl⟩)
  · rw [herror, Reading.settled_eq (mt List.length_eq_zero_iff.mp hcs) TokenKind.noConfusion rfl]
    exact .inr (.inr ⟨rfl, rfl⟩)

end

/-! ## Regions -/

/-- **No token that leads into the raw layer, or stays in it, keeps a block open** for a command,
    whatever the mode in front of it is. -/
theorem scan?_raw_keepsNoBlock [Limits] {m : Mode} {cs : List Char} {r : Reading}
    (h : scan? m cs = some r) (hnext : r.next.layer = .raw) : r.next.blockCommand = false := by
  cases cs with
  | nil => cases h
  | cons c cs =>
    obtain rfl := Option.some.inj h
    rw [Reading.layer_settled] at hnext
    obtain ⟨hcommand, htrivia⟩ := readLayer_kind_of_raw hnext
    by_cases hlength : (readLayer m c (c :: cs)).length = 0
    · unfold Reading.settleBlock Reading.atLeastOne
      rw [if_pos hlength]
      rfl
    · rw [Reading.settled_eq hlength hcommand htrivia]
      rfl

/-- **A raw region is exactly the balanced text in front of its closer.**  In a raw mode with a fence a
    balanced text in front of the closer is one token, which leaves the mode as it is, and the closer
    goes back to the layer of the fence.  The other way round, raw text that is read there is balanced
    and stands in front of the closer, and an error reaches to the end of the text.

    The one field that raw text could change is that of a block kept open for a command, and no token
    leaves that open in the raw layer. -/
theorem scan?_fenced [Limits] {m : Mode} {fence : Fence} (hlayer : m.layer = .raw)
    (hfence : m.fence = some fence) :
    (∀ text rest : List Char, Balanced fence.kind text → text ≠ [] →
      ∃ inside behind, scan? m (text ++ fence.kind.closer :: rest) =
          some ⟨.rawText, text.length, inside⟩ ∧
        inside = m.withoutBlock ∧ (m.blockCommand = false → inside = m) ∧
        scan? inside (fence.kind.closer :: rest) = some ⟨.punctuation, 1, behind⟩ ∧
        behind.fence = none ∧ behind.layer = fence.resume) ∧
    (∀ (cs : List Char) (r : Reading), scan? m cs = some r →
      (r.kind = .rawText → Balanced fence.kind (cs.take r.length) ∧
        (cs.drop r.length).head? = some fence.kind.closer) ∧
      (r.kind = .error → r.length = cs.length)) ∧
    ∀ (before : Mode) (cs : List Char) (r : Reading), scan? before cs = some r →
      r.next.layer = .raw → r.next.blockCommand = false := by
  refine ⟨fun text rest htext hne => ?_, fun cs r h => ?_, fun _ _ _ => scan?_raw_keepsNoBlock⟩
  · have hinside := scan?_balanced hlayer hfence htext hne rest
    have hbehind := scan?_closer (m := m.withoutBlock) hlayer hfence rest
    exact ⟨_, _, hinside, rfl, Mode.withoutBlock_eq_self, hbehind,
      Mode.closeFence_fence _ fence, Mode.closeFence_layer _ fence⟩
  · obtain hkind | ⟨hkind, htext⟩ | ⟨hkind, hlength⟩ := scan?_region_cases hlayer hfence h
    · rw [hkind]
      exact ⟨nofun, nofun⟩
    · rw [hkind]
      exact ⟨fun _ => htext, nofun⟩
    · rw [hkind]
      exact ⟨nofun, fun _ => hlength⟩

/-- Between parentheses an apostrophe quotes: the closer in quotes ends neither the inner bracket nor the
    region. -/
theorem scan?_fenced_quotedCloser :
    let m := Mode.core.openFence .paren
    let text := ['f', '(', '\'', ')', '\'', ')']
    m.layer = .raw ∧ m.fence = some ⟨.paren, .core⟩ ∧ Balanced .paren text ∧ text ≠ [] ∧
      (∃ inside behind, scan? m (text ++ [')', 'x']) = some ⟨.rawText, text.length, inside⟩ ∧
        inside = m ∧ scan? inside [')', 'x'] = some ⟨.punctuation, 1, behind⟩ ∧
        behind.fence = none ∧ behind.layer = .core) ∧
      scan? m ['(', ')'] = some ⟨.error, 2, m⟩ ∧ 2 = ['(', ')'].length := by
  intro m text
  have hbody : Balanced .paren ['\'', ')', '\''] :=
    @Balanced.quoted _ '\'' [')'] [] rfl (by decide) .nil
  have htext : Balanced .paren text :=
    .plain (by decide) (by decide) rfl (.nested hbody .nil)
  have hne : text ≠ [] := List.cons_ne_nil _ _
  obtain ⟨hforward, hback, _⟩ := @scan?_fenced _ m ⟨.paren, .core⟩ rfl rfl
  obtain ⟨inside, behind, hread, _, hsame, hclose⟩ := hforward text ['x'] htext hne
  have herror : scan? m ['(', ')'] = some ⟨.error, 2, m⟩ := by cbv
  exact ⟨rfl, rfl, htext, hne, ⟨inside, behind, hread, hsame rfl, hclose⟩, herror,
    (hback _ _ herror).2 rfl⟩

end LayeredSyntax
