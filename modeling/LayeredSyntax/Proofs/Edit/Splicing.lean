/-
  SPLICING — what the tokens of an edited text have of the old ones.

  The tokens of the old text and of the new one share two stretches: those in front of what was read
  again, which are the same in both, and those behind it, which have only been moved
  (`Splice.Joins`).  This needs no more than that the old tokens cut the old text: whether reading
  would find them again does not matter, as **what is taken over stands where the texts agree**
  (`relex_spliced`).

  So two ranges of positions agree, one in front of the first position that may differ and one from
  the first token on that was taken over, and whatever stands at the positions of one of them comes
  again at the other ones (`Splice.Joins.recurs_front`, `Splice.Joins.recurs_back`).
-/
import LayeredSyntax.Proofs.Edit.Relexing
import LayeredSyntax.Proofs.Token.Windows

namespace LayeredSyntax

/-! ## The stretches -/

/-- The stretches of which the old and the new tokens consist. -/
structure Splice where
  /-- In front of what was read again. -/
  before : List Token
  /-- The old tokens that are left out. -/
  skipped : List Token
  /-- The old tokens that are taken over. -/
  rest : List Token
  /-- The new tokens that were read. -/
  read : List Token
  /-- Those that are taken over, where they stand now. -/
  moved : List Token

/-- **Whether stretches join to the old and the new tokens**, and an answer names them. -/
structure Splice.Joins (x : Splice) (r : Relexed) (olds news : List Token) : Prop where
  olds : olds = x.before ++ (x.skipped ++ x.rest)
  news : news = x.before ++ (x.read ++ x.moved)
  moved : x.moved.map Token.content = x.rest.map Token.content
  firstChanged : r.firstChanged = countSignificant x.before
  oldResume : r.oldResume = countSignificant (x.before ++ x.skipped)
  newResume : r.newResume = countSignificant (x.before ++ x.read)

/-- **What an answer is like**: its tokens cut the new text, and share stretches with the old ones.
    -/
def Relexed.Spliced (r : Relexed) (olds : List Token) (source : String) : Prop :=
  ∃ (news : Array Token) (x : Splice), r.stream = .ofTokens (.ofText source) news ∧
    Cut .origin source.toList news.toList ∧ x.Joins r olds news.toList

/-- Reading the whole text again takes nothing over. -/
theorem spliced_rereadAll [Limits] (m : Mode) (d : Document) (olds : Array Token)
    (source : String) :
    (rereadAll (.ofText source) m (TokenStream.ofTokens d olds).size).Spliced olds.toList source
      := by
  refine ⟨tokenize m source, ⟨[], olds.toList, [], (tokenize m source).toList, []⟩, rfl,
    cut_tokenize m source, ?_, ?_, rfl, rfl, ?_, ?_⟩
  · exact (List.append_nil _).symm
  · exact (List.append_nil _).symm
  · exact TokenStream.size_ofTokens d olds
  · exact TokenStream.size_ofTokens _ _

/-! ## What is taken over -/

theorem content_of_moved {bytes : Int} {ts ts' : List Token}
    (h : List.Forall₂ (Token.MovedBy bytes) ts ts') :
    ts'.map Token.content = ts.map Token.content := by
  induction h with
  | nil => rfl
  | cons ht _ ih =>
    rw [List.map_cons, List.map_cons, ih]
    unfold Token.content
    rw [ht.kind, ht.text, ht.mode]

/-- Tokens that end before an offset take the characters before it. -/
theorem Cut.after_le {p : Position} {cs : List Char} {ts : List Token} (h : Cut p cs ts)
    {bound : Nat} (hplace : p.offset ≤ bound) (hts : ∀ t ∈ ts, t.stop ≤ bound) :
    (p.after cs).offset ≤ bound := by
  induction h with
  | nil => exact hplace
  | @cons p text rest m kind ts _ _ ih =>
    rw [Position.after_append]
    exact ih (hts _ List.mem_cons_self) fun t ht => hts t (List.mem_cons_of_mem _ ht)

/-- **The tokens that are kept cut the front of the new text as well.** -/
theorem Edit.Cuts.kept {e : Edit} {old new : List Char} {before later : List Token}
    (hcuts : e.Cuts old new) (hcut : Cut .origin old (before ++ later))
    (hbefore : ∀ t ∈ before, t.stop ≤ e.start) : ∃ front oldBack newBack,
      old = front ++ oldBack ∧ new = front ++ newBack ∧ Cut .origin front before ∧
        Cut (Position.origin.after front) oldBack later := by
  obtain ⟨front, oldBack, rfl, hfront, hback⟩ := hcut.split
  obtain ⟨shared, replaced, inserted, back, hold, rfl, hstart, _, _⟩ := hcuts
  have hle := hfront.after_le (Nat.zero_le _) hbefore
  rw [Position.origin_after_offset, ← hstart] at hle
  obtain ⟨more, rfl⟩ := exists_append_of_width_le hold hle
  exact ⟨front, oldBack, _, rfl, List.append_assoc .., hfront, hback⟩

/-- **The tokens that are taken over cut the rest of the new text**, moved by its growth. -/
theorem Edit.Cuts.moved {e : Edit} {old new : List Char} {front : List Token} {t : Token}
    {ts : List Token} {taken ahead : List Char} {p : Position} (hcuts : e.Cuts old new)
    (hcut : Cut .origin old (front ++ t :: ts)) (hnew : new = taken ++ ahead)
    (hplace : p = Position.origin.after taken) (hbehind : e.newStop ≤ p.offset)
    (hstart : t.start = e.toOld p.offset) : ∃ moved, Cut p ahead moved ∧
      List.Forall₂ (Token.MovedBy e.growth) (t :: ts) moved := by
  obtain ⟨passed, behind, hold, _, hrest⟩ := hcut.split
  have htaken : p.offset = width taken := by rw [hplace, Position.origin_after_offset]
  have hpassed : width passed = e.toOld (width taken) := by
    rw [← Position.origin_after_offset passed, ← hrest.start_of_head? rfl, hstart, htaken]
  obtain ⟨rfl, hgrowth⟩ := hcuts.ahead_eq hold hnew (htaken ▸ hbehind) hpassed
  obtain ⟨moved, hmoved, hall⟩ := hrest.moved p
  rw [Position.origin_after_offset, htaken, hgrowth] at hall
  exact ⟨moved, hmoved, hall⟩

/-- **Tokens that are taken over go on with the cut of the new text**, and are what they were. -/
theorem Edit.Cuts.appendMoved {e : Edit} {old new : List Char} {front : List Token} {t : Token}
    {ts : List Token} {done : Array Token} {taken ahead : List Char} {p : Position}
    (hcuts : e.Cuts old new) (d : Document) (hcut : Cut .origin old (front ++ t :: ts))
    (hdone : Cut .origin taken done.toList) (hnew : new = taken ++ ahead)
    (hplace : p = Position.origin.after taken) (hbehind : e.newStop ≤ p.offset)
    (hstart : t.start = e.toOld p.offset) : ∃ moved,
      (appendMoved d e done p ahead (t :: ts)).toList = done.toList ++ moved ∧
        Cut .origin new (done.toList ++ moved) ∧
        moved.map Token.content = (t :: ts).map Token.content := by
  obtain ⟨moved, hmoved, hsame⟩ := hcuts.moved hcut hnew hplace hbehind hstart
  have happend := appendMoved_of_cut d e done hmoved hsame hbehind []
  rw [List.append_nil] at happend
  rw [hplace] at hmoved
  refine ⟨moved, ?_, ?_, content_of_moved hsame⟩
  · rw [happend, Array.toList_append]
  · rw [hnew]
    exact hdone.append hmoved

/-- Reading is taken up where the kept tokens end. -/
theorem exists_takeUp [Limits] {old : TokenStream} {e : Edit} {m : Mode} {front back : List Char}
    {source : String} (hcut : Cut .origin source.toList old.tokens.toList)
    (hdocument : old.document = .ofText source) (hstart : e.start ≤ source.utf8ByteSize)
    (hkept : Cut .origin front (old.tokens.toList.take (keptBefore old e)))
    (hlater : Cut (Position.origin.after front) back
      (old.tokens.toList.drop (keptBefore old e))) :
    ∃ mode, takeUp m (old.tokens.toList.drop (keptBefore old e)) = (width front, mode) := by
  generalize hdrop : old.tokens.toList.drop (keptBefore old e) = later at hlater
  cases hlater with
  | nil =>
    rw [tokens_eq_nil_of_drop hcut hdocument hstart hdrop, List.take_nil] at hkept
    obtain rfl := hkept.eq_nil_iff.mp rfl
    exact ⟨m, rfl⟩
  | @cons _ text rest mode kind ts hne _ =>
    exact ⟨mode, congrArg (·, mode) (Position.origin_after_offset front)⟩

/-! ## The answer -/

/-- Stretches that lead to the end of the new text, unless there are too many tokens. -/
theorem spliced_of_stretches [Limits] {d : Document} {m : Mode} {new : String}
    {olds news : Array Token} {before skipped rest read moved : List Token}
    (holds : olds.toList = before ++ (skipped ++ rest))
    (hnews : news.toList = before ++ read ++ moved) (hcut : Cut .origin new.toList news.toList)
    (hmoved : moved.map Token.content = rest.map Token.content) (reread : Nat)
    (events : List Event) :
    Relexed.Spliced (if Limits.tokens ≤ news.size + 1 then
        rereadAll (.ofText new) m (TokenStream.ofTokens d olds).size
      else ⟨.ofTokens (.ofText new) news, reread, countSignificant before,
        (TokenStream.ofTokens d olds).size - countSignificant rest,
        countSignificant (before ++ read), events⟩) olds.toList new := by
  split
  · exact spliced_rereadAll m d olds new
  · refine ⟨news, ⟨before, skipped, rest, read, moved⟩, rfl, hcut, holds, ?_, hmoved, rfl, ?_, rfl⟩
    · rw [hnews, List.append_assoc]
    · show (TokenStream.ofTokens d olds).size - _ = _
      rw [TokenStream.size_ofTokens, holds, ← List.append_assoc, countSignificant_append]
      exact Nat.add_sub_cancel ..

/-- **Reading an edited text again keeps the tokens in front of the edit and moves those behind
    it**, whatever the old tokens are. -/
theorem relex_spliced [Limits] {e : Edit} {old new : String} {olds : Array Token}
    (hcuts : e.Cuts old.toList new.toList) (hcut : Cut .origin old.toList olds.toList) (m : Mode) :
    (relex (.ofTokens (.ofText old) olds) e new m).Spliced olds.toList new := by
  let previous := TokenStream.ofTokens (.ofText old) olds
  let before := olds.toList.take (keptBefore previous e)
  let later := olds.toList.drop (keptBefore previous e)
  have holds : olds.toList = before ++ later := (List.take_append_drop _ _).symm
  have hstop : ∀ t ∈ before, t.stop ≤ e.start := fun t ht =>
    Nat.le_of_lt (Nat.lt_of_lt_of_le (stop_lt_of_mem_kept previous ht)
      (Document.lineStart_begins old e.start).1)
  have hstart : e.start ≤ old.utf8ByteSize := by
    obtain ⟨front, replaced, _, back, hold, _, hfront, _⟩ := hcuts
    rw [utf8ByteSize_eq_width, hold, width_append, hfront]
    exact Nat.le_add_right _ _
  have hwhole : Cut .origin old.toList previous.tokens.toList := hcut
  rw [holds] at hcut
  obtain ⟨front, oldBack, newBack, hold, hnew, hfront, hlater⟩ := hcuts.kept hcut hstop
  obtain ⟨mode, htakeUp⟩ : ∃ mode, takeUp m later = (width front, mode) :=
    exists_takeUp hwhole rfl hstart hfront hlater
  have hkept : appendKept (.ofText new) #[] .origin new.toList before = before.toArray := by
    rw [hnew, appendKept_of_cut _ _ hfront, Array.empty_append]
  show (relex previous e new m).Spliced olds.toList new
  have hbefore : previous.tokens.toList.take (keptBefore previous e) = before := rfl
  rcases relex_cases hbefore (show _ = later from rfl) hkept hnew htakeUp with hall | ⟨r, hr, hanswer⟩
  · rw [hall]
    exact spliced_rereadAll m _ olds new
  -- What was read cuts the new text up to where reading stopped.
  obtain ⟨read, hnews, mode', hread, hfits⟩ := rereadFrom_read hr ⟨[], rfl⟩
  obtain ⟨text, htext, hplace, hcutRead⟩ := hread.cut
  dsimp only at htext hplace hcutRead hfits
  rw [← Position.after_append] at hplace
  have hdone : Cut .origin (front ++ text) r.tokens.toList := by
    rw [hnews]
    exact hfront.append hcutRead
  have hnew' : new.toList = (front ++ text) ++ r.ahead := by
    rw [hnew, htext, List.append_assoc]
  rcases hanswer with ⟨hrest, hanswer⟩ | ⟨rest, hrest, hanswer⟩
  · rw [hrest] at hfits
    have hend : r.ahead = [] := hfits
    have holds' : olds.toList = before ++ (later ++ []) := by rw [List.append_nil, ← holds]
    have hnews' : r.tokens.toList = before ++ read ++ [] := by rw [List.append_nil, hnews]
    rw [hanswer, hnews]
    refine spliced_of_stretches holds' hnews' ?_ rfl _ _
    rw [hnew', hend, List.append_nil]
    exact hdone
  · rw [hrest] at hfits
    obtain ⟨skipped, t, ts, hlater', rfl, hbehind, hstart, _⟩ := hfits
    have holds' : olds.toList = before ++ (skipped ++ t :: ts) := by
      rw [holds, ← hlater']
      rfl
    have hcut' : Cut .origin old.toList (before ++ skipped ++ t :: ts) := by
      rw [List.append_assoc, ← holds', holds]
      exact hcut
    obtain ⟨moved, hall, hwhole, hsame⟩ :=
      hcuts.appendMoved (.ofText new) hcut' hdone hnew' hplace hbehind hstart
    rw [← hall] at hwhole
    rw [hnews] at hall
    rw [hanswer, hnews]
    exact spliced_of_stretches holds' hall hwhole hsame _ _

/-! ## Positions that agree -/

namespace Splice.Joins

variable {x : Splice} {r : Relexed} {olds news : Array Token} {d d' : Document} {f n : Nat}

/-- **In front of the first position that may differ** everything comes again where it stood. -/
theorem recurs_front (h : x.Joins r olds.toList news.toList) (hlt : f + n < r.firstChanged) :
    (TokenStream.ofTokens d olds).Recurs (.ofTokens d' news) f f n := by
  have holds : olds = x.before.toArray ++ (x.skipped ++ x.rest).toArray := by
    rw [← Array.toList_inj, Array.toList_append, h.olds]
  have hnews : news = x.before.toArray ++ (x.read ++ x.moved).toArray := by
    rw [← Array.toList_inj, Array.toList_append, h.news]
  have hfront : ∀ i ≤ n, f + i < (TokenStream.ofTokens d x.before.toArray).size := by
    intro i hi
    rw [TokenStream.size_ofTokens]
    exact Nat.lt_of_le_of_lt (Nat.add_le_add_left hi f) (h.firstChanged ▸ hlt)
  refine ⟨fun i hi => ?_, fun i _ hi => ?_⟩
  · rw [holds, hnews, TokenStream.get?_front _ (hfront i hi),
      TokenStream.get?_front _ (hfront i hi)]
  · rw [holds, hnews, TokenStream.triviaBefore_eq, TokenStream.triviaBefore_eq,
      TokenStream.lead_front _ (hfront i hi), TokenStream.lead_front _ (hfront i hi)]

/-- **From the first token on that was taken over** everything comes again, as far behind it as it
    was before. -/
theorem recurs_back (h : x.Joins r olds.toList news.toList) (hle : r.oldResume ≤ f) :
    (TokenStream.ofTokens d olds).Recurs (.ofTokens d' news) f
      (f - r.oldResume + r.newResume) n := by
  have holds : olds = (x.before ++ x.skipped).toArray ++ x.rest.toArray := by
    rw [← Array.toList_inj, Array.toList_append, h.olds, List.append_assoc]
  have hnews : news = (x.before ++ x.read).toArray ++ x.moved.toArray := by
    rw [← Array.toList_inj, Array.toList_append, h.news, List.append_assoc]
  obtain ⟨k, rfl⟩ := Nat.exists_eq_add_of_le hle
  have hold : ∀ i, r.oldResume + k + i =
      countSignificant (x.before ++ x.skipped).toArray.toList + (k + i) := by
    intro i
    rw [h.oldResume, Nat.add_assoc]
  have hnew : ∀ i, r.oldResume + k - r.oldResume + r.newResume + i =
      countSignificant (x.before ++ x.read).toArray.toList + (k + i) := by
    intro i
    rw [Nat.add_sub_cancel_left, h.newResume, Nat.add_comm k, Nat.add_assoc]
  have hsame : x.moved.toArray.toList.map Token.content =
      x.rest.toArray.toList.map Token.content := h.moved
  refine ⟨fun i _ => ?_, fun i hi _ => ?_⟩
  · rw [holds, hnews, hold, hnew, TokenStream.get?_back d, TokenStream.get?_back d']
    exact TokenStream.get?_congr hsame _
  · rw [holds, hnews, hold, hnew, TokenStream.triviaBefore_eq, TokenStream.triviaBefore_eq,
      TokenStream.lead_back d _ _ _ (by omega), TokenStream.lead_back d' _ _ _ (by omega)]
    exact TokenStream.lead_congr hsame _

end Splice.Joins

end LayeredSyntax
