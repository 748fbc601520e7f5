/-
  WHAT AN UNMARKED STRETCH REMEMBERS — it was read in the only way in which it can be read.

  A parse marks the positions at which it had a choice.  Of a subtree over a stretch without marks,
  the position behind it included, it is known that it is forced by the state that it stands on
  (`Remembered`):

  1. It is known of what ends in front of the position that the parse is at.  What ends there is not
     asked for yet, and **so nothing has to be known of a production when it is finished**, but of
     the pieces that it is made of (`closed_remembered`).
  2. Of the nodes inside of a subtree the same is known, for they were subtrees themselves once.
     What was put into an error region is marked all over, so nothing is asked of it.
  3. Along a way down that is not marked, what is forced is forced one behind the other
     (`forced_of_trail`).
-/
import LayeredSyntax.Proofs.Parse.Filing
import LayeredSyntax.Proofs.Parse.Spreading
import LayeredSyntax.Proofs.Parse.Unmet

namespace LayeredSyntax

/-! ## Marks -/

/-- Whether a position is marked. -/
def Marked (marks : Array Bool) (p : Nat) : Prop := marks[p]? = some true

/-- **Whether none of some positions is marked**, the last one included. -/
def Clear (marks : Array Bool) (first last : Nat) : Prop :=
  ∀ m, first ≤ m → m ≤ last → marks[m]? = some false

/-- Whether all that was marked stays marked. -/
structure Grows (marks marks' : Array Bool) : Prop where
  size : marks'.size = marks.size
  marked : ∀ p, Marked marks p → Marked marks' p

section

variable {marks marks' marks'' : Array Bool} {first last first' last' p : Nat}

theorem Clear.mono (h : Clear marks first last) (hfirst : first ≤ first') (hlast : last' ≤ last) :
    Clear marks first' last' :=
  fun m hm hle => h m (Nat.le_trans hfirst hm) (Nat.le_trans hle hlast)

theorem Clear.not_marked (h : Clear marks first last) (hp : first ≤ p) (hle : p ≤ last) :
    ¬ Marked marks p := by
  intro hmarked
  exact absurd ((h p hp hle).symm.trans hmarked) (by decide)

theorem Grows.refl (marks : Array Bool) : Grows marks marks := ⟨rfl, fun _ h => h⟩

theorem Grows.trans (h : Grows marks marks') (h' : Grows marks' marks'') : Grows marks marks'' :=
  ⟨h'.size.trans h.size, fun p hp => h'.marked p (h.marked p hp)⟩

/-- What is unmarked later was unmarked before. -/
theorem Grows.clear (h : Grows marks marks') (hclear : Clear marks' first last) :
    Clear marks first last := by
  intro m hm hle
  have hlt : m < marks.size := by
    rw [← h.size]
    exact (Array.getElem?_eq_some_iff.mp (hclear m hm hle)).1
  have hget : marks[m]? = some marks[m] := Array.getElem?_eq_getElem hlt
  cases hvalue : marks[m] with
  | false => rw [hget, hvalue]
  | true =>
    rw [hvalue] at hget
    exact absurd (h.marked m hget) (hclear.not_marked hm hle)

theorem grows_set (marks : Array Bool) (p : Nat) : Grows marks (marks.setIfInBounds p true) := by
  refine ⟨Array.size_setIfInBounds, fun m hm => ?_⟩
  unfold Marked at hm ⊢
  rw [Array.getElem?_setIfInBounds]
  split
  · next heq =>
    rw [if_pos]
    rw [heq]
    exact (Array.getElem?_eq_some_iff.mp hm).1
  · exact hm

theorem marked_set (h : p < marks.size) : Marked (marks.setIfInBounds p true) p := by
  unfold Marked
  rw [Array.getElem?_setIfInBounds, if_pos rfl, if_pos h]

/-- Marking some positions. -/
theorem Progress.grows_markAll (s : Progress) (first last : Nat) :
    Grows s.marks (s.markAll first last).marks ∧
      ∀ p, first ≤ p → p ≤ last → p < s.marks.size → Marked (s.markAll first last).marks p := by
  have hfold : ∀ (ps : List Nat) (s : Progress),
      Grows s.marks (ps.foldl Progress.mark s).marks ∧
        ∀ p ∈ ps, p < s.marks.size → Marked (ps.foldl Progress.mark s).marks p := by
    intro ps
    induction ps with
    | nil => exact fun s => ⟨.refl _, nofun⟩
    | cons q ps ih =>
      intro s
      obtain ⟨hgrows, hmarked⟩ := ih (s.mark q)
      have hone : Grows s.marks (s.mark q).marks := grows_set s.marks q
      refine ⟨hone.trans hgrows, fun p hp hlt => ?_⟩
      rcases List.mem_cons.mp hp with rfl | hp
      · exact hgrows.marked p (marked_set hlt)
      · exact hmarked p hp (hone.size ▸ hlt)
  obtain ⟨hgrows, hmarked⟩ := hfold (List.range' first (last + 1 - first)) s
  exact ⟨hgrows, fun p hp hle hlt => hmarked p (List.mem_range'_1.mpr ⟨hp, by omega⟩) hlt⟩

end

namespace ParseJob

/-! ## What is remembered -/

/-- **Whether a finished production at a position is forced** by the state in which it was begun, and
    what is made of it alone is forced as well. -/
def ForcedAt (j : ParseJob) (t : Nat) (d : Node) : Prop :=
  ∀ kind g a q before children, d = .rule kind g a q before children →
    ∃ target tops, j.table.goto? before a = some target ∧
      j.Forced before t [⟨d, t, t + d.tokenCount⟩] target (t + d.tokenCount) tops ∧
      j.Quiet before (t + d.tokenCount) tops target

/-- **What is remembered of a node** that begins at a position and ends in front of another one. -/
def Traced (j : ParseJob) (marks : Array Bool) (horizon t : Nat) (d : Node) : Prop :=
  Clear marks t (t + d.tokenCount) → t + d.tokenCount < horizon → j.ForcedAt t d

/-- **What is remembered of a subtree between two nodes of a stack.** -/
structure Remembered (j : ParseJob) (marks : Array Bool) (horizon : Nat) (above below : Face)
    (label : Label) : Prop where
  links : j.Links above below label
  joint : label.stop < above.position → Marked marks label.stop
  forced : Clear marks label.first label.stop → label.stop < horizon →
    ∃ tops, j.Forced below.state label.first [label] above.state label.stop tops ∧
      j.Quiet below.state label.stop tops above.state
  spread : Node.Spread (j.Traced marks horizon) label.first label.stop [label.node]

variable {j : ParseJob} {marks marks' : Array Bool} {horizon horizon' p c q : Nat}
  {regions : Regions} {above below bottom top : Face} {label : Label} {pieces : List Label}

/-- Nothing is asked of a node that is no finished production. -/
theorem traced_of_before? (t : Nat) (d : Node) (h : d.before? = none) :
    j.Traced marks horizon t d := by
  rintro _ _ kind g a q before children rfl
  cases h

/-- What is remembered goes on being remembered, and of more positions if these are marked. -/
theorem Traced.grow (hgrows : Grows marks marks')
    (hmarked : ∀ m, horizon ≤ m → m < horizon' → Marked marks' m) {t : Nat} {d : Node}
    (h : j.Traced marks horizon t d) : j.Traced marks' horizon' t d := by
  intro hclear hlt
  refine h (hgrows.clear hclear) (Nat.lt_of_not_le fun hle => ?_)
  exact hclear.not_marked (Nat.le_add_right _ _) (Nat.le_refl _) (hmarked _ hle hlt)

theorem Remembered.grow (hgrows : Grows marks marks')
    (hmarked : ∀ m, horizon ≤ m → m < horizon' → Marked marks' m)
    (h : j.Remembered marks horizon above below label) :
    j.Remembered marks' horizon' above below label := by
  refine ⟨h.links, fun hlt => hgrows.marked _ (h.joint hlt), fun hclear hlt => ?_,
    h.spread.mono fun t d _ _ hd => hd.grow hgrows hmarked⟩
  refine h.forced (hgrows.clear hclear) (Nat.lt_of_not_le fun hle => ?_)
  exact hclear.not_marked h.links.reads.first_le (Nat.le_refl _) (hmarked _ hle hlt)

/-- Of what ends in front of the positions that are known, nothing more is asked. -/
theorem Remembered.extend (hgrows : Grows marks marks') (hlt : label.stop < horizon)
    (h : j.Remembered marks horizon above below label) :
    j.Remembered marks' horizon' above below label :=
  ⟨h.links, fun hgap => hgrows.marked _ (h.joint hgap),
    fun hclear _ => h.forced (hgrows.clear hclear) hlt,
    h.spread.mono fun t d _ hle hd hclear _ => hd (hgrows.clear hclear) (by omega)⟩

/-- A way does not lead to the left. -/
theorem position_le_of_trail (h : Trail (j.Remembered marks horizon) bottom pieces top) :
    bottom.position ≤ top.position := by
  induction h with
  | nil => exact Nat.le_refl _
  | snoc _ hlabel ih =>
    have hfirst := hlabel.links.first_eq
    have hread := hlabel.links.reads.first_le
    have hstop := hlabel.links.reads.stop_eq
    have habove := hlabel.links.above_covered
    omega

/-- **Along an unmarked way everything is forced.** -/
theorem forced_of_trail (h : Trail (j.Remembered marks horizon) bottom pieces top)
    (hclear : Clear marks bottom.position top.position) (hlt : top.position < horizon) :
    ∃ tops, j.Forced bottom.state bottom.position pieces top.state top.position tops := by
  induction h with
  | nil => exact ⟨[], .nil _ _⟩
  | @snoc below top pieces label hfront hlabel ih =>
    have hbelow := position_le_of_trail hfront
    have hfirst := hlabel.links.first_eq
    have hread := hlabel.links.reads.first_le
    have hstop := hlabel.links.reads.stop_eq
    have habove := hlabel.links.above_covered
    -- There is no gap at the upper end, for it would be marked.
    have hend : label.stop = top.position := by
      refine Nat.le_antisymm (by omega) (Nat.le_of_not_lt fun hgap => ?_)
      exact hclear.not_marked (by omega) (by omega) (hlabel.joint hgap)
    obtain ⟨tops, hforced⟩ := ih (hclear.mono (Nat.le_refl _) (by omega)) (by omega)
    obtain ⟨tops', hlast, _⟩ := hlabel.forced (hclear.mono (by omega) (by omega)) (by omega)
    rw [hfirst] at hforced
    rw [hend] at hlast
    exact ⟨tops', hforced.append hlast⟩

/-- What is known of a way that ends in front of the positions that are known. -/
theorem trail_extend (hgrows : Grows marks marks')
    (h : Trail (j.Remembered marks horizon) bottom pieces top) (hlt : top.position < horizon) :
    Trail (j.Remembered marks' horizon') bottom pieces top := by
  induction h with
  | nil => exact .nil _
  | @snoc below top pieces label _ hlabel ih =>
    have hfirst := hlabel.links.first_eq
    have hread := hlabel.links.reads.first_le
    have hstop := hlabel.links.reads.stop_eq
    have habove := hlabel.links.above_covered
    have hend : label.stop < horizon := by omega
    exact (ih (by omega)).snoc (hlabel.extend hgrows hend)

/-! ## Finishing productions -/

/-- The pieces of a way, of whose nodes something is remembered. -/
theorem strewn_of_trail (h : Trail (j.Remembered marks horizon) bottom pieces top) :
    Strewn (j.Traced marks horizon) bottom.position top.position pieces := by
  induction h with
  | nil => exact Nat.le_refl _
  | @snoc below top pieces label _ hlabel ih =>
    have hfirst := hlabel.links.first_eq
    have hread := hlabel.links.reads.first_le
    have hstop := hlabel.links.reads.stop_eq
    have habove := hlabel.links.above_covered
    have hend : label.stop ≤ top.position := by omega
    exact ih.append ⟨Nat.le_of_eq hfirst, hread, hlabel.spread, hend⟩

/-- **What is remembered of the nodes in a finished production**, over a way and one more piece. -/
theorem spread_reduceLabel (hj : j.Ready) (hr : j.RegionsSpread (j.Traced marks horizon) regions)
    {front : List Label} {last : Label} (q before : Nat)
    (htrail : Trail (j.Remembered marks horizon) bottom front below)
    (hfirst : below.position = last.first) (hlast : last.first ≤ last.stop)
    (hstop : last.stop ≤ j.finish)
    (hspread : Node.Spread (j.Traced marks horizon) last.first last.stop [last.node])
    (hhere : j.Traced marks horizon bottom.position
      (j.reduceLabel regions q before (front ++ [last])).1.node) :
    Node.Spread (j.Traced marks horizon) bottom.position last.stop
      [(j.reduceLabel regions q before (front ++ [last])).1.node] := by
  have hstrewn : Strewn (j.Traced marks horizon) bottom.position last.stop (front ++ [last]) :=
    (strewn_of_trail htrail).append ⟨Nat.le_of_eq hfirst, hlast, hspread, Nat.le_refl _⟩
  have hlast? : (front ++ [last]).getLast? = some last := List.getLast?_concat
  obtain ⟨piece, hpiece, hposition⟩ : ∃ piece, (front ++ [last]).head? = some piece ∧
      bottom.position = piece.first := by
    cases front with
    | nil =>
      obtain rfl := htrail.eq_of_nil
      exact ⟨last, rfl, hfirst⟩
    | cons piece rest =>
      obtain ⟨above, hlabel⟩ := htrail.first
      exact ⟨piece, rfl, hlabel.links.first_eq⟩
  rw [reduceLabel_eq hpiece hlast?, ← hposition] at hhere ⊢
  exact Node.Spread.node (assemble_spread traced_of_before? hj.regular hr hstop hstrewn)
    (tokenCount_rule ..) hhere

/-- What is left behind is marked all over, so nothing is asked of the nodes in it. -/
theorem regionsSpread_of_marked (hj : j.Ready) (hr : j.RegionsRead regions)
    (hmarked : ∀ r ∈ regions, ∀ m, r.first ≤ m → m ≤ r.stop → Marked marks m) :
    j.RegionsSpread (j.Traced marks horizon) regions := by
  intro r hmem hlt hstop
  have hcount := hr.tokenCount hj.regular hmem hlt hstop
  have htokens : r.first + Node.tokensOf [r.node] = r.stop := hcount
  refine ⟨htokens, fun t d hd hclear _ => ?_⟩
  have hle := hd.tokenCount_le
  exact absurd (hmarked r hmem (r.first + t) (by omega) (by omega))
    (hclear.not_marked (Nat.le_refl _) (by omega))

/-- **While productions are finished at a position**, what ends in front of it is remembered. -/
theorem closed_remembered (hj : j.Ready) (ht : j.table.Canonical) (hr : j.RegionsRead regions)
    (hmarked : ∀ r ∈ regions, ∀ m, r.first ≤ m → m ≤ r.stop → Marked marks m)
    (hp : p ≤ j.finish) (hc : c ≤ p) (hgap : c < p → Marked marks c) :
    j.ClosedUnder regions p c (j.Remembered marks p) := by
  intro bottom top pieces q target htrail hposition hcovered hq hlength hgoto
  obtain ⟨hstop, hlink⟩ := closed_links hj ht hr hp hc
    (htrail.mono fun h => Remembered.links h) hposition hcovered hq hlength hgoto
  have hne : pieces ≠ [] := List.length_pos_iff.mp (hlength ▸ rhs_length_pos ht hq)
  obtain ⟨front, last, rfl⟩ := List.eq_nil_or_concat' pieces |>.resolve_left hne
  obtain ⟨below, hfront, hlast⟩ := htrail.last
  have hend : last.stop = c := hlast.links.reads.stop_eq.trans hcovered
  have hfirst : bottom.position =
      (j.reduceLabel regions q bottom.state (front ++ [last])).1.first := hlink.first_eq
  refine ⟨hstop, hlink, fun hlt => ?_, fun hclear hlt => ?_, ?_⟩
  · rw [hstop] at hlt ⊢
    exact hgap hlt
  · -- What ends in front of the position ends at a gap, which is marked.
    have hread := hlink.reads.first_le
    rw [hstop] at hclear hlt hread
    exact absurd (hgap hlt) (hclear.not_marked hread (Nat.le_refl _))
  · rw [← hfirst, hstop, ← hend]
    refine spread_reduceLabel hj (regionsSpread_of_marked hj hr hmarked) q bottom.state hfront
      hlast.links.first_eq hlast.links.reads.first_le hlast.links.stop_le hlast.spread ?_
    intro hclear hlt
    have hcount := hlink.tokenCount hj
    have hread := hlink.reads.first_le
    have hsum : bottom.position +
        (j.reduceLabel regions q bottom.state (front ++ [last])).1.node.tokenCount = c := by omega
    rw [hsum] at hclear hlt
    exact absurd (hgap hlt) (hclear.not_marked (by omega) (Nat.le_refl _))

end ParseJob

end LayeredSyntax
