/-
  A TURN WITHOUT A MARK — what was made at a position at which there was no choice.

  When a token has been read at a position that is not marked, every head there could do one thing at
  most, and no two ways have met (`Turned`).  What ends at the position is forced then:

  1. **From the older heads to the newer ones**: the first head stands on the token in front of the
     position, and every other head was made from an older one by what is all that this one could do.
     So its subtree is forced, over states of older heads (`Turned.forced`).
  2. **From the newer heads to the older ones**: if a production consists of a head's subtree alone,
     it made a newer head in a state that no older one is in (`Turned.quiet`).
  3. So what is asked of the nodes in a subtree is known of those that end at the position, too
     (`Turned.spread`).

  The states of the heads are all different, which is why nothing that is made meets what is there.
-/
import LayeredSyntax.Proofs.Parse.Remembering

namespace LayeredSyntax

namespace ParseJob

/-- **How the edges begin with which a turn is opened**: each holds the token in front of the
    position, and it was forced unless the position of that token is marked. -/
def Opening (j : ParseJob) (marks : Array Bool) (p : Nat) (above below : Face) (label : Label) :
    Prop :=
  above.position = p → label.node.before? = none ∧ label.node.children = [] ∧
    label.first + 1 = p ∧ label.stop = p ∧
    (Marked marks label.first ∨
      j.Forced below.state label.first [label] above.state p [above.state])

theorem Opening.grow {j : ParseJob} {marks marks' : Array Bool} {p : Nat} {above below : Face}
    {label : Label} (hgrows : Grows marks marks') (h : j.Opening marks p above below label) :
    j.Opening marks' p above below label := by
  intro hposition
  obtain ⟨hbefore, hchildren, hfirst, hstop, hforced⟩ := h hposition
  exact ⟨hbefore, hchildren, hfirst, hstop, hforced.imp_left (hgrows.marked _)⟩

/-- Where a production can be finished and there is no choice, that is all that can be done. -/
theorem actions_of_mem_reductions {j : ParseJob} {state p q : Nat}
    (hq : q ∈ j.reductions state p) (hlength : (j.actions state p).length ≤ 1) :
    j.actions state p = [.reduce q] := by
  have hmem : .reduce q ∈ j.actions state p := mem_actions.mpr (mem_reductions.mp hq)
  obtain ⟨front, back, heq⟩ := List.append_of_mem hmem
  rw [heq] at hlength ⊢
  rw [List.length_append, List.length_cons] at hlength
  have hfront : front = [] := List.length_eq_zero_iff.mp (by omega)
  have hback : back = [] := List.length_eq_zero_iff.mp (by omega)
  rw [hfront, hback]
  rfl

end ParseJob

open ParseJob

/-- **What is known of the stacks before and after everything has been finished** at a position that
    is not marked in the end. -/
structure Turned (j : ParseJob) (marks : Array Bool) (regions : Regions) (p base c : Nat)
    (old new : Stack) : Prop where
  fresh : new.Fresh base p c
  edges : new.Edges (j.Remembered marks p)
  extend : old.Extends new
  made : ∀ i, old.nodes.size ≤ i → i < new.nodes.size → ∃ head q way,
    base ≤ head ∧ new.MadeBy j regions p head q way i
  gone : ∀ head q way target, base ≤ head → head < new.nodes.size →
    q ∈ j.reductions (new.state head) p →
    way ∈ new.ways [] head (j.table.production q).rhs.length →
    j.table.goto? (new.state way.1) (j.table.production q).lhs = some target →
      ∃ i, new.MadeBy j regions p head q way i ∧ new.state i = target
  single : ∀ i, base ≤ i → i < new.nodes.size → (j.actions (new.state i) p).length ≤ 1
  older : ∀ i < base, (new.face i).position < p
  opening : old.Edges (j.Opening marks p)

namespace Turned

variable {j : ParseJob} {marks : Array Bool} {regions : Regions} {p base c : Nat}
  {old new : Stack}

/-- **What a new head stands on**: the way that its subtree was made of ends with the subtree of an
    older head. -/
theorem exists_inner (h : Turned j marks regions p base c old new) (ht : j.table.Canonical)
    {i : Nat} (hi : old.nodes.size ≤ i) (hlt : i < new.nodes.size) :
    ∃ head q bottom front last, base ≤ head ∧ head < i ∧ last ∈ new.edges head ∧
      j.actions (new.state head) p = [.reduce q] ∧
      Trail (j.Remembered marks p) (new.face bottom) front (new.face last.below) ∧
      (front ++ [last.label]).length = (j.table.production q).rhs.length ∧
      j.table.goto? (new.state bottom) (j.table.production q).lhs = some (new.state i) ∧
      new.edges i = [⟨bottom,
        (j.reduceLabel regions q (new.state bottom) (front ++ [last.label])).1⟩] := by
  obtain ⟨head, q, ⟨bottom, pieces⟩, hbase, hmade⟩ := h.made i hi hlt
  obtain ⟨n, hn⟩ := Nat.exists_eq_succ_of_ne_zero (Nat.ne_of_gt (rhs_length_pos ht hmade.finishes))
  have hmem := hmade.mem
  rw [hn] at hmem
  obtain ⟨last, hlast, hmem⟩ := Stack.mem_ways_succ.mp hmem
  obtain ⟨front, rfl, hlength, htrail⟩ := Stack.trail_of_mem_ways h.edges hmem
  refine ⟨head, q, bottom, front, last, hbase, hmade.older, hlast, ?_, htrail, ?_, hmade.goto,
    hmade.edges⟩
  · exact actions_of_mem_reductions hmade.finishes
      (h.single head hbase (Nat.lt_trans hmade.older hmade.lt))
  · rw [List.length_append, hlength, hn]
    rfl

/-- **Whether what is on an edge of a head ends at the position and is forced**, over states that
    are those of heads up to this one. -/
structure ForcedAt (j : ParseJob) (marks : Array Bool) (p base : Nat) (s : Stack) (i : Nat)
    (e : Edge) : Prop where
  first_lt : e.label.first < p
  stop_eq : e.label.stop = p
  forced : Clear marks e.label.first p → ∃ tops,
    (∀ x ∈ tops, ∃ k, base ≤ k ∧ k ≤ i ∧ s.state k = x) ∧
    j.Forced (s.state e.below) e.label.first [e.label] (s.state i) p tops

/-- Where the turn was opened with the head, it has just read a token. -/
theorem forcedAt_of_old (h : Turned j marks regions p base c old new) {i : Nat} (hbase : base ≤ i)
    (hold : i < old.nodes.size) {e : Edge} (he : e ∈ new.edges i) :
    ForcedAt j marks p base new i e := by
  have he' : e ∈ old.edges i := h.extend.edges hold ▸ he
  have hlt := Nat.lt_of_lt_of_le hold h.extend.size_le
  have hface : old.face i = new.face i := (congrArg StackNode.face (h.extend.node i hold)).symm
  obtain ⟨_, _, hfirst, hstop, hforced⟩ := h.opening i e he'
    (hface ▸ (h.fresh.top i hbase hlt).1)
  refine ⟨by omega, hstop, fun hclear => ⟨[new.state i], fun x hx => ?_, ?_⟩⟩
  · exact ⟨i, hbase, Nat.le_refl i, (List.mem_singleton.mp hx).symm⟩
  · rcases hforced with hmarked | hforced
    · exact absurd hmarked (hclear.not_marked (Nat.le_refl _) (by omega))
    · have habove : (old.face i).state = new.state i := congrArg Face.state hface
      have hbelow : (old.face e.below).state = new.state e.below :=
        (h.extend.state (Nat.lt_trans (h.fresh.down i e he).1 hold)).symm
      rwa [habove, hbelow] at hforced

/-- **Where the head was made in the turn**, its production ends with the subtree of an older head. -/
theorem forcedAt_of_new (h : Turned j marks regions p base c old new) (ht : j.table.Canonical)
    {i : Nat} (hnew : old.nodes.size ≤ i) (hlt : i < new.nodes.size)
    (ih : ∀ head < i, base ≤ head → head < new.nodes.size → ∀ e ∈ new.edges head,
      ForcedAt j marks p base new head e) {e : Edge} (he : e ∈ new.edges i) :
    ForcedAt j marks p base new i e := by
  obtain ⟨head, q, bottom, front, last, hhead, holder, hlast, hactions, htrail, hlength, hgoto,
    hedges⟩ := h.exists_inner ht hnew hlt
  have hbase : base ≤ i := by omega
  have hlt' := Nat.lt_trans holder hlt
  rw [hedges] at he
  obtain rfl := List.mem_singleton.mp he
  obtain ⟨hfirst, hstop, hforced⟩ := ih head holder hhead hlt' last hlast
  have hlink : j.Links (new.face i) (new.face bottom)
      (j.reduceLabel regions q (new.state bottom) (front ++ [last.label])).1 :=
    (h.edges i _ (hedges ▸ List.mem_cons_self)).links
  have hlastLink := (h.edges head last hlast).links
  have hle := position_le_of_trail htrail
  have hbottom := hlink.first_eq
  have hbelow := hlastLink.first_eq
  have hend := hlink.reads.stop_eq
  have hlastEnd := hlastLink.reads.stop_eq
  have hcovered := (h.fresh.top i hbase hlt).2
  have hcovered' := (h.fresh.top head hhead hlt').2
  refine ⟨by dsimp only; omega, by dsimp only; omega, fun hclear => ?_⟩
  dsimp only at hclear ⊢
  obtain ⟨tops, htops, hinner⟩ := hforced (hclear.mono (by omega) (Nat.le_refl p))
  obtain ⟨_, hfront⟩ := forced_of_trail htrail
    (hclear.mono (Nat.le_of_eq hbottom.symm) (by omega)) (by omega)
  rw [hbelow] at hfront
  have hall := hfront.append hinner
  have hne : front ++ [last.label] ≠ [] :=
    List.append_ne_nil_of_right_ne_nil _ (List.cons_ne_nil _ _)
  have hstate : new.state i ∉ tops := by
    intro hmem
    obtain ⟨k, hk, hki, hsame⟩ := htops _ hmem
    have heq := h.fresh.inj k i hk (by omega) hbase hlt hsame
    omega
  refine ⟨tops ++ [new.state i], fun x hx => ?_, ?_⟩
  · rcases List.mem_append.mp hx with hx | hx
    · obtain ⟨k, hk, hki, hsame⟩ := htops x hx
      exact ⟨k, hk, by omega, hsame⟩
    · exact ⟨i, hbase, Nat.le_refl i, (List.mem_singleton.mp hx).symm⟩
  · have hone := (Forced.nil _ _).finish hall hne hactions hlength hgoto hstate
    rw [← j.reduceLabel_congr regions [] q _ hall.tight hne] at hone
    rw [← hbottom]
    exact hone

/-- **From the older heads to the newer ones**: what ends at the position is forced. -/
theorem forced (h : Turned j marks regions p base c old new) (ht : j.table.Canonical) (i : Nat) :
    base ≤ i → i < new.nodes.size → ∀ e ∈ new.edges i, ForcedAt j marks p base new i e := by
  induction i using Nat.strongRecOn with
  | ind i ih =>
    intro hbase hlt e he
    rcases Nat.lt_or_ge i old.nodes.size with hold | hnew
    · exact h.forcedAt_of_old hbase hold he
    · exact h.forcedAt_of_new ht hnew hlt ih he

/-- **From the newer heads to the older ones**: what is made of a subtree alone comes to an end. -/
theorem quiet (h : Turned j marks regions p base c old new) {i : Nat} (hbase : base ≤ i)
    (hlt : i < new.nodes.size) {e : Edge} (he : e ∈ new.edges i) {tops : List Nat}
    (htops : ∀ x ∈ tops, ∃ k, base ≤ k ∧ k ≤ i ∧ new.state k = x) :
    j.Quiet (new.state e.below) p tops (new.state i) := by
  obtain ⟨n, hn⟩ : ∃ n, n = new.nodes.size - i := ⟨_, rfl⟩
  induction n using Nat.strongRecOn generalizing i e tops with
  | ind n ih =>
    by_cases hleads : ∃ q ∈ j.reductions (new.state i) p,
        (j.table.production q).rhs.length = 1 ∧
        j.table.goto? (new.state e.below) (j.table.production q).lhs ≠ none
    · obtain ⟨q, hq, hlength, hgoto⟩ := hleads
      obtain ⟨target, hgoto⟩ := Option.ne_none_iff_exists'.mp hgoto
      have hway : (e.below, [e.label]) ∈ new.ways [] i (j.table.production q).rhs.length := by
        rw [hlength]
        exact Stack.mem_ways_succ.mpr ⟨e, he, List.mem_cons_self⟩
      obtain ⟨next, hmade, rfl⟩ := h.gone i q _ target hbase hlt hq hway hgoto
      have hnext := hmade.older
      have hnextlt := hmade.lt
      refine .step (actions_of_mem_reductions hq (h.single i hbase hlt)) hlength hgoto
        (fun hmem => ?_) ?_
      · obtain ⟨k, hk, hki, hsame⟩ := htops _ hmem
        have heq := h.fresh.inj k next hk (by omega) (by omega) hnextlt hsame
        omega
      · have hedge : (⟨e.below, (j.reduceLabel regions q (new.state e.below) [e.label]).1⟩ : Edge) ∈
            new.edges next := by
          rw [hmade.edges]
          exact List.mem_cons_self
        refine ih (new.nodes.size - next) (by omega) (by omega) hnextlt hedge (fun x hx => ?_) rfl
        rcases List.mem_append.mp hx with hx | hx
        · obtain ⟨k, hk, hki, hsame⟩ := htops x hx
          exact ⟨k, hk, by omega, hsame⟩
        · exact ⟨next, by omega, Nat.le_refl _, (List.mem_singleton.mp hx).symm⟩
    · refine .rest fun q hq hlength => Decidable.byContradiction fun hgoto => ?_
      exact hleads ⟨q, hq, hlength, hgoto⟩

/-- **What is asked of the nodes in a subtree** that ends at the position. -/
theorem spread (h : Turned j marks regions p base c old new) (hj : j.Ready)
    (ht : j.table.Canonical) (hr : j.RegionsRead regions)
    (hmarked : ∀ r ∈ regions, ∀ m, r.first ≤ m → m ≤ r.stop → Marked marks m) (i : Nat) :
    base ≤ i → i < new.nodes.size → ∀ e ∈ new.edges i,
      Node.Spread (j.Traced marks (p + 1)) e.label.first e.label.stop [e.label.node] := by
  induction i using Nat.strongRecOn with
  | ind i ih =>
    intro hbase hlt e he
    obtain ⟨hfirst, hstop, hforced⟩ := h.forced ht i hbase hlt e he
    have hlink := (h.edges i e he).links
    have hcount := hlink.tokenCount hj
    rcases Nat.lt_or_ge i old.nodes.size with hold | hnew
    · have he' : e ∈ old.edges i := h.extend.edges hold ▸ he
      have hface : old.face i = new.face i := (congrArg StackNode.face (h.extend.node i hold)).symm
      obtain ⟨hbefore, hchildren, _⟩ := h.opening i e he' (hface ▸ (h.fresh.top i hbase hlt).1)
      exact Node.spread_childless (traced_of_before? _ _ hbefore) hchildren (by omega)
    · obtain ⟨head, q, bottom, front, last, hhead, holder, hlast, hactions, htrail, hlength, hgoto,
        hedges⟩ := h.exists_inner ht hnew hlt
      have heq := he
      rw [hedges] at heq
      obtain rfl := List.mem_singleton.mp heq
      dsimp only at hfirst hstop hforced hlink hcount ⊢
      obtain ⟨hlastFirst, hlastStop, _⟩ := h.forced ht head hhead (Nat.lt_trans holder hlt) last hlast
      have hlastLink := (h.edges head last hlast).links
      have hbelow := hlastLink.first_eq
      have hspread := ih head holder hhead (Nat.lt_trans holder hlt) last hlast
      have hend := hstop.trans hlastStop.symm
      rw [hend, ← hlink.first_eq]
      refine spread_reduceLabel hj (regionsSpread_of_marked hj hr hmarked) q _
        (trail_extend (.refl _) htrail (by omega)) hbelow (by omega) hlastLink.stop_le hspread ?_
      -- The production itself is forced.
      rw [hlink.first_eq]
      intro hclear _ kind g a q' before children hnode
      have hsum : (j.reduceLabel regions q (new.state bottom) (front ++ [last.label])).1.first +
          (j.reduceLabel regions q (new.state bottom) (front ++ [last.label])).1.node.tokenCount =
            p := by omega
      rw [hsum] at hclear ⊢
      obtain ⟨tops, htops, hone⟩ := hforced hclear
      have hquiet := h.quiet hbase hlt he htops
      have hrule : a = (j.table.production q).lhs ∧ before = new.state bottom := by
        cases hnode
        exact ⟨rfl, rfl⟩
      obtain ⟨rfl, rfl⟩ := hrule
      refine ⟨new.state i, tops, hgoto, ?_, hquiet⟩
      have hlabel : ((j.reduceLabel regions q (new.state bottom) (front ++ [last.label])).1) =
          ⟨(j.reduceLabel regions q (new.state bottom) (front ++ [last.label])).1.node,
            (j.reduceLabel regions q (new.state bottom) (front ++ [last.label])).1.first, p⟩ := by
        rw [← hstop]
      rw [← hlabel]
      exact hone

/-- **What is remembered when a position has been passed without a mark.** -/
theorem remembered (h : Turned j marks regions p base c old new) (hj : j.Ready)
    (ht : j.table.Canonical) (hr : j.RegionsRead regions)
    (hmarked : ∀ r ∈ regions, ∀ m, r.first ≤ m → m ≤ r.stop → Marked marks m) :
    new.Edges (j.Remembered marks (p + 1)) := by
  intro i e he
  have hlink := (h.edges i e he).links
  rcases Nat.lt_or_ge i base with hold | hbase
  · have hlt := h.older i hold
    have hend := hlink.reads.stop_eq
    have hcovered := hlink.above_covered
    have hstop : e.label.stop < p := by omega
    exact (h.edges i e he).extend (.refl _) hstop
  · have hlt := Stack.lt_of_mem_edges he
    obtain ⟨hfirst, hstop, hforced⟩ := h.forced ht i hbase hlt e he
    refine ⟨hlink, fun hgap => ?_, fun hclear _ => ?_, h.spread hj ht hr hmarked i hbase hlt e he⟩
    · rw [(h.fresh.top i hbase hlt).1, hstop] at hgap
      exact absurd hgap (Nat.lt_irrefl p)
    · rw [hstop] at hclear ⊢
      obtain ⟨tops, htops, hone⟩ := hforced hclear
      exact ⟨tops, hone, h.quiet hbase hlt he htops⟩

end Turned

end LayeredSyntax
