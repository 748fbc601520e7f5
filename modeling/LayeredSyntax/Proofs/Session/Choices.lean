/-
  CHOICES — which of several ways to read a text is kept.

  Where several productions of a nonterminal can be finished on the same node, their subtrees
  compete for one edge.  **When everything has been finished at a position, the production that was
  declared first has won every edge** (`Progress.ChoosesFirst`), whatever the order in which the
  productions were finished, and whatever was repaired or taken over before.

  This is so of the edges of the heads.  It is not so of all nodes of a tree: what has been finished
  with a subtree keeps it, also when another subtree takes its place on the edge.  The production
  declared first comes too late wherever it is a detour (`run_detour`).
-/
import Mathlib
import LayeredSyntax.Proofs.Session.Termination

namespace LayeredSyntax

namespace Progress

variable {j : ParseJob} {s : Progress} {floor : Nat}

/-- The productions that the heads can finish at the position, each with the node that its subtree
    is put on. -/
def finishable (j : ParseJob) (s : Progress) : List (Nat × Nat) :=
  s.stack.heads.flatMap fun head =>
    (j.reductions (s.stack.state head) s.position).flatMap fun q =>
      (s.stack.ways [] head (j.table.production q).rhs.length).map fun way => (q, way.1)

theorem mem_finishable {q bottom : Nat} : (q, bottom) ∈ s.finishable j ↔ ∃ head ∈ s.stack.heads,
    q ∈ j.reductions (s.stack.face head).state s.position ∧
      s.stack.Path head (j.table.production q).rhs.length bottom := by
  constructor
  · intro h
    obtain ⟨head, hhead, h⟩ := List.mem_flatMap.mp h
    obtain ⟨q, hq, h⟩ := List.mem_flatMap.mp h
    obtain ⟨way, hway, heq⟩ := List.mem_map.mp h
    cases heq
    exact ⟨head, hhead, hq, Stack.path_of_mem_ways hway⟩
  · rintro ⟨head, hhead, hq, hpath⟩
    obtain ⟨pieces, hway⟩ := Stack.exists_way hpath []
    exact List.mem_flatMap.mpr ⟨head, hhead, List.mem_flatMap.mpr ⟨q, hq,
      List.mem_map.mpr ⟨(bottom, pieces), hway, rfl⟩⟩⟩

/-- **Whether every edge is that of the production declared first**: the head that is gone to over a
    production has an edge to the node that its subtree is put on, and no production of an edge was
    declared behind one that can be finished there. -/
def ChoosesFirst (j : ParseJob) (s : Progress) : Prop :=
  ∀ q bottom target, (q, bottom) ∈ s.finishable j →
    j.table.goto? (s.stack.state bottom) (j.table.production q).lhs = some target →
      ∃ head e, s.stack.headIn? target = some head ∧ s.stack.edge? head bottom = some e ∧
        ∀ first, e.label.node.production? = some first → first ≤ q

theorem Paced.choosesFirst [Limits] (hs : s.Paced j floor) (ht : j.table.Canonical)
    (hsettled : s.settled = false) : (s.reduceAll j).ChoosesFirst j := by
  obtain ⟨base, c, hfresh⟩ := hs.fresh hsettled
  have hE : j.ClosedUnder s.regions s.position c EndsCovered := ParseJob.closed_endsCovered ht
  have hfresh' := (ParseJob.reduceAll_fresh ht hE hfresh hs.poised.edges).1
  intro q bottom target hfinishable hgoto
  obtain ⟨head, hhead, hq, hpath⟩ := mem_finishable.mp hfinishable
  obtain ⟨hbase, hlt⟩ := hfresh'.mem_heads.mp hhead
  obtain ⟨n, hn⟩ := Nat.exists_eq_succ_of_ne_zero (Nat.ne_of_gt (ParseJob.rhs_length_pos ht hq))
  rw [hn] at hpath
  obtain ⟨i, hi, hilt, hface, e, he, hfirst⟩ := ParseJob.reduceAll_decided ht hE hfresh
    hs.poised.edges hbase hlt hq hn hpath hgoto
  have hfound : (s.reduceAll j).stack.headIn? target = some i :=
    (hfresh'.index target i).mpr ⟨hi, hilt, congrArg Face.state hface⟩
  exact ⟨i, e, hfound, he, hfirst⟩

end Progress

/-- **In every turn of a parse the production declared first wins**, wherever productions are
    finished. -/
theorem ParseJob.choosesFirst_of_run [Limits] {grammars : List Grammar} {table : Table}
    {entry : Entry}
    (grammar : GrammarId) (tokens : TokenStream) (resync : ResyncSet) (reuse : Option ReuseIndex)
    (reports : Bool) (h : compose grammars = .ok table)
    (hentry : table.entry? grammar = some entry) (hpos : 1 ≤ tokens.size) :
    let j := ParseJob.prepare table grammar tokens resync reuse reports
    ∃ log, (j.entered entry.state).Turns j log j.run ∧
      ∀ e ∈ log, e.1.settled = false → (e.1.reduceAll j).ChoosesFirst j := by
  intro j
  have ht : j.table.Canonical := compose_canonical h
  obtain ⟨log, htour⟩ := exists_tour_of_run ht hentry (Nat.ne_of_gt hpos)
  refine ⟨log, htour.turns, fun e he hsettled => ?_⟩
  obtain ⟨floor, hpaced⟩ := htour.paced e he
  exact hpaced.choosesFirst ht hsettled

/-- Three words are a row in two ways. -/
theorem ParseJob.choosesFirst_of_run_rowsOfWords : ∃ t entry,
    compose [Grammar.rowsOfWords] = .ok t ∧ t.entry? ⟨"rows"⟩ = some entry ∧
    1 ≤ (TokenStream.read .expr (.ofText "a a a")).size ∧
    let j := ParseJob.prepare t ⟨"rows"⟩ (.read .expr (.ofText "a a a")) ⟨[]⟩ none true
    ∃ log, (j.entered entry.state).Turns j log j.run ∧
      ∀ e ∈ log, e.1.settled = false → (e.1.reduceAll j).ChoosesFirst j := by
  obtain ⟨t, ht, _, hentry, _⟩ := compose_rowsOfWords
  obtain ⟨entry, hentry, _⟩ := Option.map_eq_some_iff.mp hentry
  have hpos : 1 ≤ (TokenStream.read .expr (.ofText "a a a")).size := by cbv
  exact ⟨t, entry, ht, hentry, hpos,
    ParseJob.choosesFirst_of_run ⟨"rows"⟩ _ ⟨[]⟩ none true ht hentry hpos⟩

/-! ## A detour -/

/-- A grammar in which a part is a word in two ways, and the one declared first is a detour. -/
def Grammar.detour : Grammar :=
  ⟨⟨"detour"⟩, "text", [⟨"text", [.plain [.rule "part"]]⟩,
    ⟨"part", [.plain [.rule "long"], .plain [.terminal (.kind .identifier)]]⟩,
    ⟨"long", [.plain [.rule "word"]]⟩,
    ⟨"word", [.plain [.terminal (.kind .identifier)]]⟩], [], [], [], [], []⟩

/-- **A detour is lost.**  At the end of the text both productions of a part, 1 and 2, are finished
    on the node at the bottom.  The text has been finished with the second one before the first one
    is finished, and so it is the second one that is in the tree. -/
theorem ParseJob.run_detour : ∃ t entry, compose [Grammar.detour] = .ok t ∧
    t.entry? ⟨"detour"⟩ = some entry ∧
    let j := ParseJob.prepare t ⟨"detour"⟩ (.read .expr (.ofText "a")) ⟨[]⟩ none true
    let s := (((j.entered entry.state).reduceAll j).shift j).2.reduceAll j
    j.run.counts.repairs = 0 ∧
      (Place.ofRoot j.run.tree).descendants.filterMap (·.node.production?) = [0, 2] ∧
      s.finishable j = [(2, 0), (4, 0), (0, 0), (3, 0), (1, 0)] ∧
      (t.production 1).lhs = (t.production 2).lhs := by
  have h : ((compose [Grammar.detour]).toOption.bind fun t => (t.entry? ⟨"detour"⟩).map fun entry =>
      let j := ParseJob.prepare t ⟨"detour"⟩ (.read .expr (.ofText "a")) ⟨[]⟩ none true
      let s := (((j.entered entry.state).reduceAll j).shift j).2.reduceAll j
      (j.run.counts.repairs, (Place.ofRoot j.run.tree).descendants.filterMap (·.node.production?),
        s.finishable j, decide ((t.production 1).lhs = (t.production 2).lhs))) =
        some (0, [0, 2], [(2, 0), (4, 0), (0, 0), (3, 0), (1, 0)], true) := by cbv
  obtain ⟨t, ht, h⟩ := Option.bind_eq_some_iff.mp h
  obtain ⟨entry, hentry, h⟩ := Option.map_eq_some_iff.mp h
  obtain ⟨hrepairs, h⟩ := Prod.mk.inj h
  obtain ⟨htree, h⟩ := Prod.mk.inj h
  obtain ⟨hfinishable, hsame⟩ := Prod.mk.inj h
  exact ⟨t, entry, compose_of_toOption ht, hentry, hrepairs, htree, hfinishable,
    of_decide_eq_true hsame⟩

end LayeredSyntax
