/-
  SETTLING — what is finished behind a forced subtree leaves it alone.

  When a forced subtree stands on a node, there is more to finish: productions that consist of it
  alone, and productions that reach further down.

  1. As long as a production consists of the subtree alone and is all that can be finished, it makes
     one more head on the same node.  That comes to an end (`Arrived.calm`).
  2. **All that is left then is put on nodes below the node** (`Reducing.Beneath`).  Such a subtree
     may make new heads and new edges, and the ways through these end below the node again.

  So the heads that there are stay in front of all others, and what is on an edge to the node stays
  there (`Stack.Spares`) until everything has been finished (`Arrived.settle`).
-/
import LayeredSyntax.Proofs.Parse.Replaying

namespace LayeredSyntax

namespace Stack

variable {s s' s'' : Stack} {i n b p bottom target : Nat} {label : Label} {e : Edge}

/-- No way leads up. -/
theorem path_le (hdown : ∀ i e, e ∈ s.edges i → e.below < i) (h : s.Path i n b) : b ≤ i := by
  induction n generalizing i with
  | zero => exact Nat.le_of_eq (Eq.symm h)
  | succ n ih =>
    obtain ⟨e, he, hpath⟩ := h
    exact Nat.le_of_lt (Nat.lt_of_le_of_lt (ih hpath) (hdown i e he))

theorem path_lt (hdown : ∀ i e, e ∈ s.edges i → e.below < i) (h : s.Path i (n + 1) b) : b < i := by
  obtain ⟨e, he, hpath⟩ := h
  exact Nat.lt_of_le_of_lt (path_le hdown hpath) (hdown i e he)

/-! ## What is put on below a node -/

/-- An edge leads where one led before, or to the node that a subtree was put on. -/
theorem below_placed (he : e ∈ (s.placed p bottom target label).edges i) :
    (∃ e' ∈ s.edges i, e'.below = e.below) ∨ e.below = bottom := by
  rcases placed_cases s p bottom target label with
    ⟨_, h⟩ | ⟨head, _, _, h⟩ | ⟨head, e', _, _, h | h⟩
  · rw [h, edges_push] at he
    split at he
    · obtain rfl := List.mem_singleton.mp he
      exact .inr rfl
    · exact .inl ⟨e, he, rfl⟩
  · rw [h, edges_addEdge] at he
    split at he
    · rcases List.mem_append.mp he with he | he
      · exact .inl ⟨e, he, rfl⟩
      · obtain rfl := List.mem_singleton.mp he
        exact .inr rfl
    · exact .inl ⟨e, he, rfl⟩
  · rw [h] at he
    exact .inl ⟨e, he, rfl⟩
  · rw [h, edges_relabel] at he
    split at he
    · obtain ⟨e', he', rfl⟩ := List.mem_map.mp he
      refine .inl ⟨e', he', ?_⟩
      split <;> rfl
    · exact .inl ⟨e, he, rfl⟩

/-- **An edge to another node keeps its subtree.** -/
theorem mem_edges_placed_of_ne (he : e ∈ s.edges i) (hne : e.below ≠ bottom) :
    e ∈ (s.placed p bottom target label).edges i := by
  have hi := lt_of_mem_edges he
  rcases placed_cases s p bottom target label with
    ⟨_, h⟩ | ⟨head, _, _, h⟩ | ⟨head, e', _, _, h | h⟩
  · rw [h, edges_push, if_neg (Nat.ne_of_lt hi)]
    exact he
  · rw [h, edges_addEdge]
    split
    · exact List.mem_append_left _ he
    · exact he
  · rw [h]
    exact he
  · rw [h, edges_relabel]
    split
    · exact List.mem_map.mpr ⟨e, he, if_neg hne⟩
    · exact he

/-- A subtree that is put on leaves the heads as they are, or there is one more. -/
theorem heads_placed (s : Stack) (p bottom target : Nat) (label : Label) :
    ∃ more, (s.placed p bottom target label).heads = s.heads ++ more := by
  rcases placed_cases s p bottom target label with
    ⟨_, h⟩ | ⟨head, _, _, h⟩ | ⟨head, e', _, _, h | h⟩ <;> rw [h]
  · exact ⟨[s.nodes.size], rfl⟩
  all_goals exact ⟨[], (List.append_nil _).symm⟩

/-- The head that is found in a state was found there before, or it is new. -/
theorem headIn?_placed {x : Nat} (h : (s.placed p bottom target label).headIn? x = some i) :
    s.headIn? x = some i ∨ i = s.nodes.size := by
  rcases placed_cases s p bottom target label with
    ⟨_, hs⟩ | ⟨head, _, _, hs⟩ | ⟨head, e', _, _, hs | hs⟩ <;> rw [hs] at h
  · rw [headIn?_push] at h
    split at h
    · exact .inr (Option.some.inj h).symm
    · exact .inl h
  all_goals exact .inl h

/-- **What goes on as it is while subtrees are put on nodes below a node**: the heads that there are,
    and the subtrees on that node. -/
structure Spares (b : Nat) (s s' : Stack) : Prop where
  size_le : s.nodes.size ≤ s'.nodes.size
  heads : ∃ more, s'.heads = s.heads ++ more
  face : ∀ i < s.nodes.size, s'.face i = s.face i
  edges : ∀ i e, e ∈ s.edges i → e.below = b → e ∈ s'.edges i

theorem Spares.refl (b : Nat) (s : Stack) : Spares b s s :=
  ⟨Nat.le_refl _, ⟨[], (List.append_nil _).symm⟩, fun _ _ => rfl, fun _ _ he _ => he⟩

theorem Spares.trans (h : Spares b s s') (h' : Spares b s' s'') : Spares b s s'' := by
  obtain ⟨more, hmore⟩ := h.heads
  obtain ⟨more', hmore'⟩ := h'.heads
  refine ⟨Nat.le_trans h.size_le h'.size_le, ⟨more ++ more', ?_⟩, fun i hi => ?_,
    fun i e he hb => h'.edges i e (h.edges i e he hb) hb⟩
  · rw [hmore', hmore, List.append_assoc]
  · exact (h'.face i (Nat.lt_of_lt_of_le hi h.size_le)).trans (h.face i hi)

theorem spares_placed (hbottom : bottom < b) : Spares b s (s.placed p bottom target label) :=
  ⟨size_le_placed _ _ _ _ _, heads_placed _ _ _ _ _, fun _ hi => face_placed hi,
    fun _ _ he hb => mem_edges_placed_of_ne he (by omega)⟩

theorem Extends.spares (h : s.Extends s') {more : List Nat} (hheads : s'.heads = s.heads ++ more)
    (b : Nat) : Spares b s s' := by
  refine ⟨h.size_le, ⟨more, hheads⟩, fun i hi => congrArg StackNode.face (h.node i hi),
    fun i e he _ => ?_⟩
  rw [h.edges (lt_of_mem_edges he)]
  exact he

/-- Edges go on leading down when a subtree is put on a node below the heads. -/
theorem down_placed (hdown : ∀ i e, e ∈ s.edges i → e.below < i)
    (hheads : ∀ x i, s.headIn? x = some i → bottom < i) (hbottom : bottom < s.nodes.size) :
    ∀ i e, e ∈ (s.placed p bottom target label).edges i → e.below < i := by
  intro i e he
  rcases placed_cases s p bottom target label with
    ⟨_, h⟩ | ⟨head, hhead, _, h⟩ | ⟨head, e', _, _, h | h⟩
  · rw [h] at he
    refine down_push hdown (fun e he => ?_) i e he
    obtain rfl := List.mem_singleton.mp he
    exact hbottom
  · rw [h, edges_addEdge] at he
    split at he
    · next hi =>
      rcases List.mem_append.mp he with he | he
      · exact hdown i e he
      · obtain rfl := List.mem_singleton.mp he
        exact hi.1 ▸ hheads target head hhead
    · exact hdown i e he
  · rw [h] at he
    exact hdown i e he
  · rw [h, edges_relabel] at he
    split at he
    · obtain ⟨e', he', rfl⟩ := List.mem_map.mp he
      have := hdown i e' he'
      split <;> exact this
    · exact hdown i e he

/-- **A way that is new ends below the node.** -/
theorem path_placed (hdown : ∀ i e, e ∈ (s.placed p bottom target label).edges i → e.below < i)
    (hbottom : bottom < b) {k : Nat} (h : (s.placed p bottom target label).Path i n k) :
    s.Path i n k ∨ k < b := by
  induction n generalizing i with
  | zero => exact .inl h
  | succ n ih =>
    obtain ⟨e, he, hpath⟩ := h
    rcases below_placed he with ⟨e', he', hbelow⟩ | hbelow
    · rcases ih hpath with hold | hlt
      · exact .inl ⟨e', he', hbelow ▸ hold⟩
      · exact .inr hlt
    · have hle := path_le hdown hpath
      exact .inr (by omega)

end Stack

namespace ParseJob

variable {j : ParseJob} {regions : Regions} {p q target bottom b : Nat} {label : Label}
  {r : Reducing}

/-- What is queued when a subtree is put into place: the productions of a new head, or those of an
    old one through the new edge. -/
theorem place_queues (j : ParseJob) (p : Nat) (r : Reducing) (bottom target : Nat)
    (label : Label) : ∃ new : List ReduceTask,
      (j.place p r bottom target label).stack = r.stack.placed p bottom target label ∧
      (j.place p r bottom target label).begun = r.begun ∧
      (j.place p r bottom target label).tasks.toList = r.tasks.toList ++ new ∧
      ∀ t ∈ new, (∃ state, t.production ∈ j.reductions state p) ∧
        ((r.stack.headIn? target = none ∧ t.head = r.stack.nodes.size) ∨ t.via = some bottom) := by
  rcases j.place_cases p r bottom target label with
    ⟨hhead, heq⟩ | ⟨_, _, _, _, heq⟩ | ⟨_, _, _, heq⟩ <;> rw [heq]
  · refine ⟨_, rfl, rfl, Array.toList_appendList .., fun t ht => ?_⟩
    obtain ⟨heq, _, hq⟩ := of_mem_tasksOf ht
    exact ⟨⟨target, hq⟩, .inl ⟨hhead, heq⟩⟩
  · exact ⟨[], rfl, rfl, (List.append_nil _).symm, nofun⟩
  · refine ⟨_, rfl, rfl, Array.toList_appendList .., fun t ht => ?_⟩
    obtain ⟨_, hvia, hq⟩ := of_mem_tasksVia ht
    exact ⟨⟨_, hq⟩, .inr hvia⟩

/-- **Whether a task is about nodes below a node**: along its ways a production leads on only from
    such nodes. -/
def Sinks (j : ParseJob) (b : Nat) (s : Stack) (t : ReduceTask) : Prop :=
  0 < (j.table.production t.production).rhs.length ∧
    ((∃ k, t.via = some k ∧ k < b) ∨
      ∀ k, s.Path t.head (j.table.production t.production).rhs.length k →
        j.table.goto? (s.state k) (j.table.production t.production).lhs = none ∨ k < b)

end ParseJob

/-- **Whether all that is left to finish is put on nodes below a node.** -/
structure Reducing.Beneath (j : ParseJob) (b : Nat) (r : Reducing) : Prop where
  lt : b < r.stack.nodes.size
  down : ∀ i e, e ∈ r.stack.edges i → e.below < i
  heads : ∀ x i, r.stack.headIn? x = some i → b < i
  waiting : ∀ t ∈ r.waiting, j.Sinks b r.stack t

namespace ParseJob

variable {j : ParseJob} {regions : Regions} {p q target bottom b : Nat} {label : Label}
  {r : Reducing}

/-- What waited before has the ways that it had, and some that end below the node. -/
theorem Sinks.placed {s : Stack} {t : ReduceTask} (h : j.Sinks b s t) (hbottom : bottom < b)
    (hdown : ∀ i e, e ∈ s.edges i → e.below < i)
    (hdown' : ∀ i e, e ∈ (s.placed p bottom target label).edges i → e.below < i) :
    j.Sinks b (s.placed p bottom target label) t := by
  obtain ⟨hpos, hvia | hways⟩ := h
  · exact ⟨hpos, .inl hvia⟩
  refine ⟨hpos, .inr fun k hpath => ?_⟩
  rcases Stack.path_placed hdown' hbottom hpath with hpath | hlt
  · obtain ⟨n, hn⟩ := Nat.exists_eq_succ_of_ne_zero (Nat.ne_of_gt hpos)
    have hk : k < s.nodes.size := by
      rw [hn] at hpath
      obtain ⟨e, he, _⟩ := id hpath
      exact Nat.lt_trans (Stack.path_lt hdown hpath) (Stack.lt_of_mem_edges he)
    have hstate : (s.placed p bottom target label).state k = s.state k :=
      congrArg Face.state (Stack.face_placed hk)
    rw [hstate]
    exact hways k hpath
  · exact .inr hlt

/-- A new head has one edge, to the node that the subtree was put on. -/
theorem sinks_of_new {s : Stack} {t : ReduceTask} (hbottom : bottom < b)
    (hpos : 0 < (j.table.production t.production).rhs.length) (hhead : t.head = s.nodes.size)
    (hdown : ∀ i e, e ∈ (s.placed p bottom target label).edges i → e.below < i) :
    j.Sinks b (s.placed p bottom target label) t := by
  refine ⟨hpos, .inr fun k hpath => .inr ?_⟩
  obtain ⟨n, hn⟩ := Nat.exists_eq_succ_of_ne_zero (Nat.ne_of_gt hpos)
  rw [hn, hhead] at hpath
  obtain ⟨e, he, hpath⟩ := hpath
  have hle := Stack.path_le hdown hpath
  rcases Stack.below_placed he with ⟨e', he', _⟩ | hbelow
  · exact absurd (Stack.lt_of_mem_edges he') (Nat.lt_irrefl _)
  · omega

/-- **A subtree that is put on a node below the node leaves the rest as it was.** -/
theorem place_beneath (ht : j.table.Canonical) (h : r.Beneath j b) (hbottom : bottom < b) :
    (j.place p r bottom target label).Beneath j b ∧
      Stack.Spares b r.stack (j.place p r bottom target label).stack := by
  obtain ⟨new, hstack, hbegun, htasks, hnew⟩ := place_queues j p r bottom target label
  have hdown : ∀ i e, e ∈ (r.stack.placed p bottom target label).edges i → e.below < i :=
    Stack.down_placed h.down (fun x i hi => Nat.lt_trans hbottom (h.heads x i hi))
      (Nat.lt_trans hbottom h.lt)
  have hsize := Stack.size_le_placed r.stack p bottom target label
  refine ⟨⟨?_, ?_, fun x i hi => ?_, fun t ht' => ?_⟩, ?_⟩
  · rw [hstack]
    exact Nat.lt_of_lt_of_le h.lt hsize
  · rw [hstack]
    exact hdown
  · rw [hstack] at hi
    rcases Stack.headIn?_placed hi with hi | rfl
    · exact h.heads x i hi
    · exact h.lt
  · rw [hstack]
    unfold Reducing.waiting at ht'
    rw [htasks, hbegun, List.drop_append] at ht'
    rcases List.mem_append.mp ht' with hold | hnew'
    · exact (h.waiting t hold).placed hbottom h.down hdown
    · obtain ⟨⟨state, hq⟩, hhead | hvia⟩ := hnew t (List.mem_of_mem_drop hnew')
      · exact sinks_of_new hbottom (rhs_length_pos ht hq) hhead.2 hdown
      · exact ⟨rhs_length_pos ht hq, .inl ⟨bottom, hvia, hbottom⟩⟩
  · rw [hstack]
    exact Stack.spares_placed hbottom

theorem foldl_reduceAlong_beneath (ht : j.table.Canonical) (ways : List (Nat × List Label)) :
    ∀ r : Reducing, r.Beneath j b → (∀ way ∈ ways, way.1 < r.stack.nodes.size ∧
        (j.table.goto? (r.stack.state way.1) (j.table.production q).lhs = none ∨ way.1 < b)) →
      (ways.foldl (j.reduceAlong regions p q) r).Beneath j b ∧
        Stack.Spares b r.stack (ways.foldl (j.reduceAlong regions p q) r).stack := by
  induction ways with
  | nil => exact fun r h _ => ⟨h, .refl _ _⟩
  | cons way ways ih =>
    intro r h hways
    have hone : (j.reduceAlong regions p q r way).Beneath j b ∧
        Stack.Spares b r.stack (j.reduceAlong regions p q r way).stack := by
      rcases reduceAlong_cases j regions p q r way with ⟨_, heq⟩ | ⟨target, work, hgoto, heq⟩
      · rw [heq]
        exact ⟨h, .refl _ _⟩
      · have hlt : way.1 < b := by
          rcases (hways way List.mem_cons_self).2 with hnone | hlt
          · exact absurd (hnone.symm.trans hgoto) nofun
          · exact hlt
        have h' : Reducing.Beneath j b { r with assembled := r.assembled + work } :=
          ⟨h.lt, h.down, h.heads, h.waiting⟩
        rw [heq]
        exact place_beneath ht h' hlt
    obtain ⟨hone, hspares⟩ := hone
    obtain ⟨hrest, hspares'⟩ := ih _ hone fun way' hway' => by
      obtain ⟨hlt, hgoto⟩ := hways way' (List.mem_cons_of_mem _ hway')
      have hstate : (j.reduceAlong regions p q r way).stack.state way'.1 = r.stack.state way'.1 :=
        congrArg Face.state (hspares.face way'.1 hlt)
      rw [hstate]
      exact ⟨Nat.lt_of_lt_of_le hlt hspares.size_le, hgoto⟩
    exact ⟨hrest, hspares.trans hspares'⟩

/-- **Seeing to a task that is about nodes below the node.** -/
theorem perform_beneath (ht : j.table.Canonical) (h : r.Beneath j b) {t : ReduceTask}
    (htask : j.Sinks b r.stack t) : (j.perform regions p r t).Beneath j b ∧
      Stack.Spares b r.stack (j.perform regions p r t).stack := by
  rw [perform_eq]
  refine foldl_reduceAlong_beneath ht _ _ ⟨h.lt, h.down, h.heads, h.waiting⟩ fun way hway => ?_
  obtain ⟨hpos, hsinks⟩ := htask
  have hpath := Stack.path_of_mem_ways (mem_ways_of_mem_waysOf hway)
  obtain ⟨n, hn⟩ := Nat.exists_eq_succ_of_ne_zero (Nat.ne_of_gt hpos)
  have hlt : way.1 < r.stack.nodes.size := by
    rw [hn] at hpath
    obtain ⟨e, he, _⟩ := id hpath
    exact Nat.lt_trans (Stack.path_lt h.down hpath) (Stack.lt_of_mem_edges he)
  refine ⟨hlt, ?_⟩
  rcases hsinks with ⟨k, hvia, hk⟩ | hways
  · -- A way through the edge to a node ends there or further down.
    unfold waysOf at hway
    rw [hvia, hn] at hway
    dsimp only at hway
    unfold Stack.waysVia at hway
    cases hedge : r.stack.edge? t.head k with
    | none =>
      rw [hedge] at hway
      cases hway
    | some e =>
      rw [hedge] at hway
      have hle := Stack.path_le h.down (Stack.path_of_mem_ways hway)
      rw [(Stack.mem_of_edge? hedge).2] at hle
      exact .inr (Nat.lt_of_le_of_lt hle hk)
  · exact hways way.1 hpath

theorem performAll_beneath (ht : j.table.Canonical) (fuel : Nat) :
    ∀ r : Reducing, r.Beneath j b → (j.performAll regions p r fuel).Beneath j b ∧
      Stack.Spares b r.stack (j.performAll regions p r fuel).stack := by
  induction fuel with
  | zero => exact fun r h => ⟨h, .refl _ _⟩
  | succ fuel ih =>
    intro r h
    cases hnext : r.tasks[r.begun]? with
    | none =>
      have hwait : r.waiting = [] := List.drop_eq_nil_iff.mpr (Array.getElem?_eq_none_iff.mp hnext)
      rw [performAll_of_waiting_nil hwait]
      exact ⟨h, .refl _ _⟩
    | some t =>
      rw [performAll_succ hnext]
      have hwait := waiting_eq_cons hnext
      have h' : Reducing.Beneath j b { r with begun := r.begun + 1 } :=
        ⟨h.lt, h.down, h.heads, fun t' ht' =>
          h.waiting t' (hwait ▸ List.mem_cons_of_mem _ ht')⟩
      obtain ⟨hone, hspares⟩ := perform_beneath ht h'
        (h.waiting t (hwait ▸ List.mem_cons_self))
      obtain ⟨hrest, hspares'⟩ := ih _ hone
      exact ⟨hrest, hspares.trans hspares'⟩

end ParseJob

/-! ## Behind a forced subtree -/

namespace Arrived

variable {j : ParseJob} {s : Progress} {r : Reducing} {head below above b p : Nat}
  {tops : List Nat} {label : Label}

/-- **The productions that consist of a forced subtree alone come to an end.** -/
theorem calm (ht : j.table.Canonical) (hquiet : j.Quiet below p tops above) :
    ∀ {r : Reducing} {head : Nat} {label : Label}, Arrived j s r head tops → s.position = p →
      r.stack.state head = above → r.stack.edges head = [⟨b, label⟩] → r.stack.state b = below →
      (∀ i ∈ r.stack.heads, b < i) →
      ∃ r' head' tops' label', Arrived j s r' head' tops' ∧
        r'.stack.edges head' = [⟨b, label'⟩] ∧ r.stack.Extends r'.stack ∧
        (∃ more, r'.stack.heads = r.stack.heads ++ more) ∧ (∀ i ∈ r'.stack.heads, b < i) ∧
        ∀ q ∈ j.reductions (r'.stack.state head') p, (j.table.production q).rhs.length = 1 →
          j.table.goto? below (j.table.production q).lhs = none := by
  induction hquiet with
  | rest hrest =>
    intro r head label h _ hstate hedges _ hheads
    exact ⟨r, head, _, label, h, hedges, .refl _, ⟨[], (List.append_nil _).symm⟩, hheads,
      hstate ▸ hrest⟩
  | @step tops above q next hactions hlength hgoto hnew _ ih =>
    intro r head label h hposition hstate hedges hbelow hheads
    have hhead := h.head_lt
    have hb : b < r.stack.nodes.size := Nat.lt_trans (hheads head h.head_mem) hhead
    have hways : r.stack.ways [] head (j.table.production q).rhs.length = [(b, [label])] := by
      rw [hlength]
      exact Stack.ways_of_edges hedges 0
    obtain ⟨r', h', hstack⟩ := h.finish (by rw [hstate, hposition]; exact hactions) hways hb
      (by rw [hbelow]; exact hgoto) hnew ht
    generalize (j.reduceLabel s.regions q (r.stack.state b) [label]).1 = label' at hstack
    have hextends : r.stack.Extends r'.stack := hstack ▸ r.stack.extends_push _
    have hheads' : r'.stack.heads = r.stack.heads ++ [r.stack.nodes.size] :=
      congrArg Stack.heads hstack
    obtain ⟨r'', head'', tops'', label'', h'', hedges', hextends', ⟨more, hmore⟩, hheads'', hrest⟩ :=
      ih h' hposition (by rw [hstack, Stack.state_push_self])
        (by rw [hstack, Stack.edges_push_self]) ((hextends.state hb).trans hbelow)
        (by
          intro i hi
          rw [hheads'] at hi
          rcases List.mem_append.mp hi with hi | hi
          · exact hheads i hi
          · rw [List.mem_singleton.mp hi]
            exact hb)
    exact ⟨r'', head'', tops'', label'', h'', hedges', hextends.trans hextends',
      ⟨[r.stack.nodes.size] ++ more, by rw [hmore, hheads', List.append_assoc]⟩, hheads'', hrest⟩

/-- **Until everything has been finished the forced subtree stays on its edge**, and the heads that
    there are stay in front. -/
theorem settle (ht : j.table.Canonical) (h : Arrived j s r head tops)
    (hedges : r.stack.edges head = [⟨b, label⟩]) (hheads : ∀ i ∈ r.stack.heads, b < i)
    (hquiet : j.Quiet (r.stack.state b) s.position tops (r.stack.state head)) :
    Stack.Spares b r.stack (s.reduceAll j).stack := by
  obtain ⟨r', head', tops', label', h', hedges', hextends, ⟨more, hmore⟩, hheads', hrest⟩ :=
    h.calm ht hquiet rfl rfl hedges rfl hheads
  have hb' : b < head' := hheads' head' h'.head_mem
  have hb : b < r.stack.nodes.size := Nat.lt_trans (hheads head h.head_mem) h.head_lt
  have hbeneath : r'.Beneath j b := by
    refine ⟨Nat.lt_trans hb' h'.head_lt, h'.down,
      fun x i hi => hheads' i (h'.mem_heads x i hi), fun t htask => ?_⟩
    rw [h'.waiting] at htask
    obtain ⟨heq, _, hq⟩ := ParseJob.of_mem_tasksOf htask
    have hpos := ParseJob.rhs_length_pos ht hq
    refine ⟨hpos, .inr fun k hpath => ?_⟩
    obtain ⟨n, hn⟩ := Nat.exists_eq_succ_of_ne_zero (Nat.ne_of_gt hpos)
    rw [hn, heq] at hpath
    obtain ⟨e, he, hpath⟩ := hpath
    rw [hedges'] at he
    obtain rfl := List.mem_singleton.mp he
    cases n with
    | zero =>
      -- The production consists of the subtree alone, and leads nowhere.
      obtain rfl : b = k := hpath
      rw [hextends.state hb]
      exact .inl (hrest t.production hq hn)
    | succ n => exact .inr (Stack.path_lt h'.down hpath)
  obtain ⟨fuel, hfuel⟩ := h'.exists_fuel
  have hfinal : (s.reduceAll j).stack =
      (j.performAll s.regions s.position r' (fuel + 1)).stack := congrArg Reducing.stack hfuel
  rw [hfinal]
  exact (hextends.spares hmore b).trans (ParseJob.performAll_beneath ht (fuel + 1) r' hbeneath).2

end Arrived

end LayeredSyntax
