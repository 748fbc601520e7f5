/-
  REPLAYING — what is forced is done, wherever a parse stands.

  A parse stands on a node, and from the state of that node on the next tokens are forced
  (`ParseJob.Forced`).  Then it reads them and makes the forced subtrees, whatever lies below the
  node and whatever was repaired or marked before:

  1. It has ARRIVED somewhere when all that waits is about one head, and the other heads can only
     finish a production each (`Arrived`).  Reading a token or finishing a production at that head
     leads to the next such place (`Arrived.read`, `Arrived.finish`).
  2. From place to place, along what is forced, the subtrees are put on the stack one above the
     other, and the only way down leads through them to the node again (`Arrived.replay`).

  **The crux** is that an action which is the only one of a state needs no look at anything else: one
  task waits, it has one way, and it makes one new head.
-/
import LayeredSyntax.Proofs.Parse.Forcing
import LayeredSyntax.Proofs.Parse.Saturating

namespace LayeredSyntax

namespace Stack

variable {s s' s'' : Stack} {i n : Nat} {e : Edge}

/-! ## Ways -/

/-- What stands above a way comes behind its subtrees. -/
theorem ways_append (s : Stack) (front above : List Label) (i n : Nat) :
    s.ways (front ++ above) i n = (s.ways front i n).map fun way => (way.1, way.2 ++ above) := by
  induction n generalizing front i with
  | zero => rfl
  | succ n ih =>
    unfold ways
    rw [List.map_flatMap]
    exact List.flatMap_congr fun e _ => ih (e.label :: front) e.below

/-- The ways down from a node with a single edge. -/
theorem ways_of_edges (h : s.edges i = [e]) (n : Nat) : s.ways [] i (n + 1) =
    (s.ways [] e.below n).map fun way => (way.1, way.2 ++ [e.label]) := by
  have hedges : (s.node i).edges = [e] := h
  rw [ways, hedges, List.flatMap_cons, List.flatMap_nil, List.append_nil]
  exact s.ways_append [] [e.label] e.below n

/-- **Whether a stack goes on from another one**: nothing of that one has changed. -/
structure Extends (s s' : Stack) : Prop where
  size_le : s.nodes.size ≤ s'.nodes.size
  node : ∀ i < s.nodes.size, s'.node i = s.node i

theorem Extends.refl (s : Stack) : s.Extends s := ⟨Nat.le_refl _, fun _ _ => rfl⟩

theorem Extends.trans (h : s.Extends s') (h' : s'.Extends s'') : s.Extends s'' :=
  ⟨Nat.le_trans h.size_le h'.size_le, fun i hi =>
    (h'.node i (Nat.lt_of_lt_of_le hi h.size_le)).trans (h.node i hi)⟩

theorem Extends.state (h : s.Extends s') (hi : i < s.nodes.size) : s'.state i = s.state i :=
  congrArg StackNode.state (h.node i hi)

theorem Extends.edges (h : s.Extends s') (hi : i < s.nodes.size) : s'.edges i = s.edges i :=
  congrArg StackNode.edges (h.node i hi)

/-- The ways down from a node go on being the same. -/
theorem Extends.ways (h : s.Extends s') (hdown : ∀ i e, e ∈ s.edges i → e.below < i)
    (above : List Label) (hi : i < s.nodes.size) : s'.ways above i n = s.ways above i n := by
  induction n generalizing above i with
  | zero => rfl
  | succ n ih =>
    rw [Stack.ways, Stack.ways, h.node i hi]
    exact List.flatMap_congr fun e he => ih _ (Nat.lt_trans (hdown i e he) hi)

theorem extends_push (s : Stack) (n : StackNode) : s.Extends (s.push n) :=
  ⟨Nat.le_of_lt (by rw [size_push]; exact Nat.lt_succ_self _),
    fun _ hi => node_push_of_ne (Nat.ne_of_lt hi)⟩

/-- Edges go on leading down when a node is put on older ones. -/
theorem down_push (hdown : ∀ i e, e ∈ s.edges i → e.below < i) {n : StackNode}
    (hn : ∀ e ∈ n.edges, e.below < s.nodes.size) :
    ∀ i e, e ∈ (s.push n).edges i → e.below < i := by
  intro i e he
  rw [edges_push] at he
  split at he
  · next hi => exact hi ▸ hn e he
  · exact hdown i e he

end Stack

namespace ParseJob

variable {j : ParseJob} {regions : Regions} {p q target bottom : Nat} {label : Label}
  {r : Reducing}

/-! ## Tasks -/

/-- Where no task waits nothing more is done. -/
theorem performAll_of_waiting_nil (h : r.waiting = []) (fuel : Nat) :
    j.performAll regions p r fuel = r := by
  cases fuel with
  | zero => rfl
  | succ fuel =>
    have hnone : r.tasks[r.begun]? = none := by
      have hle := List.drop_eq_nil_iff.mp h
      exact Array.getElem?_eq_none hle
    unfold performAll
    rw [hnone]

/-- The next task is seen to. -/
theorem performAll_succ {t : ReduceTask} (h : r.tasks[r.begun]? = some t) (fuel : Nat) :
    j.performAll regions p r (fuel + 1) =
      j.performAll regions p (j.perform regions p { r with begun := r.begun + 1 } t) fuel := by
  rw [performAll, h]

/-- Seeing to tasks in two goes. -/
theorem performAll_add (j : ParseJob) (regions : Regions) (p fuel more : Nat) :
    ∀ r : Reducing, j.performAll regions p r (fuel + more) =
      j.performAll regions p (j.performAll regions p r fuel) more := by
  induction fuel with
  | zero =>
    intro r
    rw [Nat.zero_add]
    rfl
  | succ fuel ih =>
    intro r
    rw [Nat.succ_add]
    cases htask : r.tasks[r.begun]? with
    | none =>
      have hwait : r.waiting = [] := List.drop_eq_nil_iff.mpr (Array.getElem?_eq_none_iff.mp htask)
      rw [performAll_of_waiting_nil hwait, performAll_of_waiting_nil hwait,
        performAll_of_waiting_nil hwait]
    | some t =>
      rw [performAll_succ htask, performAll_succ htask]
      exact ih _

/-- A task that waits alone is the next one and the last one. -/
theorem tasks_of_waiting_singleton {t : ReduceTask} (h : r.waiting = [t]) :
    r.tasks[r.begun]? = some t ∧ r.tasks.toList.length = r.begun + 1 := by
  constructor
  · rw [← Array.getElem?_toList, ← Nat.add_zero r.begun, ← List.getElem?_drop]
    exact congrArg (·[0]?) h
  · have hdrop := congrArg List.length h
    unfold Reducing.waiting at hdrop
    rw [List.length_drop, List.length_singleton] at hdrop
    omega

/-- **A task that waits alone and has one way makes one new head**, if no head is in the state that
    it leads to.  Then the productions of that head wait. -/
theorem performAll_of_way {head : Nat} {pieces : List Label}
    (hwaiting : r.waiting = [⟨head, q, none⟩])
    (hways : r.stack.ways [] head (j.table.production q).rhs.length = [(bottom, pieces)])
    (hgoto : j.table.goto? (r.stack.state bottom) (j.table.production q).lhs = some target)
    (hnone : r.stack.headIn? target = none)
    (hlabel : (j.reduceLabel regions q (r.stack.state bottom) pieces).1 = label) :
    (j.performAll regions p r 1).stack =
        r.stack.push ⟨target, p, label.stop, [⟨bottom, label⟩]⟩ ∧
      (j.performAll regions p r 1).waiting = j.tasksOf p r.stack.nodes.size target := by
  obtain ⟨hnext, hlen⟩ := tasks_of_waiting_singleton hwaiting
  have hwaysOf : j.waysOf { r with begun := r.begun + 1 } ⟨head, q, none⟩ = [(bottom, pieces)] :=
    hways
  rw [performAll_succ hnext, performAll, perform_eq, hwaysOf, List.foldl_cons, List.foldl_nil]
  rcases j.reduceAlong_cases regions p q { r with
    begun := r.begun + 1, done := (head, q) :: r.done } (bottom, pieces) with
    ⟨hstuck, _⟩ | ⟨target', work, hgoto', heq⟩
  · exact absurd (hstuck.symm.trans hgoto) nofun
  · obtain rfl : target' = target := Option.some.inj (hgoto'.symm.trans hgoto)
    have hplace := heq.trans (place_of_none j p bottom _ hnone)
    subst hlabel
    refine ⟨congrArg Reducing.stack hplace, (congrArg Reducing.waiting hplace).trans ?_⟩
    unfold Reducing.waiting
    dsimp only
    rw [Array.toList_appendList, List.drop_append_of_le_length (Nat.le_of_eq hlen.symm), ← hlen,
      List.drop_length, List.nil_append]

variable {state x : Nat}

/-! ## Single actions -/

/-- The ways of reading a token are the actions that read it. -/
theorem map_shifts (j : ParseJob) (state p : Nat) :
    (j.shifts state p).map (fun step => Action.shift step.2) =
      (j.actions state p).filter reads := by
  unfold shifts actions
  rw [List.map_flatMap, List.filter_flatMap]
  refine List.flatMap_congr fun x _ => ?_
  generalize j.table.actionsAt state x = actions
  induction actions with
  | nil => rfl
  | cons a actions ih =>
    cases a with
    | shift m =>
      rw [List.filterMap_cons, List.map_cons, ih, List.filter_cons_of_pos rfl]
    | reduce q =>
      rw [List.filterMap_cons, ih, List.filter_cons_of_neg Bool.false_ne_true]
    | accept =>
      rw [List.filterMap_cons, ih, List.filter_cons_of_neg Bool.false_ne_true]

/-- Where finishing a production is all that can be done, nothing is read. -/
theorem shifts_of_reduce (h : j.actions state p = [.reduce q]) : j.shifts state p = [] := by
  have hmap := j.map_shifts state p
  rw [h] at hmap
  exact List.map_eq_nil_iff.mp hmap

/-- Where reading the token is all that can be done, there is one way of reading it. -/
theorem shifts_of_shift (h : j.actions state p = [.shift target])
    (hshift : (x, target) ∈ j.shifts state p) : j.shifts state p = [(x, target)] := by
  have hmap := j.map_shifts state p
  rw [h] at hmap
  have hlen : (j.shifts state p).length = 1 := by
    rw [← List.length_map (fun step => Action.shift step.2), hmap]
    rfl
  obtain ⟨step, hstep⟩ := List.length_eq_one_iff.mp hlen
  rw [hstep] at hshift ⊢
  rw [List.mem_singleton.mp hshift]

theorem reductions_of_reduce (h : j.actions state p = [.reduce q]) :
    j.reductions state p = [q] := by
  unfold reductions
  rw [h]
  rfl

theorem reductions_of_shift (h : j.actions state p = [.shift target]) :
    j.reductions state p = [] := by
  unfold reductions
  rw [h]
  rfl

/-- **Where there is one way of reading the token, one head is left.** -/
theorem shift_of_step {s : Progress} {head : Nat}
    (h : j.stepsAt s.stack s.position = [(head, (x, target))]) :
    (s.shift j).1 = true ∧ (s.shift j).2.position = s.position + 1 ∧
      (s.shift j).2.stack = ⟨s.stack.nodes.push ⟨target, s.position + 1, s.position + 1,
        [⟨head, ⟨j.leaf s.position x target, s.position, s.position + 1⟩⟩]⟩,
        [s.stack.nodes.size], [(target, s.stack.nodes.size)]⟩ := by
  have hsteps : s.stack.heads.flatMap (fun head =>
      (j.shifts (s.stack.state head) s.position).map (head, ·)) = [(head, (x, target))] := h
  unfold Progress.shift
  dsimp only
  rw [hsteps]
  refine ⟨rfl, rfl, ?_⟩
  cases j.isAmbiguous s.stack s.position <;> rfl

end ParseJob

/-! ## Arriving -/

/-- **Where the parse has come to one head**: of what can be finished at the position so much has been
    finished that only the productions of this head are left, and the other heads could do nothing
    else.  The states of the heads are `tops`. -/
structure Arrived (j : ParseJob) (s : Progress) (r : Reducing) (head : Nat) (tops : List Nat) :
    Prop where
  /-- As many tasks have been seen to as heads were made, whose states are states of the table. -/
  count : ∃ x more, tops = x :: more ∧
    r = j.performAll s.regions s.position (j.begin s) more.length ∧
    (∀ y ∈ more, y < j.table.stateCount) ∧ (more ≠ [] → 0 < j.table.productions.size)
  nodup : tops.Nodup
  heads : ∃ others, r.stack.heads = others ++ [head] ∧
    ∀ i ∈ others, ∃ q, j.actions (r.stack.state i) s.position = [.reduce q]
  states : r.stack.heads.map r.stack.state = tops
  found : ∀ x, x ∉ tops → r.stack.headIn? x = none
  mem_heads : ∀ x i, r.stack.headIn? x = some i → i ∈ r.stack.heads
  waiting : r.waiting = j.tasksOf s.position head (r.stack.state head)
  lt : ∀ i ∈ r.stack.heads, i < r.stack.nodes.size
  down : ∀ i e, e ∈ r.stack.edges i → e.below < i

/-- **Whether a parse stands on one node alone**, in a state. -/
structure Progress.Alone (s : Progress) (head state : Nat) : Prop where
  heads : s.stack.heads = [head]
  byState : s.stack.byState = [(state, head)]
  lt : head < s.stack.nodes.size
  state : s.stack.state head = state
  down : ∀ i e, e ∈ s.stack.edges i → e.below < i

/-- A parse that stands on one node has arrived there. -/
theorem Progress.Alone.arrived {j : ParseJob} {s : Progress} {head state : Nat}
    (h : s.Alone head state) : Arrived j s (j.begin s) head [state] := by
  have hstack : (j.begin s).stack = s.stack := by rw [ParseJob.begin_eq]
  refine ⟨⟨state, [], rfl, rfl, nofun, fun hne => absurd rfl hne⟩, List.nodup_singleton _,
    ⟨[], ?_, nofun⟩, ?_, fun x hx => ?_, fun x i hi => ?_, ?_, fun i hi => ?_, ?_⟩
  · rw [hstack, h.heads]
    rfl
  · rw [hstack, h.heads, List.map_singleton, h.state]
  · rw [hstack]
    unfold Stack.headIn?
    rw [h.byState, Stack.lookup_cons_eq, if_neg fun heq => hx (List.mem_singleton.mpr heq)]
    rfl
  · rw [hstack] at hi ⊢
    unfold Stack.headIn? at hi
    rw [h.byState, Stack.lookup_cons_eq] at hi
    split at hi
    · cases hi
      rw [h.heads]
      exact List.mem_cons_self
    · cases hi
  · rw [hstack, ParseJob.begin_eq, h.heads]
    unfold Reducing.waiting
    dsimp only
    rw [List.drop_zero, List.flatMap_singleton]
    rfl
  · rw [hstack, h.heads] at hi
    rw [hstack, List.mem_singleton.mp hi]
    exact h.lt
  · rw [hstack]
    exact h.down

namespace Arrived

variable {j : ParseJob} {s : Progress} {r : Reducing} {head state p q b target x : Nat}
  {tops : List Nat} {pieces : List Label}

theorem head_mem (h : Arrived j s r head tops) : head ∈ r.stack.heads := by
  obtain ⟨others, hheads, _⟩ := h.heads
  rw [hheads]
  exact List.mem_append_right _ List.mem_cons_self

theorem head_lt (h : Arrived j s r head tops) : head < r.stack.nodes.size := h.lt head h.head_mem

/-- **The tasks have not run out**: there are at least as many as states. -/
theorem exists_fuel (h : Arrived j s r head tops) : ∃ fuel,
    j.performAll s.regions s.position (j.begin s) (j.taskBound s.stack) =
      j.performAll s.regions s.position r (fuel + 1) := by
  obtain ⟨x, more, htops, hr, hstates, hpositive⟩ := h.count
  have hlt : more.length < j.taskBound s.stack := by
    unfold ParseJob.taskBound
    dsimp only
    refine Nat.lt_succ_of_le ?_
    cases more with
    | nil => exact Nat.zero_le _
    | cons y rest =>
      have hnodup : (y :: rest).Nodup := (List.nodup_cons.mp (htops ▸ h.nodup)).2
      have hlen : (y :: rest).length ≤ (List.range j.table.stateCount).length :=
        (hnodup.subperm fun z hz => List.mem_range.mpr (hstates z hz)).length_le
      rw [List.length_range] at hlen
      calc (y :: rest).length
          ≤ j.table.stateCount + s.stack.heads.length := by omega
        _ ≤ (j.table.stateCount + s.stack.heads.length) * j.table.productions.size :=
            Nat.le_mul_of_pos_right _ (hpositive (List.cons_ne_nil _ _))
        _ ≤ _ := Nat.le_mul_of_pos_right _ (Nat.succ_pos _)
  refine ⟨j.taskBound s.stack - more.length - 1, ?_⟩
  have hsum : j.taskBound s.stack =
      more.length + (j.taskBound s.stack - more.length - 1 + 1) := by omega
  rw [hr, ← ParseJob.performAll_add, ← hsum]

/-- **A new head is the next place to arrive at**: the head before it has done the only thing that it
    could, and the productions of the new one wait. -/
theorem push {r' : Reducing} {n : StackNode} (h : Arrived j s r head tops)
    (hr' : r' = j.performAll s.regions s.position r 1)
    (hactions : j.actions (r.stack.state head) s.position = [.reduce q])
    (hstack : r'.stack = r.stack.push n)
    (hwaiting : r'.waiting = j.tasksOf s.position r.stack.nodes.size n.state)
    (hedges : ∀ e ∈ n.edges, e.below < r.stack.nodes.size) (hnew : n.state ∉ tops)
    (hstate : n.state < j.table.stateCount) (hpositive : 0 < j.table.productions.size) :
    Arrived j s r' r.stack.nodes.size (tops ++ [n.state]) := by
  have hextends := r.stack.extends_push n
  obtain ⟨x, more, htops, hr, hstates, _⟩ := h.count
  obtain ⟨others, hheads, hothers⟩ := h.heads
  refine ⟨⟨x, more ++ [n.state], ?_, ?_, fun y hy => ?_, fun _ => hpositive⟩, ?_,
    ⟨r.stack.heads, ?_, fun i hi => ?_⟩, ?_, fun y hy => ?_, fun y i hi => ?_, ?_,
    fun i hi => ?_, ?_⟩
  · rw [htops]
    rfl
  · rw [List.length_append, List.length_singleton, ParseJob.performAll_add, ← hr, hr']
  · rcases List.mem_append.mp hy with hy | hy
    · exact hstates y hy
    · rw [List.mem_singleton.mp hy]
      exact hstate
  · exact List.nodup_append.mpr ⟨h.nodup, List.nodup_singleton _, fun y hy z hz heq =>
      hnew ((List.mem_singleton.mp hz) ▸ heq ▸ hy)⟩
  · rw [hstack]
    rfl
  · rw [hstack, hextends.state (h.lt i hi)]
    rcases List.mem_append.mp (hheads ▸ hi) with hi | hi
    · exact hothers i hi
    · rw [List.mem_singleton.mp hi]
      exact ⟨q, hactions⟩
  · rw [hstack]
    show (r.stack.heads ++ [r.stack.nodes.size]).map _ = _
    rw [List.map_append, List.map_singleton, Stack.state_push_self, ← h.states]
    exact congrArg (· ++ [n.state])
      (List.map_congr_left fun i hi => hextends.state (h.lt i hi))
  · rw [List.mem_append, List.mem_singleton, not_or] at hy
    rw [hstack, Stack.headIn?_push, if_neg hy.2]
    exact h.found y hy.1
  · rw [hstack, Stack.headIn?_push] at hi
    rw [hstack]
    show i ∈ r.stack.heads ++ [r.stack.nodes.size]
    split at hi
    · cases hi
      exact List.mem_append_right _ List.mem_cons_self
    · exact List.mem_append_left _ (h.mem_heads y i hi)
  · rw [hwaiting, hstack, Stack.state_push_self]
  · rw [hstack] at hi ⊢
    rw [Stack.size_push]
    rcases List.mem_append.mp hi with hi | hi
    · exact Nat.lt_succ_of_lt (h.lt i hi)
    · rw [List.mem_singleton.mp hi]
      exact Nat.lt_succ_self _
  · rw [hstack]
    exact Stack.down_push h.down hedges

/-- **The last head finishes the only production that it can**: there is a new head on the node at the
    bottom. -/
theorem finish (h : Arrived j s r head tops)
    (hactions : j.actions (r.stack.state head) s.position = [.reduce q])
    (hways : r.stack.ways [] head (j.table.production q).rhs.length = [(b, pieces)])
    (hb : b < r.stack.nodes.size)
    (hgoto : j.table.goto? (r.stack.state b) (j.table.production q).lhs = some target)
    (hnew : target ∉ tops) (ht : j.table.Canonical) :
    ∃ r', Arrived j s r' r.stack.nodes.size (tops ++ [target]) ∧
      r'.stack = r.stack.push ⟨target, s.position,
        (j.reduceLabel s.regions q (r.stack.state b) pieces).1.stop,
        [⟨b, (j.reduceLabel s.regions q (r.stack.state b) pieces).1⟩]⟩ := by
  have hreductions := ParseJob.reductions_of_reduce hactions
  have hwaiting : r.waiting = [⟨head, q, none⟩] := by
    rw [h.waiting]
    unfold ParseJob.tasksOf
    rw [hreductions]
    rfl
  obtain ⟨hstack, hwaiting'⟩ := ParseJob.performAll_of_way (p := s.position) hwaiting hways hgoto
    (h.found target hnew) rfl
  obtain ⟨_, _, _, hproduction, _⟩ :=
    ParseJob.exists_of_mem_reductions ht (hreductions ▸ List.mem_cons_self)
  have hpositive := Nat.zero_lt_of_lt (Array.getElem?_eq_some_iff.mp hproduction).1
  refine ⟨_, h.push rfl hactions hstack hwaiting' (fun e he => ?_) hnew
    (ParseJob.lt_stateCount_of_goto? ht hgoto) hpositive, hstack⟩
  obtain rfl := List.mem_singleton.mp he
  exact hb

/-- Where the last head can only read the token, no head has a choice. -/
theorem single (h : Arrived j s r head tops)
    (hactions : j.actions (r.stack.state head) s.position = [.shift target]) :
    ∀ i ∈ r.stack.heads, ∃ a, j.actions (r.stack.state i) s.position = [a] := by
  intro i hi
  obtain ⟨others, hheads, hothers⟩ := h.heads
  rcases List.mem_append.mp (hheads ▸ hi) with hi | hi
  · obtain ⟨q, hq⟩ := hothers i hi
    exact ⟨.reduce q, hq⟩
  · rw [List.mem_singleton.mp hi]
    exact ⟨.shift target, hactions⟩

/-- Where the last head can only read the token, everything has been finished. -/
theorem stack_reduceAll (h : Arrived j s r head tops)
    (hactions : j.actions (r.stack.state head) s.position = [.shift target]) :
    (s.reduceAll j).stack = r.stack := by
  have hwaiting : r.waiting = [] := by
    rw [h.waiting]
    unfold ParseJob.tasksOf
    rw [ParseJob.reductions_of_shift hactions]
    rfl
  obtain ⟨fuel, hfuel⟩ := h.exists_fuel
  show (j.performAll s.regions s.position (j.begin s) (j.taskBound s.stack)).stack = r.stack
  rw [hfuel, ParseJob.performAll_of_waiting_nil hwaiting]

/-- **The last head reads the token, which is all that it can do**: then the parse stands on one node. -/
theorem read (h : Arrived j s r head tops)
    (hactions : j.actions (r.stack.state head) s.position = [.shift target])
    (hshift : (x, target) ∈ j.shifts (r.stack.state head) s.position) :
    ((s.reduceAll j).shift j).1 = true ∧
      ((s.reduceAll j).shift j).2.position = s.position + 1 ∧
      r.stack.Extends ((s.reduceAll j).shift j).2.stack ∧
      ((s.reduceAll j).shift j).2.stack.edges r.stack.nodes.size =
        [⟨head, ⟨j.leaf s.position x target, s.position, s.position + 1⟩⟩] ∧
      ((s.reduceAll j).shift j).2.stack.face r.stack.nodes.size =
        ⟨target, s.position + 1, s.position + 1⟩ ∧
      ((s.reduceAll j).shift j).2.Alone r.stack.nodes.size target := by
  have hstack := h.stack_reduceAll hactions
  have hposition : (s.reduceAll j).position = s.position := rfl
  obtain ⟨others, hheads, hothers⟩ := h.heads
  have hsteps : j.stepsAt (s.reduceAll j).stack (s.reduceAll j).position =
      [(head, (x, target))] := by
    have hnone : others.flatMap (fun i =>
        (j.shifts (r.stack.state i) s.position).map (i, ·)) = [] := by
      refine List.flatMap_eq_nil_iff.mpr fun i hi => ?_
      obtain ⟨q, hq⟩ := hothers i hi
      rw [ParseJob.shifts_of_reduce hq]
      rfl
    unfold ParseJob.stepsAt
    rw [hstack, hposition, hheads, List.flatMap_append, hnone, List.flatMap_singleton,
      ParseJob.shifts_of_shift hactions hshift]
    rfl
  obtain ⟨hreads, hpos, hnext⟩ := ParseJob.shift_of_step hsteps
  rw [hstack, hposition] at hnext
  have hextends := r.stack.extends_push ⟨target, s.position + 1, s.position + 1,
    [⟨head, ⟨j.leaf s.position x target, s.position, s.position + 1⟩⟩]⟩
  refine ⟨hreads, hpos, ?_, ?_, ?_, by rw [hnext], by rw [hnext], ?_, ?_, ?_⟩
  · rw [hnext]
    exact ⟨hextends.size_le, hextends.node⟩
  · rw [hnext]
    exact Stack.edges_push_self ..
  · rw [hnext]
    exact Stack.face_push_self ..
  · rw [hnext]
    exact Nat.lt_of_lt_of_eq (Nat.lt_succ_self _) (Array.size_push _).symm
  · rw [hnext]
    exact Stack.state_push_self ..
  · rw [hnext]
    refine Stack.down_push h.down fun e he => ?_
    obtain rfl := List.mem_singleton.mp he
    exact h.head_lt

end Arrived

/-! ## From place to place -/

namespace Progress

/-- A parse that goes on by some tokens: each time what can be finished is finished, and then the
    token is read. -/
def readOn (j : ParseJob) (s : Progress) : Nat → Progress
  | 0 => s
  | n + 1 => (((s.readOn j n).reduceAll j).shift j).2

theorem readOn_add (j : ParseJob) (s : Progress) (n m : Nat) :
    s.readOn j (n + m) = (s.readOn j n).readOn j m := by
  induction m with
  | zero => rfl
  | succ m ih =>
    rw [← Nat.add_assoc, readOn, readOn, ih]

/-- What holds all along one stretch and all along the next one holds all along both. -/
theorem readOn_forall (P : Progress → Prop) {j : ParseJob} {s : Progress} {n m : Nat}
    (h : ∀ k < n, P (s.readOn j k)) (h' : ∀ k < m, P ((s.readOn j n).readOn j k)) :
    ∀ k < n + m, P (s.readOn j k) := by
  intro k hk
  rcases Nat.lt_or_ge k n with hlt | hge
  · exact h k hlt
  · obtain ⟨i, rfl⟩ := Nat.exists_eq_add_of_le hge
    rw [s.readOn_add]
    exact h' i (by omega)

/-- How far a parse has come that read all of some tokens. -/
theorem position_readOn {j : ParseJob} {s : Progress} {n : Nat}
    (hreads : ∀ k < n, (((s.readOn j k).reduceAll j).shift j).1 = true) :
    (s.readOn j n).position = s.position + n := by
  induction n with
  | zero => rfl
  | succ n ih =>
    obtain ⟨stack, marks, hshift⟩ := shift_of_true (hreads n (Nat.lt_succ_self n))
    have hposition : (s.readOn j (n + 1)).position = (s.readOn j n).position + 1 :=
      congrArg Progress.position hshift
    rw [hposition, ih fun k hk => hreads k (Nat.lt_succ_of_lt hk), Nat.add_assoc]

/-- **A parse that reads all tokens and is accepted** is over then. -/
theorem run_of_readOn [Limits] {j : ParseJob} (hreuse : j.reuse = none) {label : Label} {n : Nat} :
    ∀ {s : Progress} {fuel : Nat}, s.Plain → s.position + n = j.finish →
      (∀ k < n, (((s.readOn j k).reduceAll j).shift j).1 = true) →
      ((s.readOn j n).reduceAll j).accepted? j = some label → n < fuel →
      s.run j fuel = ((s.readOn j n).reduceAll j).close j [label] := by
  induction n with
  | zero =>
    intro s fuel hplain hfinish _ haccepted hfuel
    obtain ⟨fuel, rfl⟩ := Nat.exists_eq_succ_of_ne_zero (Nat.ne_of_gt hfuel)
    refine run_of_over ?_
    have haccepted : (s.reduceAll j).accepted? j = some label := haccepted
    have hfinish : s.position = j.finish := hfinish
    rw [turn_eq hreuse hplain, if_pos hfinish, haccepted]
    rfl
  | succ n ih =>
    intro s fuel hplain hfinish hreads haccepted hfuel
    obtain ⟨fuel, rfl⟩ := Nat.exists_eq_succ_of_ne_zero (Nat.ne_of_gt (Nat.zero_lt_of_lt hfuel))
    have hread : ((s.reduceAll j).shift j).1 = true := hreads 0 (Nat.succ_pos n)
    have hturn : s.turn j = .goOn (s.readOn j 1) := by
      rw [turn_eq hreuse hplain, if_neg (by omega), if_pos hread]
      rfl
    have hone : ∀ k, s.readOn j (k + 1) = (s.readOn j 1).readOn j k := by
      intro k
      rw [Nat.add_comm, readOn_add]
    have hposition : (s.readOn j 1).position = s.position + 1 :=
      position_readOn fun k hk => by
        obtain rfl : k = 0 := by omega
        exact hread
    rw [run_of_goOn hturn, hone n]
    refine ih (plain_shift hplain.checkpoint hread) (by omega) (fun k hk => ?_) ?_ (by omega)
    · rw [← hone k]
      exact hreads (k + 1) (by omega)
    · rw [← hone n]
      exact haccepted

end Progress

/-- **What a parse has come to that was forced to**: it has read `n` tokens, and the forced subtrees
    are the only way down to the node that it stood on. -/
structure Replayed (j : ParseJob) (s : Progress) (r : Reducing) (head : Nat) (pieces : List Label)
    (above stop : Nat) (tops : List Nat) (n : Nat) (r' : Reducing) (head' : Nat)
    (tops' : List Nat) : Prop where
  arrived : Arrived j (s.readOn j n) r' head' tops'
  count : s.position + n = stop
  position : (s.readOn j n).position = stop
  tops : pieces ≠ [] → tops' = tops
  state : r'.stack.state head' = above
  face : pieces ≠ [] → r'.stack.face head' = ⟨above, stop, stop⟩
  ways : r'.stack.ways [] head' pieces.length = [(head, pieces)]
  extend : r.stack.Extends r'.stack
  /-- All heads are new then. -/
  fresh : pieces ≠ [] → ∀ i ∈ r'.stack.heads, r.stack.nodes.size ≤ i
  reads : ∀ k < n, (((s.readOn j k).reduceAll j).shift j).1 = true
  /-- There was no choice on the way. -/
  single : ∀ k < n, ∀ i ∈ ((s.readOn j k).reduceAll j).stack.heads, ∃ a,
    j.actions (((s.readOn j k).reduceAll j).stack.state i) (s.readOn j k).position = [a]

namespace Replayed

variable {j : ParseJob} {s : Progress} {r r₁ r₂ : Reducing}
  {head head₁ head₂ mid m top stop above q x n n₁ n₂ : Nat} {pieces inner : List Label}
  {tops tops' tops₁ tops₂ : List Nat}

/-- Nothing is forced: the parse stands where it stood. -/
theorem nil (h : Arrived j s r head tops) (hposition : s.position = m)
    (hstate : r.stack.state head = mid) : Replayed j s r head [] mid m [] 0 r head tops where
  arrived := h
  count := hposition
  position := hposition
  tops := fun hne => absurd rfl hne
  state := hstate
  face := fun hne => absurd rfl hne
  ways := rfl
  extend := .refl _
  fresh := fun hne => absurd rfl hne
  reads := nofun
  single := nofun

/-- **A token is read behind what was forced before.** -/
theorem read (h : Replayed j s r head pieces mid m tops n r₁ head₁ tops₁)
    (hactions : j.actions mid m = [.shift above]) (hshift : (x, above) ∈ j.shifts mid m) :
    Replayed j s r head (pieces ++ [⟨j.leaf m x above, m, m + 1⟩]) above (m + 1) [above] (n + 1)
      (j.begin (s.readOn j (n + 1))) r₁.stack.nodes.size [above] := by
  have hactions₁ : j.actions (r₁.stack.state head₁) (s.readOn j n).position = [.shift above] := by
    rw [h.state, h.position]
    exact hactions
  obtain ⟨hreads, hpos, hextends, hedges, hface, halone⟩ := h.arrived.read hactions₁
    (by rw [h.state, h.position]; exact hshift)
  have hall := h.arrived.stack_reduceAll hactions₁
  have hstep : ((((s.readOn j n).reduceAll j).shift j).2) = s.readOn j (n + 1) := rfl
  have hstack : (j.begin (s.readOn j (n + 1))).stack = (s.readOn j (n + 1)).stack := by
    rw [ParseJob.begin_eq]
  rw [hstep] at hpos hextends hedges hface halone
  rw [h.position] at hpos hedges hface
  rw [← hstack] at hextends hedges hface
  refine ⟨halone.arrived, ?_, hpos, fun _ => rfl, congrArg Face.state hface, fun _ => hface, ?_,
    h.extend.trans hextends, fun _ i hi => ?_, ?_, ?_⟩
  · rw [← Nat.add_assoc, h.count]
  · rw [List.length_append, List.length_singleton, Stack.ways_of_edges hedges,
      hextends.ways h.arrived.down [] h.arrived.head_lt, h.ways]
    rfl
  · rw [hstack, halone.heads] at hi
    rw [List.mem_singleton.mp hi]
    exact h.extend.size_le
  · exact Nat.forall_lt_succ_right.mpr ⟨h.reads, hreads⟩
  · refine Nat.forall_lt_succ_right.mpr ⟨h.single, ?_⟩
    rw [hall]
    exact h.arrived.single hactions₁

/-- **A production is finished behind what was forced before**, over subtrees that were forced
    themselves. -/
theorem finish (ht : j.table.Canonical) (h₁ : Replayed j s r head pieces mid m tops n₁ r₁ head₁ tops₁)
    (h₂ : Replayed j (s.readOn j n₁) r₁ head₁ inner top stop tops' n₂ r₂ head₂ tops₂)
    (htight : ParseJob.Tight m stop inner) (hne : inner ≠ [])
    (hactions : j.actions top stop = [.reduce q])
    (hlength : inner.length = (j.table.production q).rhs.length)
    (hgoto : j.table.goto? mid (j.table.production q).lhs = some above) (hnew : above ∉ tops') :
    ∃ r₃, Replayed j s r head (pieces ++ [(j.reduceLabel [] q mid inner).1]) above stop
      (tops' ++ [above]) (n₁ + n₂) r₃ r₂.stack.nodes.size (tops₂ ++ [above]) := by
  have hlt₁ := h₁.arrived.head_lt
  have hlt₂ : head₁ < r₂.stack.nodes.size := Nat.lt_of_lt_of_le hlt₁ h₂.extend.size_le
  have hmid : r₂.stack.state head₁ = mid := (h₂.extend.state hlt₁).trans h₁.state
  obtain ⟨r₃, h₃, hstack⟩ := h₂.arrived.finish (by rw [h₂.state, h₂.position]; exact hactions)
    (hlength ▸ h₂.ways) hlt₂ (hmid.symm ▸ hgoto) (h₂.tops hne ▸ hnew) ht
  rw [hmid, h₂.position, j.reduceLabel_congr _ [] q mid htight hne] at hstack
  have hstop : (j.reduceLabel [] q mid inner).1.stop = stop := by
    rw [ParseJob.reduceLabel_of_tight [] q mid htight hne]
  generalize (j.reduceLabel [] q mid inner).1 = label at hstack hstop ⊢
  have hextends : r₂.stack.Extends r₃.stack := hstack ▸ r₂.stack.extends_push _
  have hextend := h₁.extend.trans h₂.extend
  have hface : r₃.stack.face r₂.stack.nodes.size = ⟨above, stop, stop⟩ := by
    rw [hstack, Stack.face_push_self, hstop]
    rfl
  have hedges : r₃.stack.edges r₂.stack.nodes.size = [⟨head₁, label⟩] := by
    rw [hstack, Stack.edges_push_self]
  have hreadOn := s.readOn_add j n₁ n₂
  refine ⟨r₃, hreadOn ▸ h₃, ?_, hreadOn ▸ h₂.position, fun _ => by rw [h₂.tops hne],
    congrArg Face.state hface, fun _ => hface, ?_, hextend.trans hextends, fun _ i hi => ?_,
    ?_, ?_⟩
  · have hcount := h₂.count
    rw [h₁.position] at hcount
    rw [← Nat.add_assoc, h₁.count, hcount]
  · rw [List.length_append, List.length_singleton, Stack.ways_of_edges hedges,
      (h₂.extend.trans hextends).ways h₁.arrived.down [] hlt₁, h₁.ways]
    rfl
  · rw [hstack] at hi
    rcases List.mem_append.mp hi with hi | hi
    · exact Nat.le_trans h₁.extend.size_le (h₂.fresh hne i hi)
    · rw [List.mem_singleton.mp hi]
      exact hextend.size_le
  · exact Progress.readOn_forall (fun s => ((s.reduceAll j).shift j).1 = true) h₁.reads h₂.reads
  · exact Progress.readOn_forall (fun s => ∀ i ∈ (s.reduceAll j).stack.heads, ∃ a,
      j.actions ((s.reduceAll j).stack.state i) s.position = [a]) h₁.single h₂.single

end Replayed

/-- **What is forced is done.** -/
theorem Arrived.replay {j : ParseJob} {below first above stop : Nat} {tops : List Nat}
    {pieces : List Label} (ht : j.table.Canonical)
    (hforced : j.Forced below first pieces above stop tops) :
    ∀ {s : Progress} {r : Reducing} {head : Nat} {tops₀ : List Nat}, Arrived j s r head tops₀ →
      s.position = first → r.stack.state head = below →
        ∃ n r' head' tops', Replayed j s r head pieces above stop tops n r' head' tops' := by
  induction hforced with
  | nil state p =>
    intro s r head tops₀ h hposition hstate
    exact ⟨_, _, _, _, .nil h hposition hstate⟩
  | read _ hactions hshift ih =>
    intro s r head tops₀ h hposition hstate
    obtain ⟨n, r₁, head₁, tops₁, h₁⟩ := ih h hposition hstate
    exact ⟨_, _, _, _, h₁.read hactions hshift⟩
  | finish _ hinner hne hactions hlength hgoto hnew ih ihinner =>
    intro s r head tops₀ h hposition hstate
    obtain ⟨n₁, r₁, head₁, tops₁, h₁⟩ := ih h hposition hstate
    obtain ⟨n₂, r₂, head₂, tops₂, h₂⟩ := ihinner h₁.arrived h₁.position h₁.state
    obtain ⟨r₃, h₃⟩ := h₁.finish ht h₂ hinner.tight hne hactions hlength hgoto hnew
    exact ⟨_, _, _, _, h₃⟩

end LayeredSyntax
