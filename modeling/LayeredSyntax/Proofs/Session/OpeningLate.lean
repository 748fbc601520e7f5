/-
  OPENING HIDDEN RULES LATE — why the tree is the same as if they were opened at once.

  Here is a second parser, which opens hidden rules as soon as they are in a production that is
  finished, by putting what is in them in their place, one level deep (`ParseJob.eagerRun`).  In
  everything else it does what the first one does, so the two go side by side: the stacks of the
  second one are those of the first one with all subtrees opened (`Progress.OpensTo`).  These are
  shallow, so wherever either parser assembles them one level of opening would do
  (`ParseJob.flatMap_spliced_assemble`).

  1. Reading a token, taking a subtree over and giving it back look at nothing that opening changes
     (`shift_opensTo`, `takeOver?_opensTo`, `giveBack?_opensTo`).
  2. A repair leaves the same region behind, as opened pieces are assembled to the same children
     (`leaveRegion_opensTo`), and so does the end of a parse (`close_opensTo`).
  3. So **the two parsers come to the same tree**, and to the same marks, repairs and events; they
     only differ in how many nodes they have put into place (`run_opensTo`).
  4. Everything that was opened at once is shallow, so **no hidden rule is left in the tree**, but
     for symbols that had to be made up (`Parser.parse_opens_late`).
-/
import LayeredSyntax.Proofs.Parse.OpeningAtOnce
import LayeredSyntax.Proofs.Parse.Repairing
import LayeredSyntax.Proofs.Parse.Turning
import LayeredSyntax.Session.Parser

namespace LayeredSyntax

/-! ## The second parser -/

namespace Progress

/-- One turn of a parse that opens hidden rules at once. -/
def eagerTurn [Limits] (j : ParseJob) (s : Progress) : Turn :=
  let s := if s.settled then s else s.eagerReduceAll j
  if s.position = j.finish then
    match s.accepted? j with
    | some label => .over (s.close j [label])
    | none => s.stuck j
  else
    match s.takeOver? j with
    | some s => .goOn s
    | none =>
      match s.shift j with
      | (true, s) => .goOn s
      | (false, s) => s.stuck j

/-- Turn after turn, until the parse is over. -/
def eagerRun [Limits] (j : ParseJob) (s : Progress) : Nat → ParseRun
  | 0 => s.close j []
  | fuel + 1 =>
    match s.eagerTurn j with
    | .over r => r
    | .goOn s => s.eagerRun j fuel

end Progress

/-- **Parse, and open hidden rules at once.** -/
def ParseJob.eagerRun [Limits] (j : ParseJob) : ParseRun :=
  match j.table.entry? j.grammar with
  | none => j.withoutEntry
  | some entry =>
    if j.finish = 0 then (Progress.start j).close j []
    else (j.entered entry.state).eagerRun j j.turnBound

/-- Parse tokens, and open hidden rules at once. -/
def Parser.eagerRunOn [Limits] (p : Parser) (stream : TokenStream) (reuse : Option ReuseIndex) :
    ParseRun :=
  (ParseJob.prepare p.language.table p.language.grammar stream p.resync reuse
    p.parsing.reportRepairs).eagerRun

/-! ## What opening does not change -/

namespace Stack

variable (c : Composite) (s : Stack)

theorem chainFrom_opened (fuel : Nat) :
    ∀ i, (s.opened c).chainFrom i fuel = s.chainFrom i fuel := by
  induction fuel with
  | zero => exact fun i => rfl
  | succ fuel ih =>
    intro i
    unfold chainFrom
    have hedges : ((s.opened c).node i).edges = (s.node i).edges.map (Edge.opened c) :=
      edges_opened c s i
    rw [hedges, List.head?_map]
    cases (s.node i).edges.head? with
    | none => rfl
    | some e => exact congrArg (i :: ·) (ih e.below)

theorem chain_opened : (s.opened c).chain = s.chain := by
  have hheads : (s.opened c).heads = s.heads := rfl
  unfold chain
  rw [hheads, size_opened]
  cases s.heads with
  | nil => rfl
  | cons i _ => exact chainFrom_opened c s _ i

end Stack

namespace ParseJob

variable (c : Composite) (j : ParseJob) (s : Stack)

theorem isAmbiguous_opened (p : Nat) : j.isAmbiguous (s.opened c) p = j.isAmbiguous s p := by
  have hstates : (s.opened c).heads.map (s.opened c).state = s.heads.map s.state :=
    List.map_congr_left fun i _ => Stack.state_opened c s i
  unfold isAmbiguous
  rw [hstates]

theorem soleReader?_opened (p : Nat) : j.soleReader? (s.opened c) p = j.soleReader? s p := by
  unfold soleReader?
  simp only [Stack.state_opened]
  rfl

theorem insertions_opened [Limits] (p : Nat) : j.insertions (s.opened c) p = j.insertions s p := by
  have hat : j.insertionsAt (s.opened c) = j.insertionsAt s := by
    funext head
    unfold insertionsAt
    rw [Stack.state_opened]
  unfold insertions
  rw [hat]
  rfl

theorem expectedAt_opened : j.expectedAt (s.opened c) = j.expectedAt s := by
  unfold expectedAt
  simp only [Stack.state_opened]
  rfl

/-- Skipped tokens are pieces that there is nothing to open in. -/
theorem skippedPieces_opened (first stop : Nat) :
    (j.skippedPieces first stop).map (Label.opened c) = j.skippedPieces first stop := by
  unfold skippedPieces
  rw [List.map_map]
  refine List.map_congr_left fun p _ => ?_
  show Label.mk (c.opened (j.skippedNode p)) p (p + 1) = j.skippedPiece p
  rw [(visible_skippedNode c j p).opened_eq]
  rfl

end ParseJob

namespace Progress

theorem landing?_opened (c : Composite) (j : ParseJob) (s : Stack) (chain : List Nat) (q : Nat) :
    landing? j (s.opened c) chain q = landing? j s chain q := by
  have hstate : (s.opened c).state = s.state := funext fun i => Stack.state_opened c s i
  fun_induction landing? j s chain q with
  | case1 q hle fits k hfind =>
    rw [dite_eq_ite] at hfind
    rw [landing?, if_pos hle]
    dsimp only
    rw [hstate, hfind]
  | case2 q hle fits hnone ih =>
    rw [dite_eq_ite] at hnone
    rw [landing?, if_pos hle]
    dsimp only
    rw [hstate, hnone]
    exact ih
  | case3 q hle => rw [landing?, if_neg hle]

theorem poppedPieces_opened (c : Composite) (s : Stack) (nodes : List Nat) :
    poppedPieces (s.opened c) nodes = (poppedPieces s nodes).map (Label.opened c) := by
  have hedge : ∀ i, ((s.opened c).node i).edges.head?.map (·.label) =
      ((s.node i).edges.head?.map (·.label)).map (Label.opened c) := by
    intro i
    have hedges : ((s.opened c).node i).edges = (s.node i).edges.map (Edge.opened c) :=
      Stack.edges_opened c s i
    rw [hedges, List.head?_map, Option.map_map, Option.map_map]
    rfl
  unfold poppedPieces
  rw [List.map_reverse, List.map_filterMap]
  simp only [hedge]

/-- What is popped from a shallow stack is shallow. -/
theorem shallow_of_mem_poppedPieces {c : Composite} {s : Stack} (h : s.Shallow c)
    {nodes : List Nat} {l : Label} (hl : l ∈ poppedPieces s nodes) : c.Shallow l.node := by
  obtain ⟨i, _, hi⟩ := List.mem_filterMap.mp (List.mem_reverse.mp hl)
  obtain ⟨e, he, rfl⟩ := Option.map_eq_some_iff.mp hi
  exact h i e (List.mem_of_head? he)

end Progress

/-! ## Reading a token -/

/-- Whether the heads found so far are the same as other ones, with all subtrees opened. -/
structure Shifting.OpensTo (c : Composite) (s s' : Shifting) : Prop where
  eq : s' = ⟨s.stack.opened c, s.leaves⟩
  shallow : (s.stack.opened c).Shallow c
  leaves : ∀ x leaf, s.leaves.lookup x = some leaf → c.Visible leaf

namespace ParseJob

variable {j : ParseJob} {p : Nat} {c : Composite}

theorem visible_leaf (c : Composite) (j : ParseJob) (p x target : Nat) :
    c.Visible (j.leaf p x target) := by
  unfold leaf
  dsimp only
  split <;> exact .of_childless rfl rfl

theorem shiftTo_opensTo {s s' : Shifting} (h : s.OpensTo c s') (head : Nat) (step : Nat × Nat) :
    (j.shiftTo p head s step).OpensTo c (j.shiftTo p head s' step) := by
  obtain ⟨rfl, hshallow, hleaves⟩ := h
  obtain ⟨x, target⟩ := step
  -- The leaf is an older one of the same terminal, or a new one.
  obtain ⟨leaf, hleaf, hvisible⟩ : ∃ leaf,
      (s.leaves.lookup x).getD (j.leaf p x target) = leaf ∧ c.Visible leaf := by
    cases hlook : s.leaves.lookup x with
    | none => exact ⟨_, rfl, visible_leaf c j p x target⟩
    | some leaf => exact ⟨leaf, rfl, hleaves x leaf hlook⟩
  have hedge : ∀ e ∈ [Edge.mk head ⟨leaf, p, p + 1⟩], c.Shallow e.label.node := by
    intro e he
    obtain rfl := List.mem_singleton.mp he
    exact hvisible.shallow
  have hopened : Label.opened c ⟨leaf, p, p + 1⟩ = ⟨leaf, p, p + 1⟩ := by
    unfold Label.opened
    rw [hvisible.opened_eq]
  have hopened' : Edge.opened c ⟨head, ⟨leaf, p, p + 1⟩⟩ = ⟨head, ⟨leaf, p, p + 1⟩⟩ :=
    congrArg (Edge.mk head) hopened
  have hhead : (s.stack.opened c).headIn? target = s.stack.headIn? target := rfl
  have hmore : ∀ y n, (if (s.leaves.lookup x).isSome then s.leaves
      else (x, leaf) :: s.leaves).lookup y = some n → c.Visible n := by
    intro y n hy
    split at hy
    · exact hleaves y n hy
    · rw [List.lookup_cons] at hy
      split at hy
      · exact Option.some.inj hy ▸ hvisible
      · exact hleaves y n hy
  unfold shiftTo
  dsimp only
  rw [hleaf, hhead]
  cases s.stack.headIn? target with
  | none =>
    have hpush := Stack.push_opened c s.stack
      ⟨target, p + 1, p + 1, [⟨head, ⟨leaf, p, p + 1⟩⟩]⟩
    have hnode : StackNode.opened c ⟨target, p + 1, p + 1, [⟨head, ⟨leaf, p, p + 1⟩⟩]⟩ =
        ⟨target, p + 1, p + 1, [⟨head, ⟨leaf, p, p + 1⟩⟩]⟩ := by
      unfold StackNode.opened
      dsimp only
      rw [List.map_singleton, hopened']
    rw [hnode] at hpush
    exact ⟨congrArg (Shifting.mk · _) hpush.symm, hpush ▸ hshallow.push hedge, hmore⟩
  | some next =>
    dsimp only
    rw [Stack.edge?_opened, Option.isSome_map]
    have hadd := Stack.addEdge_opened c s.stack next ⟨head, ⟨leaf, p, p + 1⟩⟩
    rw [hopened'] at hadd
    cases (s.stack.edge? next head).isSome with
    | true => exact ⟨rfl, hshallow, hmore⟩
    | false =>
      exact ⟨congrArg (Shifting.mk · _) hadd.symm,
        hadd ▸ hshallow.addEdge next hvisible.shallow, hmore⟩

end ParseJob

namespace Progress

variable {j : ParseJob} {c : Composite} {s s' : Progress}

/-- **Reading a token** with all subtrees opened. -/
theorem shift_opensTo (h : s.OpensTo c s') :
    (s'.shift j).1 = (s.shift j).1 ∧ (s.shift j).2.OpensTo c (s'.shift j).2 := by
  obtain ⟨⟨assembled, rfl⟩, hshallow, hregions⟩ := h
  have hsteps : ((s.stack.opened c).heads.flatMap fun head =>
        (j.shifts ((s.stack.opened c).state head) s.position).map (head, ·)) =
      s.stack.heads.flatMap fun head => (j.shifts (s.stack.state head) s.position).map (head, ·) :=
    List.flatMap_congr fun head _ => by rw [Stack.state_opened]
  unfold shift
  dsimp only
  rw [hsteps, ParseJob.isAmbiguous_opened]
  generalize (s.stack.heads.flatMap fun head =>
    (j.shifts (s.stack.state head) s.position).map (head, ·)) = steps
  have hread := List.foldl_rel (r := Shifting.OpensTo c)
    (l := steps) (f := fun r step => j.shiftTo s.position step.1 r step.2)
    (g := fun r step => j.shiftTo s.position step.1 r step.2)
    (a := ⟨⟨s.stack.nodes, [], []⟩, []⟩) (b := ⟨⟨(s.stack.opened c).nodes, [], []⟩, []⟩)
    ⟨rfl, hshallow, fun _ _ h => absurd h (Option.some_ne_none _).symm⟩
    fun step _ r r' h => ParseJob.shiftTo_opensTo h step.1 step.2
  have hstack := congrArg Shifting.stack hread.eq
  have hbehind := fun s₀ : Progress => congrArg (fun stack => { s₀ with
    stack, position := s.position + 1, settled := false, checkpoint := none, assembled }) hstack
  cases j.isAmbiguous s.stack s.position <;> cases steps.isEmpty
  · exact ⟨rfl, ⟨assembled, hbehind s⟩, hread.shallow, hregions⟩
  · exact ⟨rfl, ⟨assembled, rfl⟩, hshallow, hregions⟩
  · exact ⟨rfl, ⟨assembled, hbehind (s.mark s.position)⟩, hread.shallow, hregions⟩
  · exact ⟨rfl, ⟨assembled, rfl⟩, hshallow, hregions⟩

/-! ## Taking subtrees over -/

/-- Two things that go on from the same one go on side by side. -/
theorem rel_bind {α β γ : Type} {R : β → γ → Prop} {x : Option α} {f : α → Option β}
    {g : α → Option γ} (h : ∀ a, x = some a → Option.Rel R (f a) (g a)) :
    Option.Rel R (x.bind f) (x.bind g) := by
  cases x with
  | none => exact .none
  | some a => exact h a rfl

/-- **Taking a subtree over** that has no hidden rule in it. -/
theorem takeOver?_opensTo [Limits] (h : s.OpensTo c s')
    (hreuse : ∀ x ∈ j.reuse, ∀ n ∈ x.candidatesAt s.position, c.Visible n) :
    Option.Rel (OpensTo c) (s.takeOver? j) (s'.takeOver? j) := by
  obtain ⟨⟨assembled, rfl⟩, hshallow, hregions⟩ := h
  unfold takeOver?
  dsimp only
  rw [ParseJob.soleReader?_opened]
  refine rel_bind fun x hx => rel_bind fun _ _ => rel_bind fun _ _ => rel_bind fun head _ => ?_
  rw [Stack.state_opened]
  refine rel_bind fun found hfound => ?_
  obtain ⟨n, target, stop⟩ := found
  obtain ⟨m, hm, hbehind⟩ := List.exists_of_findSome?_eq_some hfound
  obtain ⟨_, _, heq⟩ := Option.map_eq_some_iff.mp hbehind
  obtain rfl : m = n := congrArg Prod.fst heq
  have hvisible := hreuse x hx m hm
  have hpush := Stack.pushOnly_opened c s.stack
    ⟨target, stop, stop, [⟨head, ⟨m, s.position, stop⟩⟩]⟩
  have hnode : StackNode.opened c ⟨target, stop, stop, [⟨head, ⟨m, s.position, stop⟩⟩]⟩ =
      ⟨target, stop, stop, [⟨head, ⟨m, s.position, stop⟩⟩]⟩ := by
    unfold StackNode.opened Edge.opened Label.opened
    rw [List.map_singleton, hvisible.opened_eq]
  rw [hnode] at hpush
  refine .some ⟨⟨assembled, ?_⟩, ?_, hregions⟩
  · dsimp only
    rw [hpush]
    rfl
  · rw [hpush]
    refine hshallow.pushOnly fun e he => ?_
    obtain rfl := List.mem_singleton.mp he
    exact hvisible.shallow

/-- Giving a subtree back. -/
theorem giveBack?_opensTo [Limits] (h : s.OpensTo c s') :
    Option.Rel (OpensTo c) s.giveBack? s'.giveBack? := by
  obtain ⟨⟨assembled, rfl⟩, hshallow, hregions⟩ := h
  exact rel_bind fun _ _ => rel_bind fun _ _ => .some ⟨⟨assembled, rfl⟩, hshallow, hregions⟩

/-! ## Repairs -/

/-- Making a symbol up. -/
theorem insert_opensTo [Limits] (h : s.OpensTo c s') (i : Insertion) :
    (s.insert j i).OpensTo c (s'.insert j i) := by
  obtain ⟨⟨assembled, rfl⟩, hshallow, hregions⟩ := h
  have hmissing : ∀ {kind : String} {p : Nat} {e : Edge},
      e ∈ [Edge.mk i.head ⟨.missing kind i.grammar i.symbol, p, p⟩] → c.Shallow e.label.node := by
    intro kind p e he
    obtain rfl := List.mem_singleton.mp he
    exact fun n hn => absurd hn List.not_mem_nil
  obtain ⟨hstack, _, hregions', _⟩ := insert_spec j s i
  refine ⟨⟨assembled, ?_⟩, ?_, hregions' ▸ hregions⟩
  · rw [hstack, Stack.pushOnly_opened]
    unfold insert
    dsimp only
    split <;> rfl
  · rw [hstack, Stack.pushOnly_opened]
    exact hshallow.pushOnly fun e he => hmissing he

/-- **Leaving an error region behind**: it is the same one. -/
theorem leaveRegion_opensTo (h : s.OpensTo j.table.toComposite s') (first stop : Nat)
    (popped : List Nat) (cause : RepairCause) :
    (s.leaveRegion j first stop popped cause).OpensTo j.table.toComposite
      (s'.leaveRegion j first stop popped cause) := by
  obtain ⟨⟨assembled, rfl⟩, hshallow, hregions⟩ := h
  have hpieces : poppedPieces (s.stack.opened j.table.toComposite) popped ++
      j.skippedPieces s.position stop = (poppedPieces s.stack popped ++
        j.skippedPieces s.position stop).map (Label.opened j.table.toComposite) := by
    rw [poppedPieces_opened, List.map_append, ParseJob.skippedPieces_opened]
  have hall : ∀ piece ∈ poppedPieces (s.stack.opened j.table.toComposite) popped ++
      j.skippedPieces s.position stop, j.table.Shallow piece.node := by
    intro piece hpiece
    rcases List.mem_append.mp hpiece with hpiece | hpiece
    · exact shallow_of_mem_poppedPieces hshallow hpiece
    · obtain ⟨p, _, rfl⟩ := List.mem_map.mp hpiece
      exact (ParseJob.visible_skippedNode _ j p).shallow
  have hvisible := ParseJob.visible_assemble hregions first stop hall
  rw [hpieces, ParseJob.assemble_opened] at hvisible
  unfold leaveRegion
  dsimp only
  rw [hpieces, ParseJob.assemble_opened, ParseJob.expectedAt_opened]
  refine ⟨⟨_, rfl⟩, hshallow, fun r hr => ?_⟩
  rcases List.mem_cons.mp hr with rfl | hr
  · exact .error hvisible
  · exact hregions r hr

theorem mark_opensTo (h : s.OpensTo c s') (p : Nat) : (s.mark p).OpensTo c (s'.mark p) := by
  obtain ⟨⟨assembled, rfl⟩, hshallow, hregions⟩ := h
  exact ⟨⟨assembled, rfl⟩, hshallow, hregions⟩

theorem markAll_opensTo (h : s.OpensTo c s') (first last : Nat) :
    (s.markAll first last).OpensTo c (s'.markAll first last) :=
  List.foldl_rel (r := OpensTo c) h fun p _ _ _ h => mark_opensTo h p

theorem tell_opensTo (h : s.OpensTo c s') (e : Event) : (s.tell e).OpensTo c (s'.tell e) := by
  obtain ⟨⟨assembled, rfl⟩, hshallow, hregions⟩ := h
  exact ⟨⟨assembled, rfl⟩, hshallow, hregions⟩

/-- Putting a node on again, further on. -/
theorem pushAgain_opensTo (h : s.OpensTo c s') {n : StackNode}
    (hn : ∀ e ∈ (n.opened c).edges, c.Shallow e.label.node) (q : Nat) :
    OpensTo c
      { s with
        stack := s.stack.pushOnly ⟨n.state, q, n.covered, n.edges⟩
        position := q
        settled := false }
      { s' with
        stack := s'.stack.pushOnly ⟨(n.opened c).state, q, (n.opened c).covered, (n.opened c).edges⟩
        position := q
        settled := false } := by
  obtain ⟨⟨assembled, rfl⟩, hshallow, hregions⟩ := h
  have hpush := Stack.pushOnly_opened c s.stack ⟨n.state, q, n.covered, n.edges⟩
  refine ⟨⟨assembled, ?_⟩, ?_, hregions⟩
  · dsimp only
    rw [hpush]
    rfl
  · rw [hpush]
    exact hshallow.pushOnly hn

/-- Skipping to a token at which the parse is taken up again. -/
theorem skip?_opensTo [Limits] (h : s.OpensTo j.table.toComposite s') :
    Option.Rel (OpensTo j.table.toComposite) (s.skip? j) (s'.skip? j) := by
  have hleft := fun first stop popped cause =>
    leaveRegion_opensTo (j := j) h first stop popped cause
  obtain ⟨⟨assembled, rfl⟩, hshallow, hregions⟩ := h
  unfold skip?
  dsimp only at hleft ⊢
  rw [Stack.chain_opened, landing?_opened]
  refine rel_bind fun found _ => ?_
  obtain ⟨q, popped, k⟩ := found
  have hedges : ∀ e ∈ ((s.stack.node k).opened j.table.toComposite).edges,
      j.table.Shallow e.label.node := by
    rw [← Stack.node_opened]
    exact hshallow k
  have hmarked := markAll_opensTo (pushAgain_opensTo (hleft (s.stack.node k).covered q popped
    (.unexpected (j.tokens.text s.position))) hedges q) (s.stack.node k).covered q
  dsimp only
  rw [Stack.node_opened]
  refine .some ?_
  split
  · exact tell_opensTo hmarked _
  · exact hmarked

/-- Wrapping everything up. -/
theorem wrap_opensTo (h : s.OpensTo j.table.toComposite s') (cause : RepairCause) :
    (s.wrap j cause).OpensTo j.table.toComposite (s'.wrap j cause) := by
  have hleft := fun first stop popped cause =>
    leaveRegion_opensTo (j := j) h first stop popped cause
  obtain ⟨⟨assembled, rfl⟩, hshallow, hregions⟩ := h
  unfold wrap
  dsimp only
  rw [Stack.chain_opened]
  cases s.stack.chain.getLast? with
  | none => exact ⟨⟨assembled, rfl⟩, hshallow, hregions⟩
  | some bottom =>
    dsimp only
    rw [Stack.node_opened]
    exact markAll_opensTo
      (hleft (s.stack.node bottom).covered j.finish s.stack.chain.dropLast cause)
      (min (s.stack.node bottom).covered s.position) j.finish

/-- A repair, counted first. -/
theorem repair_eq [Limits] (j : ParseJob) (s : Progress) : s.repair j =
    if Limits.repairs < s.counted.repairCount then
      (false, (s.counted.tell ((Event.of .warning .repairLimit "Recovery limit reached")
        |>.withCount "limit" Limits.repairs
        |>.withCount "position" s.position)).wrap j .tooMany)
    else
      match if s.counted.mayInsert j then (j.insertions s.stack s.position).head? else none with
      | some i => (true, s.counted.insert j i)
      | none =>
        match if s.position < j.finish then s.counted.skip? j else none with
        | some s => (true, s)
        | none =>
          let cause := if s.position < j.finish then .unexpected (j.tokens.text s.position)
            else .endOfText
          (false, s.counted.wrap j cause) := rfl

/-- **Repairing the parse** with all subtrees opened. -/
theorem repair_opensTo [Limits] (h : s.OpensTo j.table.toComposite s') :
    (s'.repair j).1 = (s.repair j).1 ∧
      (s.repair j).2.OpensTo j.table.toComposite (s'.repair j).2 := by
  have hcounted : s.counted.OpensTo j.table.toComposite s'.counted := by
    obtain ⟨⟨assembled, rfl⟩, hshallow, hregions⟩ := h
    exact ⟨⟨assembled, rfl⟩, hshallow, hregions⟩
  obtain ⟨hposition, hlimit, hmay, hinsertions⟩ : s'.position = s.position ∧
      s'.counted.repairCount = s.counted.repairCount ∧
      s'.counted.mayInsert j = s.counted.mayInsert j ∧
      j.insertions s'.stack s.position = j.insertions s.stack s.position := by
    obtain ⟨⟨assembled, rfl⟩, _, _⟩ := h
    exact ⟨rfl, rfl, rfl, ParseJob.insertions_opened ..⟩
  rw [repair_eq, repair_eq, hposition, hlimit, hmay, hinsertions]
  split
  · exact ⟨rfl, wrap_opensTo (tell_opensTo hcounted _) _⟩
  · cases (if s.counted.mayInsert j then (j.insertions s.stack s.position).head? else none) with
    | some i => exact ⟨rfl, insert_opensTo hcounted i⟩
    | none =>
      dsimp only
      have hskip : Option.Rel (OpensTo j.table.toComposite)
          (if s.position < j.finish then s.counted.skip? j else none)
          (if s.position < j.finish then s'.counted.skip? j else none) := by
        split
        · exact skip?_opensTo hcounted
        · exact .none
      generalize (if s.position < j.finish then s.counted.skip? j else none) = x at hskip ⊢
      generalize (if s.position < j.finish then s'.counted.skip? j else none) = x' at hskip ⊢
      cases hskip with
      | some hskip => exact ⟨rfl, hskip⟩
      | none => exact ⟨rfl, wrap_opensTo hcounted _⟩

end Progress

/-! ## The end of a parse -/

/-- **Whether two parses come to the same**, but for the work, and to a tree without hidden rules.
    -/
structure ParseRun.OpensTo (c : Composite) (r r' : ParseRun) : Prop where
  eq : ∃ assembled, r' = { r with counts := { r.counts with assembled } }
  visible : c.Visible r.tree

/-- How a turn ends in two parses. -/
inductive Progress.Turn.OpensTo (c : Composite) : Turn → Turn → Prop where
  | goOn {s s' : Progress} (h : s.OpensTo c s') : OpensTo c (.goOn s) (.goOn s')
  | over {r r' : ParseRun} (h : r.OpensTo c r') : OpensTo c (.over r) (.over r')

namespace ParseJob

variable {j : ParseJob} {regions : Regions} {pieces : List Label}

/-- The root over opened pieces is the root over the pieces as they were. -/
theorem assembleRoot_opened : j.assembleRoot regions
    (pieces.map (Label.opened j.table.toComposite)) = j.assembleRoot regions pieces := by
  unfold assembleRoot
  rw [assemble_opened]

theorem visible_assembleRoot (hr : regions.Visible j.table.toComposite)
    (hpieces : ∀ piece ∈ pieces, j.table.Shallow piece.node) :
    j.table.Visible (j.assembleRoot regions pieces).1 := by
  have hfront : ∀ n ∈ j.triviaOnto 0 [], j.table.Visible n :=
    visible_triviaOnto fun n hn => absurd hn List.not_mem_nil
  unfold assembleRoot
  dsimp only
  split
  · exact .intro rfl fun n hn => hfront n (List.mem_reverse.mp hn)
  · refine .intro rfl fun n hn => visible_triviaOnto (fun n hn => ?_) n (List.mem_reverse.mp hn)
    rcases List.mem_append.mp hn with hn | hn
    · exact visible_assemble hr _ _ hpieces n (List.mem_reverse.mpr hn)
    · exact hfront n hn

end ParseJob

namespace Progress

variable {j : ParseJob} {s s' : Progress}

/-- **Ending a parse** with all subtrees opened. -/
theorem close_opensTo (h : s.OpensTo j.table.toComposite s') (pieces : List Label)
    (hpieces : ∀ piece ∈ pieces.map (Label.opened j.table.toComposite),
      j.table.Shallow piece.node) :
    (s.close j pieces).OpensTo j.table.toComposite
      (s'.close j (pieces.map (Label.opened j.table.toComposite))) := by
  obtain ⟨⟨assembled, rfl⟩, hshallow, hregions⟩ := h
  have hvisible := ParseJob.visible_assembleRoot hregions hpieces
  rw [ParseJob.assembleRoot_opened] at hvisible
  unfold close
  dsimp only
  rw [ParseJob.assembleRoot_opened]
  refine ⟨⟨assembled + (j.assembleRoot s.regions pieces).2, ?_⟩, hvisible⟩
  unfold counts
  dsimp only
  rw [Stack.size_opened]

theorem close_nil_opensTo (h : s.OpensTo j.table.toComposite s') :
    (s.close j []).OpensTo j.table.toComposite (s'.close j []) :=
  close_opensTo h [] fun _ hpiece => absurd hpiece List.not_mem_nil

/-- What is accepted is the same subtree, opened. -/
theorem accepted?_opensTo {c : Composite} (h : s.OpensTo c s') :
    s'.accepted? j = (s.accepted? j).map (Label.opened c) := by
  obtain ⟨⟨assembled, rfl⟩, hshallow, hregions⟩ := h
  -- Which subtree begins first does not depend on what is in it.
  have hfold : ∀ (es : List Edge) (best : Label),
      (es.map (Edge.opened c)).foldl (fun best e =>
        if e.label.first < best.first then e.label else best) (best.opened c) =
      (es.foldl (fun best e =>
        if e.label.first < best.first then e.label else best) best).opened c := by
    intro es
    induction es with
    | nil => exact fun best => rfl
    | cons e es ih =>
      intro best
      rw [List.map_cons, List.foldl_cons, List.foldl_cons, ← ih]
      congr 1
      show (if e.label.first < best.first then e.label.opened c else best.opened c) = _
      split <;> rfl
  unfold accepted?
  rw [List.map_findSome?]
  show s.stack.heads.findSome? _ = _
  congr 1
  funext head
  have hedges : ((s.stack.opened c).node head).edges =
      (s.stack.node head).edges.map (Edge.opened c) := Stack.edges_opened c s.stack head
  dsimp only [Function.comp]
  rw [Stack.state_opened, hedges]
  split
  · cases (s.stack.node head).edges with
    | nil => rfl
    | cons e es => exact congrArg some (hfold es e.label)
  · rfl

/-! ## Turns -/

/-- Going on where nothing can be read. -/
theorem stuck_opensTo [Limits] (h : s.OpensTo j.table.toComposite s') :
    Turn.OpensTo j.table.toComposite (s.stuck j) (s'.stuck j) := by
  have hback := giveBack?_opensTo h
  unfold stuck
  generalize s.giveBack? = back at hback ⊢
  generalize s'.giveBack? = back' at hback ⊢
  cases hback with
  | some hback => exact .goOn hback
  | none =>
    have hused : OpensTo j.table.toComposite { s with checkpoint := none }
        { s' with checkpoint := none } := by
      obtain ⟨⟨assembled, rfl⟩, hshallow, hregions⟩ := h
      exact ⟨⟨assembled, rfl⟩, hshallow, hregions⟩
    obtain ⟨hgoes, hrepaired⟩ := repair_opensTo hused
    dsimp only
    generalize repair j { s with checkpoint := none } = r at hgoes hrepaired ⊢
    generalize repair j { s' with checkpoint := none } = r' at hgoes hrepaired ⊢
    obtain ⟨goes, s₁⟩ := r
    obtain ⟨goes', s₁'⟩ := r'
    obtain rfl : goes' = goes := hgoes
    cases goes' with
    | true => exact .goOn hrepaired
    | false => exact .over (close_nil_opensTo hrepaired)

/-- Everything finished, or finished already. -/
theorem settle_opensTo (h : s.OpensTo j.table.toComposite s') :
    (s.settle j).OpensTo j.table.toComposite (if s'.settled then s' else s'.eagerReduceAll j) := by
  have hsettled : s'.settled = s.settled := by
    obtain ⟨⟨assembled, rfl⟩, _, _⟩ := h
    rfl
  unfold settle
  rw [hsettled]
  split
  · exact h
  · exact eagerReduceAll_opensTo h

/-- **One turn** of each of the parsers. -/
theorem turn_opensTo [Limits]
    (hreuse : ∀ x ∈ j.reuse, ∀ p, ∀ n ∈ x.candidatesAt p, j.table.Visible n)
    (h : s.OpensTo j.table.toComposite s') :
    Turn.OpensTo j.table.toComposite (s.turn j) (s'.eagerTurn j) := by
  have hsettled := settle_opensTo h
  unfold turn eagerTurn
  rw [show (if s.settled then s else s.reduceAll j) = s.settle j from rfl]
  dsimp only
  generalize s.settle j = t at hsettled ⊢
  generalize (if s'.settled then s' else s'.eagerReduceAll j) = t' at hsettled ⊢
  have hposition : t'.position = t.position := by
    obtain ⟨⟨assembled, rfl⟩, _, _⟩ := hsettled
    rfl
  rw [hposition]
  split
  · rw [accepted?_opensTo hsettled]
    cases haccepted : t.accepted? j with
    | none => exact stuck_opensTo hsettled
    | some label =>
      obtain ⟨head, _, e, he, rfl, _⟩ := exists_of_accepted? haccepted
      refine .over (close_opensTo hsettled [e.label] fun piece hpiece => ?_)
      obtain rfl := List.mem_singleton.mp hpiece
      refine hsettled.shallow head (e.opened _) ?_
      rw [Stack.edges_opened]
      exact List.mem_map.mpr ⟨e, he, rfl⟩
  · have htake := takeOver?_opensTo hsettled fun x hx => hreuse x hx t.position
    generalize t.takeOver? j = taken at htake ⊢
    generalize t'.takeOver? j = taken' at htake ⊢
    cases htake with
    | some htake => exact .goOn htake
    | none =>
      obtain ⟨hreads, hread⟩ := shift_opensTo (j := j) hsettled
      dsimp only
      generalize t.shift j = r at hreads hread ⊢
      generalize t'.shift j = r' at hreads hread ⊢
      obtain ⟨reads, s₁⟩ := r
      obtain ⟨reads', s₁'⟩ := r'
      obtain rfl : reads' = reads := hreads
      cases reads' with
      | true => exact .goOn hread
      | false => exact stuck_opensTo hread

/-- **Turn after turn** the parsers go side by side. -/
theorem run_opensTo [Limits]
    (hreuse : ∀ x ∈ j.reuse, ∀ p, ∀ n ∈ x.candidatesAt p, j.table.Visible n)
    (fuel : Nat) : ∀ {s s' : Progress}, s.OpensTo j.table.toComposite s' →
      (s.run j fuel).OpensTo j.table.toComposite (s'.eagerRun j fuel) := by
  induction fuel with
  | zero => exact fun h => close_nil_opensTo h
  | succ fuel ih =>
    intro s s' h
    have hturn := turn_opensTo hreuse h
    unfold run eagerRun
    generalize s.turn j = t at hturn ⊢
    generalize s'.eagerTurn j = t' at hturn ⊢
    rcases hturn with h | h
    · exact ih h
    · exact h

end Progress

/-! ## Whole parses -/

namespace ParseJob

variable {j : ParseJob}

/-- Before anything has been read there is nothing to open. -/
theorem start_opensTo (j : ParseJob) :
    (Progress.start j).OpensTo j.table.toComposite (Progress.start j) := by
  have hstack : (Progress.start j).stack.opened j.table.toComposite = (Progress.start j).stack :=
    congrArg (Stack.mk · [] []) Array.map_empty
  refine ⟨⟨0, ?_⟩, fun i e he => ?_, fun _ hr => absurd hr List.not_mem_nil⟩
  · rw [hstack]
    rfl
  · rw [hstack] at he
    exact absurd (Stack.lt_of_mem_edges he) (Nat.not_lt_zero i)

theorem entered_opensTo (j : ParseJob) (state : Nat) :
    (j.entered state).OpensTo j.table.toComposite (j.entered state) := by
  have hstack : (j.entered state).stack.opened j.table.toComposite = (j.entered state).stack := by
    have hempty : Stack.empty.opened j.table.toComposite = Stack.empty :=
      congrArg (Stack.mk · [] []) Array.map_empty
    have hpush := Stack.push_opened j.table.toComposite Stack.empty ⟨state, 0, 0, []⟩
    rw [hempty] at hpush
    exact hpush
  refine ⟨⟨0, ?_⟩, fun i e he => ?_, fun _ hr => absurd hr List.not_mem_nil⟩
  · rw [hstack]
    rfl
  · rw [hstack, edges_entered] at he
    cases he

theorem visible_withoutEntry [Limits] (j : ParseJob) : j.table.Visible j.withoutEntry.tree := by
  have hnil : Regions.Visible j.table.toComposite [] := fun _ hr => absurd hr List.not_mem_nil
  have hfront : ∀ n ∈ j.triviaOnto 0 [], j.table.Visible n :=
    visible_triviaOnto fun n hn => absurd hn List.not_mem_nil
  refine .intro rfl ?_
  unfold withoutEntry Assembled.children Node.children
  dsimp only
  intro n hn
  have hn := List.mem_reverse.mp hn
  split at hn
  · exact hfront n hn
  · refine visible_triviaOnto (fun n hn => ?_) n hn
    obtain ⟨more, hmore, heq⟩ := exists_gap (j := j) hnil 0 0 j.finish
    have hmem : n ∈ (j.fillGap [] 0 0 j.finish ⟨j.triviaOnto 0 [], 0⟩).children :=
      List.mem_reverse.mpr hn
    rw [heq] at hmem
    rcases List.mem_append.mp hmem with hmem | hmem
    · exact hfront n (List.mem_reverse.mp hmem)
    · exact hmore n hmem

/-- **A parse comes to what it comes to when hidden rules are opened at once**, whatever it takes
    over, if there are no hidden rules in that. -/
theorem run_opensTo [Limits]
    (hreuse : ∀ x ∈ j.reuse, ∀ p, ∀ n ∈ x.candidatesAt p, j.table.Visible n) :
    j.run.OpensTo j.table.toComposite j.eagerRun := by
  unfold run eagerRun
  cases j.table.entry? j.grammar with
  | none => exact ⟨⟨_, rfl⟩, visible_withoutEntry j⟩
  | some entry =>
    dsimp only
    split
    · exact Progress.close_nil_opensTo (start_opensTo j)
    · exact Progress.run_opensTo hreuse j.turnBound (entered_opensTo j entry.state)

end ParseJob

/-- The nonterminal that a node stands for. -/
def Node.nonterminal? : Node → Option Nat
  | .rule _ _ nonterminal _ _ _ | .missing _ _ (.n nonterminal) => some nonterminal
  | _ => none

/-- **Opening hidden rules late makes no difference.**  A text is parsed to the very tree, with the
    very marks and repairs, that it is parsed to when hidden rules are opened at once, and nothing
    in the tree stands for a hidden rule but what had to be made up. -/
theorem Parser.parse_opens_late [Limits] (p : Parser) (source : String) :
    let stream := TokenStream.read p.language.mode (.ofText source)
    let eager := p.eagerRunOn stream none
    let o := (p.parse source).outcome
    o.tree = eager.tree ∧
      (∃ work, p.runOn stream none =
        { eager with counts := { eager.counts with assembled := work } }) ∧
      ∀ d ∈ o.root.descendants, ∀ a, d.node.nonterminal? = some a →
        (p.language.table.nonterminal a).hidden = true → d.node.isMissing = true := by
  intro stream eager o
  let j := ParseJob.prepare p.language.table p.language.grammar stream p.resync none
    p.parsing.reportRepairs
  obtain ⟨⟨assembled, heq⟩, hvisible⟩ := ParseJob.run_opensTo (j := j) fun x hx =>
    absurd hx (Option.not_mem_none x)
  have heager : eager = { j.run with counts := { j.run.counts with assembled } } := heq
  have htree : o.tree = j.run.tree := rfl
  refine ⟨?_, ⟨j.run.counts.assembled, ?_⟩, fun d hd a ha hhidden => ?_⟩
  · rw [heager]
    rfl
  · rw [heager]
    rfl
  · have hshown := Composite.Visible.hides_of_mem hvisible hd
    generalize d.node = n at ha hshown ⊢
    cases n with
    | rule kind g b q before children =>
      obtain rfl := Option.some.inj ha
      rw [show j.table.hides (.rule kind g b q before children) =
        (j.table.nonterminal b).hidden from rfl] at hshown
      rw [show (p.language.table.nonterminal b).hidden = false from hshown] at hhidden
      cases hhidden
    | missing => rfl
    | leaf | trivia | skipped | error | root => cases ha

end LayeredSyntax
