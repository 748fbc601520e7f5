/-
  WHAT STAYS FILED — the regions of a parse, from one repair to the next.

  What is kept by everything that a parse does is `Progress.Filed`: the regions in all subtrees that
  still count are filed, every region ends in front of the position, and whatever has no edges is
  covered up to the beginning of the text only.

  **The crux** is skipping (`Filed.skip`): the region that is left behind is filed at the position
  up to which the node that is kept is covered.  All that was above it ends behind that position and
  in front of the one that is skipped to, inside of the new region, and is given up.
-/
import LayeredSyntax.Proofs.Parse.Deriving
import LayeredSyntax.Proofs.Parse.Filing

namespace LayeredSyntax

open Node ParseJob

namespace Stack

/-- The node that is put on top. -/
theorem node_pushOnly_self (s : Stack) (n : StackNode) : (s.pushOnly n).node s.nodes.size = n :=
  node_push_self s n

/-- A node of a stack with one more node on top. -/
theorem pushOnly_cases {s : Stack} {n : StackNode} {i : Nat}
    (h : i < (s.pushOnly n).nodes.size) :
    (i = s.nodes.size ∧ (s.pushOnly n).face i = n.face ∧
      (s.pushOnly n).edges i = n.edges) ∨
    (i < s.nodes.size ∧ (s.pushOnly n).face i = s.face i ∧
      (s.pushOnly n).edges i = s.edges i) := by
  have hsize : (s.pushOnly n).nodes.size = s.nodes.size + 1 := Array.size_push _
  by_cases hi : i = s.nodes.size
  · subst hi
    have hself : (s.pushOnly n).node s.nodes.size = n := node_push_self s n
    exact .inl ⟨rfl, congrArg StackNode.face hself, congrArg StackNode.edges hself⟩
  · have hold : (s.pushOnly n).node i = s.node i := node_push_of_ne hi
    exact .inr ⟨by omega, congrArg StackNode.face hold, congrArg StackNode.edges hold⟩

end Stack

namespace Progress

variable {j : ParseJob} {s s' : Progress}

/-- **What is kept of the regions left behind.** -/
structure Filed (j : ParseJob) (s : Progress) : Prop where
  sound : s.Sound j
  edges : s.stack.Edges (FiledBetween s.regions)
  heads : ∀ i ∈ s.stack.heads, s.regions.Outside (s.stack.face i).covered
  regions : RegionsBehind s.regions s.position
  position_le : ∀ i < s.stack.nodes.size, (s.stack.face i).position ≤ s.position
  grounded : ∀ i < s.stack.nodes.size, s.stack.edges i = [] → (s.stack.face i).covered = 0

/-- It is all about the stack, the regions and the position. -/
theorem Filed.congr (h : s.Filed j) (hstack : s'.stack = s.stack)
    (hregions : s'.regions = s.regions) (hposition : s'.position = s.position) : s'.Filed j := by
  obtain ⟨⟨⟨hfresh, hreads, hall, hle⟩, hne, hlinks, hfilled⟩, hedges, hheads, hbehind, hnodes,
    hground⟩ := h
  rw [← hstack] at hfresh hreads hne hlinks hfilled hedges hheads hnodes hground
  rw [← hregions] at hall hfilled hedges hheads hbehind
  rw [← hposition] at hfresh hle hbehind hnodes
  exact ⟨⟨⟨hfresh, hreads, hall, hle⟩, hne, hlinks, hfilled⟩, hedges, hheads, hbehind, hnodes,
    hground⟩

theorem Filed.links (h : s.Filed j) : s.stack.Edges (j.FiledLinks s.regions) :=
  fun i e he => ⟨h.sound.links i e he, h.edges i e he⟩

/-- The gap of the heads is filled, and nothing that they stand on was given up. -/
theorem Filed.top (h : s.Filed j) : ∃ base c, s.stack.Fresh base s.position c ∧ c ≤ s.position ∧
    s.regions.Outside c ∧ s.regions.Fills c s.position := by
  obtain ⟨base, c, hfresh, hc⟩ := h.sound.whole.stack
  obtain ⟨head, hhead⟩ := List.exists_mem_of_ne_nil _ h.sound.heads_ne_nil
  obtain ⟨hbase, hlt⟩ := hfresh.mem_heads.mp hhead
  obtain ⟨hp, hcov⟩ := hfresh.top head hbase hlt
  have hout := h.heads head hhead
  have hfills : s.regions.Fills (s.stack.face head).covered (s.stack.face head).position :=
    h.sound.filled head (Stack.live_of_mem_heads hhead)
  rw [hcov] at hout hfills
  rw [hp] at hfills
  exact ⟨base, c, hfresh, hc, hout, hfills⟩

theorem entered_filed (j : ParseJob) (state : Nat) : (j.entered state).Filed j := by
  have hfresh := entered_fresh j state
  refine ⟨entered_sound j state, entered_edges j state, fun i _ r hr => absurd hr List.not_mem_nil,
    fun r hr => absurd hr List.not_mem_nil, fun i hi => ?_, fun i hi _ => ?_⟩
  · exact Nat.le_of_eq (hfresh.top i (Nat.zero_le i) hi).1
  · exact (hfresh.top i (Nat.zero_le i) hi).2

/-! ## What is accepted -/

/-- The symbol of a subtree leads from the state below to the state above. -/
theorem leads_of_links (ht : j.table.Canonical) {above below : Face} {label : Label}
    (h : j.Links above below label) : ∃ x, j.table.Leads below.state x above.state := by
  obtain ⟨x, _, hbehind⟩ := h.symbol
  refine ⟨x, ?_⟩
  cases x with
  | n a => exact ht.goto hbehind
  | t terminal =>
    unfold stateBehind? at hbehind
    dsimp only at hbehind
    split at hbehind
    · cases hbehind
    · obtain ⟨action, haction, hfound⟩ := List.exists_of_findSome?_eq_some hbehind
      cases action with
      | shift target =>
        obtain rfl : target = above.state := Option.some.inj hfound
        exact ht.shift haction
      | reduce q => cases hfound
      | accept => cases hfound

/-- **What is accepted stands on a node without edges.** -/
theorem edges_eq_nil_of_accept (ht : j.table.Canonical) {stack : Stack}
    (hlinks : stack.Edges j.Links) {i : Nat} {e : Edge} (he : e ∈ stack.edges i)
    (haccept : .accept ∈ j.table.actionsAt (stack.face i).state endOfText) :
    stack.edges e.below = [] := by
  obtain ⟨x, hleads⟩ := leads_of_links ht (hlinks i e he)
  obtain ⟨r, hr, kernel, hkernel, hmem, _⟩ := root_begun_below ht hleads haccept
  refine List.eq_nil_iff_forall_not_mem.mpr fun e' he' => ?_
  obtain ⟨x', hleads'⟩ := leads_of_links ht (hlinks e.below e' he')
  exact not_leads_of_begun ht hr hkernel hmem hleads'

/-- **What is accepted fits into the whole text**, with the gaps in front of it and behind it. -/
theorem Filed.accepted (h : s.Filed j) (ht : j.table.Canonical) (hfinish : s.position = j.finish)
    {label : Label} (haccepted : s.accepted? j = some label) : label.stop ≤ j.finish ∧
      Laid s.regions 0 label.stop [label] ∧ s.regions.Fills label.stop j.finish := by
  obtain ⟨base, c, hfresh, hc, hout, hfills⟩ := h.top
  obtain ⟨head, hhead, e, he, rfl, haccept⟩ := exists_of_accepted? haccepted
  obtain ⟨hbase, hlt⟩ := hfresh.mem_heads.mp hhead
  have hlink := h.sound.links head e he
  have hstop : e.label.stop = c := hlink.reads.stop_eq.trans (hfresh.top head hbase hlt).2
  obtain ⟨_, hbelow, hfiles⟩ := h.edges head e he (h.heads head hhead)
  -- In front of what is accepted there is the beginning of the text.
  have hnil := edges_eq_nil_of_accept ht h.sound.links he haccept
  have hdown := (hfresh.down head e he).1
  rw [h.grounded e.below (by omega) hnil, hlink.first_eq] at hbelow
  rw [← hfinish, hstop]
  refine ⟨hc, ⟨Nat.zero_le _, ?_, hbelow, hfiles, hstop⟩, hfills⟩
  exact hlink.reads.first_le

/-! ## Finishing and reading -/

theorem Filed.reduceAll (h : s.Filed j) (hj : j.Ready) (ht : j.table.Canonical) :
    (s.reduceAll j).Filed j := by
  obtain ⟨base, c, hfresh, hc, hout, hfills⟩ := h.top
  have hE : j.ClosedUnder s.regions s.position c (j.FiledLinks s.regions) :=
    closed_filedLinks hj ht h.sound.whole.regions h.sound.whole.position_le hc hout hfills
  obtain ⟨hfresh', hedges, hkept⟩ := reduceAll_fresh ht hE hfresh h.links
  refine ⟨h.sound.reduceAll hj ht, fun i e he => (hedges i e he).2, fun i hi => ?_, h.regions,
    fun i hi => ?_, fun i hi hnil => ?_⟩
  · obtain ⟨hbase, hlt⟩ := hfresh'.mem_heads.mp hi
    show s.regions.Outside _
    rw [(hfresh'.top i hbase hlt).2]
    exact hout
  · rcases Nat.lt_or_ge i s.stack.nodes.size with hold | hnew
    · rw [hkept.face i hold]
      exact h.position_le i hold
    · exact Nat.le_of_eq (hfresh'.top i (Nat.le_trans hfresh.base_le hnew) hi).1
  · rcases Nat.lt_or_ge i s.stack.nodes.size with hold | hnew
    · rw [hkept.face i hold]
      refine h.grounded i hold (Decidable.byContradiction fun hne => ?_)
      exact hkept.edges_ne_nil hne hnil
    · exact absurd hnil (hkept.new i hnew hi)

theorem Filed.shift (h : s.Filed j) (hj : j.Ready) (ht : j.table.Canonical) :
    (s.shift j).2.Filed j := by
  obtain ⟨base, c, hfresh, hc, hout, hfills⟩ := h.top
  cases hreads : (s.shift j).1 with
  | false =>
    obtain ⟨marks, hsame⟩ := shift_of_false hreads
    rw [hsame]
    exact h.congr rfl rfl rfl
  | true =>
    have hne := position_ne_finish_of_shift hj ht hfresh.standing hreads
    have hlt := Nat.lt_of_le_of_ne h.sound.whole.position_le hne
    have hE : j.ClosedUnderShift s.position c (j.FiledLinks s.regions) :=
      closedUnderShift_filedLinks hj ht hlt hc hout hfills
    rcases shift_spec hE hfresh.standing h.links with
      ⟨hfalse, _⟩ | ⟨_, _, hposition, hfresh', hedges, hold, hnew, _⟩
    · rw [hreads] at hfalse
      cases hfalse
    · refine ⟨h.sound.shift hj ht, ?_, fun i hi => ?_, ?_, fun i hi => ?_, fun i hi hnil => ?_⟩
      · rw [regions_shift]
        exact fun i e he => (hedges i e he).2
      · -- Everything left behind ends in front of the token.
        obtain ⟨hbase, hilt⟩ := hfresh'.mem_heads.mp hi
        rw [regions_shift, (hfresh'.top i hbase hilt).2]
        exact fun r hr => .inr (Nat.le_succ_of_le (h.regions r hr).2.1)
      · rw [regions_shift, hposition]
        intro r hr
        obtain ⟨hr₁, hr₂, hr₃⟩ := h.regions r hr
        exact ⟨hr₁, Nat.le_succ_of_le hr₂, hr₃⟩
      · rw [hposition]
        rcases Nat.lt_or_ge i s.stack.nodes.size with hlt | hge
        · have hface : (s.shift j).2.stack.face i = s.stack.face i :=
            congrArg StackNode.face (hold i hlt)
          rw [hface]
          exact Nat.le_succ_of_le (h.position_le i hlt)
        · exact Nat.le_of_eq (hfresh'.top i hge hi).1
      · rcases Nat.lt_or_ge i s.stack.nodes.size with hlt | hge
        · have hface : (s.shift j).2.stack.face i = s.stack.face i :=
            congrArg StackNode.face (hold i hlt)
          have hsame : (s.shift j).2.stack.edges i = s.stack.edges i :=
            congrArg StackNode.edges (hold i hlt)
          rw [hface]
          exact h.grounded i hlt (hsame ▸ hnil)
        · exact absurd hnil (hnew i hge hi)

/-! ## Repairs -/

/-- **A node that is put on as the only head keeps what is kept**, if what was filed between the nodes
    below still is, and what is between them and the new one as well. -/
theorem Filed.pushOnly (h : s.Filed j) (hsound : s'.Sound j) {n : StackNode}
    (hstack : s'.stack = s.stack.pushOnly n) (hposition : n.position = s'.position)
    (hle : s.position ≤ s'.position) (hregions : RegionsBehind s'.regions s'.position)
    (hout : s'.regions.Outside n.covered) (hold : s.stack.Edges (FiledBetween s'.regions))
    (hnew : ∀ e ∈ n.edges, e.below < s.stack.nodes.size ∧
      FiledBetween s'.regions n.face (s.stack.face e.below) e.label)
    (hground : n.edges = [] → n.covered = 0) : s'.Filed j := by
  obtain ⟨base, c, hfresh, _⟩ := h.top
  refine ⟨hsound, ?_, fun i hi => ?_, hregions, fun i hi => ?_, fun i hi hnil => ?_⟩
  · rw [hstack]
    exact hold.pushOnly hfresh.standing hnew
  · rw [hstack] at hi ⊢
    obtain rfl := List.mem_singleton.mp hi
    unfold Stack.face
    rw [Stack.node_pushOnly_self]
    exact hout
  · rw [hstack] at hi ⊢
    rcases Stack.pushOnly_cases hi with ⟨_, hface, _⟩ | ⟨hlt, hface, _⟩
    · rw [hface]
      exact Nat.le_of_eq hposition
    · rw [hface]
      exact Nat.le_trans (h.position_le i hlt) hle
  · rw [hstack] at hi hnil ⊢
    rcases Stack.pushOnly_cases hi with ⟨_, hface, hedges⟩ | ⟨hlt, hface, hedges⟩
    · rw [hface]
      exact hground (hedges ▸ hnil)
    · rw [hface]
      exact h.grounded i hlt (hedges ▸ hnil)

theorem Filed.insert [Limits] (h : s.Filed j) {i : Insertion}
    (hi : i ∈ j.insertions s.stack s.position) :
    (s.insert j i).Filed j := by
  obtain ⟨base, c, hfresh, hc, hout, hfills⟩ := h.top
  obtain ⟨hstack, hposition, hregions, _⟩ := insert_spec j s i
  obtain ⟨hhead, _⟩ := insertions_spec hi
  obtain ⟨hbase, hlt⟩ := hfresh.mem_heads.mp hhead
  obtain ⟨hp, hcov⟩ := hfresh.top _ hbase hlt
  -- The missing node covers nothing and has no regions in it.
  have hmissing : s.regions.Files s.position s.position
      [.missing (j.insertedKind i.symbol) i.grammar i.symbol] := by
    refine Regions.files_childless rfl rfl ?_
    unfold Node.tokenCount
    rw [Node.measure_missing]
    rfl
  refine h.pushOnly (h.sound.insert hi) hstack hposition.symm (Nat.le_of_eq hposition.symm) ?_ ?_ ?_
    (fun e he => ?_) fun hnil => absurd hnil (List.cons_ne_nil _ _)
  · rw [hregions, hposition]
    exact h.regions
  · -- The new head is covered up to the position.
    rw [hregions]
    exact fun r hr => .inr (h.regions r hr).2.1
  · rw [hregions]
    exact h.edges
  · obtain rfl := List.mem_singleton.mp he
    rw [hregions]
    refine ⟨hlt, fun _ => ?_⟩
    show s.regions.Outside (s.stack.face i.head).covered ∧
      s.regions.Fills (s.stack.face i.head).covered (s.stack.face i.head).position ∧ _
    rw [hcov, hp]
    exact ⟨hout, hfills, hmissing⟩

/-- Whatever is on the first way down has not been given up. -/
theorem Filed.of_chain (h : s.Filed j) {popped rest : List Nat} {k : Nat}
    (hchain : s.stack.chain = popped ++ k :: rest) :
    s.regions.Outside (s.stack.face k).covered ∧ (s.stack.face k).covered ≤ s.position ∧
      k < s.stack.nodes.size := by
  obtain ⟨base, c, hfresh, hc, hout, hfills⟩ := h.top
  obtain ⟨head, hhead, htrail⟩ := trail_of_chain h.links hchain
  obtain ⟨hbase, hlt⟩ := hfresh.mem_heads.mp hhead
  obtain ⟨hp, hcov⟩ := hfresh.top head hbase hlt
  rw [← hcov] at hout hfills
  rw [← hp] at hfills
  obtain ⟨houtk, _, hlaid⟩ := laid_of_trail htrail hout hfills
  have hle := hlaid.le
  obtain ⟨top, htop, n, hpath⟩ := Stack.live_of_mem_chain (s := s.stack) (i := k)
    (by rw [hchain]; exact List.mem_append_right _ List.mem_cons_self)
  have htoplt := (hfresh.mem_heads.mp htop).2
  have hkle := hfresh.path_le hpath
  exact ⟨houtk, by omega, by omega⟩

theorem Filed.skip [Limits] (h : s.Filed j) (hj : j.Ready) (hskip : s.skip? j = some s') :
    s'.Filed j := by
  obtain ⟨base, c, hfresh, _⟩ := h.top
  obtain ⟨q, popped, k, rest, cause, hlt, hq, hchain, hstack, hposition, _, _, _, hregions⟩ :=
    skip_spec hskip
  obtain ⟨houtk, hcovered, hklt⟩ := h.of_chain hchain
  obtain ⟨new, hleft, hfirst, hstop, hregion⟩ : ∃ new : Region, s'.regions = new :: s.regions ∧
      new.first = (s.stack.face k).covered ∧ new.stop = q ∧ new.node.isRegion = true :=
    ⟨_, hregions, rfl, rfl, rfl⟩
  have hleave : ∀ {i e}, e ∈ s.stack.edges i → (s.stack.face i).covered ≤ new.first →
      FiledBetween s'.regions (s.stack.face i) (s.stack.face e.below) e.label := by
    intro i e he hle
    rw [hleft]
    exact (h.edges i e he).leave hj h.sound.whole.regions h.regions h.sound.whole.position_le
      (h.sound.links i e he) hle
  refine h.pushOnly (h.sound.skip hj hskip) hstack hposition.symm (by omega) ?_ ?_ ?_
    (fun e he => ?_) (h.grounded k hklt)
  · rw [hleft, hposition]
    intro r hr
    rcases List.mem_cons.mp hr with rfl | hr
    · exact ⟨by omega, Nat.le_of_eq hstop, hregion⟩
    · obtain ⟨hr₁, hr₂, hr₃⟩ := h.regions r hr
      exact ⟨hr₁, by omega, hr₃⟩
  · rw [hleft]
    intro r hr
    rcases List.mem_cons.mp hr with rfl | hr
    · exact .inl (Nat.le_of_eq hfirst.symm)
    · exact houtk r hr
  · intro i e he hout
    -- What ends behind the kept node ends inside of the new region.
    have hnew := hout new (by rw [hleft]; exact List.mem_cons_self)
    have habove := (h.sound.links i e he).above_covered
    have hle := h.position_le i (Stack.lt_of_mem_edges he)
    exact hleave he (by omega) hout
  · have hdown := (hfresh.down k e he).1
    exact ⟨by omega, hleave he (Nat.le_of_eq hfirst.symm)⟩

end Progress

end LayeredSyntax
