/-
  NO REPAIR IS LOST — whatever was repaired can be seen in the tree.

  A repair puts a new node on the stack as the only head, with a missing node on its edge or with a
  gap below it.  From then on every way down from a head either stays among the nodes from that one
  on, or it comes over something faulty on its way out (`Stack.Barred`).

  1. Pieces are TORN when there is something faulty in one of them or a gap beside one of them
     (`Torn`), and what is assembled from torn pieces holds something faulty (`assemble_faulty`).
  2. The pieces of a way that crosses the bar are torn (`torn_of_mem_ways`), so a subtree over them
     is faulty, and **the bar stays closed while subtrees are put on** (`keptByPlacing_barred`).
  3. What is accepted stands on a node without edges, so it lies across the bar.

  That there is nothing faulty where nothing was repaired follows from what is derived.
-/
import LayeredSyntax.Proofs.Parse.Recording

namespace LayeredSyntax

namespace Node

variable {ns ms : List Node} {n : Node}

/-- Whether there is something faulty in one of several nodes. -/
def AnyFaulty (ns : List Node) : Prop := ∃ n ∈ ns, n.Faulty

theorem AnyFaulty.left (h : AnyFaulty ns) (ms : List Node) : AnyFaulty (ns ++ ms) := by
  obtain ⟨n, hn, hfault⟩ := h
  exact ⟨n, List.mem_append_left _ hn, hfault⟩

theorem AnyFaulty.right (ns : List Node) (h : AnyFaulty ms) : AnyFaulty (ns ++ ms) := by
  obtain ⟨n, hn, hfault⟩ := h
  exact ⟨n, List.mem_append_right _ hn, hfault⟩

theorem AnyFaulty.of_children (h : AnyFaulty n.children) : n.Faulty := by
  obtain ⟨c, hc, hfault⟩ := h
  exact .child hc hfault

/-- What is in a hidden node that is faulty. -/
theorem anyFaulty_of_hides {c : Composite} (hhides : c.hides n = true) (h : n.Faulty) :
    AnyFaulty n.children := by
  cases h with
  | self h =>
    cases n with
    | rule => rcases h with h | h <;> cases h
    | leaf | trivia | skipped | missing | error | root => cases hhides
  | child hc h => exact ⟨_, hc, h⟩

/-- **Opening hidden nodes loses nothing faulty.** -/
theorem AnyFaulty.showOnto (c : Composite) (out ns : List Node)
    (h : AnyFaulty (out.reverse ++ ns)) : AnyFaulty (c.showOnto out ns).reverse := by
  fun_induction Composite.showOnto c out ns with
  | case1 out => rwa [List.append_nil] at h
  | case2 out n rest hhides ih =>
    refine ih ?_
    obtain ⟨m, hm, hfault⟩ := h
    rcases List.mem_append.mp hm with hm | hm
    · exact ⟨m, List.mem_append_left _ hm, hfault⟩
    · rcases List.mem_cons.mp hm with rfl | hm
      · exact .right _ ((anyFaulty_of_hides hhides hfault).left rest)
      · exact ⟨m, List.mem_append_right _ (List.mem_append_right _ hm), hfault⟩
  | case3 out n rest _ ih =>
    rw [← List.singleton_append, ← List.append_assoc, ← List.reverse_cons] at h
    exact ih h

end Node

open Node

namespace ParseJob

variable {j : ParseJob} {regions : Regions} {low high first stop p q : Nat} {pieces : List Label}
  {opens : Bool}

/-! ## Torn pieces -/

/-- **Whether there is something faulty in some pieces, or a gap beside one of them**, from one
    position to another one. -/
def Torn (p high : Nat) : List Label → Prop
  | [] => p < high
  | piece :: rest => p < piece.first ∨ piece.node.Faulty ∨ Torn piece.stop high rest

theorem triviaOnto_faulty {out : List Node} (h : AnyFaulty out.reverse) (q : Nat) :
    AnyFaulty (j.triviaOnto q out).reverse := by
  rw [reverse_triviaOnto]
  exact h.left _

/-- **What fills a gap is faulty.** -/
theorem fillGap_faulty (hr : ∀ r ∈ regions, r.node.isRegion = true) (low first stop : Nat)
    (a : Assembled) : AnyFaulty (j.fillGap regions low first stop a).children := by
  obtain ⟨filling, hfilling, hchildren⟩ := exists_filling j regions low first stop
  have hregion : filling.isRegion = true := by
    obtain ⟨r, hmem, _, _, rfl⟩ | rfl := hfilling
    · exact hr r hmem
    · rfl
  rw [hchildren]
  exact ⟨filling, List.mem_append_right _ List.mem_cons_self, faulty_of_isRegion hregion⟩

/-- **Assembling torn pieces leaves something faulty.** -/
theorem assembleFrom_faulty (hr : ∀ r ∈ regions, r.node.isRegion = true) :
    ∀ {p : Nat} {a : Assembled}, j.Fits p high pieces → AnyFaulty a.children ∨ Torn p high pieces →
      AnyFaulty (j.assembleFrom regions opens low high p a pieces).children := by
  induction pieces with
  | nil =>
    intro p a _ h
    unfold assembleFrom
    split
    · exact fillGap_faulty hr low p high a
    · next hnot => exact h.resolve_right hnot
  | cons piece rest ih =>
    intro p a hfits h
    obtain ⟨hp, hpiece, _, hrest⟩ := hfits
    have hmax : max (max p piece.first) piece.stop = piece.stop := by omega
    unfold assembleFrom
    dsimp only
    rw [hmax]
    refine ih hrest ?_
    -- What is faulty was there before, is in the gap, is the piece, or comes later.
    have hfront : AnyFaulty (if p < piece.first then j.fillGap regions low p piece.first a
        else a).children ∨ piece.node.Faulty ∨ Torn piece.stop high rest := by
      by_cases hgap : p < piece.first
      · rw [if_pos hgap]
        exact .inl (fillGap_faulty hr low p piece.first a)
      · rw [if_neg hgap]
        exact h.imp_right fun h => h.resolve_left hgap
    generalize (if p < piece.first then j.fillGap regions low p piece.first a else a) = b
      at hfront ⊢
    rw [← or_assoc] at hfront
    refine hfront.imp_left fun hfault => ?_
    have hled : AnyFaulty ((if (decide (piece.first < piece.stop) &&
        decide (low < piece.first)) = true then j.triviaOnto piece.first b.reversed
          else b.reversed).reverse ++ [piece.node]) := by
      rcases hfault with hfault | hfault
      · refine AnyFaulty.left ?_ _
        split
        · exact triviaOnto_faulty hfault piece.first
        · exact hfault
      · exact .right _ ⟨_, List.mem_singleton.mpr rfl, hfault⟩
    unfold Assembled.children
    dsimp only
    split
    · exact hled.showOnto j.table.toComposite
    · rwa [List.reverse_cons]

theorem assemble_faulty (hr : ∀ r ∈ regions, r.node.isRegion = true)
    (hfits : j.Fits low high pieces) (h : Torn low high pieces) :
    AnyFaulty (j.assemble regions opens low high pieces).children :=
  assembleFrom_faulty hr hfits (.inr h)

/-- **A tree over torn pieces is faulty.** -/
theorem assembleRoot_faulty (hr : ∀ r ∈ regions, r.node.isRegion = true) (hpos : j.finish ≠ 0)
    (hfits : j.Fits 0 j.finish pieces) (h : Torn 0 j.finish pieces) :
    (j.assembleRoot regions pieces).1.Faulty := by
  refine AnyFaulty.of_children ?_
  unfold assembleRoot
  dsimp only
  rw [if_neg hpos]
  refine triviaOnto_faulty ?_ j.finish
  rw [List.reverse_append]
  exact .right _ (assemble_faulty hr hfits h)

/-- Whether pieces are torn from where the first one begins. -/
def TornFrom (high : Nat) (pieces : List Label) : Prop :=
  ∃ piece rest, pieces = piece :: rest ∧ Torn piece.first high pieces

/-- One more piece in front. -/
theorem TornFrom.cons (h : TornFrom high pieces) (piece : Label) :
    TornFrom high (piece :: pieces) := by
  obtain ⟨next, rest, rfl, htorn⟩ := h
  refine ⟨piece, next :: rest, rfl, .inr (.inr (.inr ?_))⟩
  exact htorn.resolve_left (Nat.lt_irrefl _)

/-- Torn pieces that end in front of the position are torn, or there is a gap behind them. -/
theorem Torn.of_last {last : Label} (h : Torn q p pieces) (hlast : pieces.getLast? = some last)
    (hgap : ¬ last.stop < p) : Torn q last.stop pieces := by
  induction pieces generalizing q with
  | nil => cases hlast
  | cons piece rest ih =>
    refine h.imp_right fun h => h.imp_right fun h => ?_
    cases rest with
    | nil =>
      obtain rfl : piece = last := Option.some.inj hlast
      exact absurd h hgap
    | cons next rest =>
      rw [List.getLast?_cons_cons] at hlast
      exact ih h hlast

end ParseJob

/-! ## The bar -/

/-- **Whether every way out of the nodes from a number on comes over something faulty**, or over a
    gap. -/
def Stack.Barred (k : Nat) (s : Stack) : Prop :=
  ∀ i e, k ≤ i → e ∈ s.edges i → k ≤ e.below ∨ e.label.node.Faulty ∨
    (s.face i).covered < (s.face i).position

namespace ParseJob

variable {j : ParseJob} {regions : Regions} {k p base c i b n : Nat} {s : Stack}
  {above pieces : List Label}

/-- **The pieces of a way across the bar are torn.** -/
theorem torn_of_mem_ways (hbar : s.Barred k) (hlinks : s.Edges j.Links)
    (h : (b, pieces) ∈ s.ways above i n)
    (hhere : TornFrom p above ∨ (k ≤ i ∧ ((above = [] ∧ (s.face i).position = p) ∨
      ∃ piece rest, above = piece :: rest ∧ piece.first = (s.face i).position))) :
    k ≤ b ∨ TornFrom p pieces := by
  induction n generalizing above i with
  | zero =>
    obtain ⟨rfl, rfl⟩ := Prod.mk.inj (List.mem_singleton.mp h)
    rcases hhere with htorn | ⟨hi, _⟩
    · exact .inr htorn
    · exact .inl hi
  | succ n ih =>
    obtain ⟨e, he, hway⟩ := Stack.mem_ways_succ.mp h
    have hlink := hlinks i e he
    refine ih hway ?_
    rcases hhere with htorn | ⟨hi, habove⟩
    · exact .inl (htorn.cons e.label)
    · rcases hbar i e hi he with hbelow | hfault | hgap
      · exact .inr ⟨hbelow, .inr ⟨e.label, above, rfl, hlink.first_eq.symm⟩⟩
      · exact .inl ⟨e.label, above, rfl, .inr (.inl hfault)⟩
      · -- Between the subtree and what is above it something was left out.
        rw [← hlink.reads.stop_eq] at hgap
        refine .inl ⟨e.label, above, rfl, .inr (.inr ?_)⟩
        rcases habove with ⟨rfl, hposition⟩ | ⟨piece, rest, rfl, hfirst⟩
        · rw [hposition] at hgap
          exact hgap
        · rw [← hfirst] at hgap
          exact .inl hgap

/-- **Finishing productions keeps the bar closed.** -/
theorem keptByPlacing_barred (hr : ∀ r ∈ regions, r.node.isRegion = true)
    (hE : j.ClosedUnder regions p c j.Links) (hk : k ≤ base) :
    j.KeptByPlacing regions p base c j.Links (Stack.Barred k)
      fun way => k ≤ way.1 ∨ TornFrom p way.2 where
  ways hok hbar hhead hway _ := by
    obtain ⟨hbase, hlt⟩ := hok.fresh.mem_heads.mp hhead
    refine torn_of_mem_ways hbar hok.edges hway (.inr ⟨Nat.le_trans hk hbase, .inl ⟨rfl, ?_⟩⟩)
    exact (hok.fresh.top _ hbase hlt).1
  place := by
    intro r q target way hok hbar hway hW hgoto
    obtain ⟨top, htrail, hposition, hcovered, hq⟩ := hway.trail
    obtain ⟨hstop, hlink⟩ := hE htrail hposition hcovered hq hway.length hgoto
    intro i e hi he
    rcases hok.fresh.mem_edges_placed hstop he with he | ⟨rfl, _, hface⟩
    · rw [Stack.face_placed (Stack.lt_of_mem_edges he)]
      exact hbar i e hi he
    · rcases hW with hbelow | ⟨piece, rest, hpieces, htorn⟩
      · exact .inl hbelow
      · -- The subtree over torn pieces is faulty, or the gap is above it.
        rw [hface]
        by_cases hgap : c < p
        · exact .inr (.inr hgap)
        · have hne : way.2 ≠ [] := by
            rw [hpieces]
            exact List.cons_ne_nil _ _
          obtain ⟨last, hlast⟩ := Option.isSome_iff_exists.mp (List.getLast?_isSome.mpr hne)
          have hend := stop_of_trail (htrail.mono Links.reads) hlast
          have hfits := fits_of_trail (htrail.mono Links.reads)
          have hhead : way.2.head? = some piece := by
            rw [hpieces]
            rfl
          refine .inr (.inl ?_)
          show (j.reduceLabel regions q (r.stack.face way.1).state way.2).1.node.Faulty
          rw [reduceLabel_eq hhead hlast]
          refine AnyFaulty.of_children (assemble_faulty hr ?_ (htorn.of_last hlast ?_))
          · rw [hpieces] at hfits ⊢
            rw [hend]
            exact ⟨Nat.le_refl _, hfits.2⟩
          · rw [hend, hcovered]
            exact hgap

end ParseJob

namespace Progress

variable {j : ParseJob} {s s' s₁ : Progress} {k : Nat}

/-- **Whether the bar is closed** below all heads. -/
structure Barred (k : Nat) (s : Progress) : Prop where
  heads : ∀ i ∈ s.stack.heads, k ≤ i
  ways : s.stack.Barred k
  /-- Where a way ends above the bar, there is a gap. -/
  ends : ∀ i, k ≤ i → i < s.stack.nodes.size → s.stack.edges i = [] →
    (s.stack.face i).covered < (s.stack.face i).position

theorem Barred.le_base {base p c : Nat} (h : s.Barred k) (hs : s.stack.Fresh base p c)
    (hne : s.stack.heads ≠ []) : k ≤ base := by
  obtain ⟨head, hhead⟩ := List.exists_mem_of_ne_nil _ hne
  obtain ⟨hbase, hlt⟩ := hs.mem_heads.mp hhead
  exact h.heads base (hs.mem_heads.mpr ⟨Nat.le_refl _, by omega⟩)

theorem Barred.reduceAll (h : s.Barred k) (hs : s.Filed j) (hj : j.Ready)
    (ht : j.table.Canonical) : (s.reduceAll j).Barred k := by
  obtain ⟨base, c, hfresh, hc⟩ := hs.sound.whole.stack
  have hE : j.ClosedUnder s.regions s.position c j.Links :=
    ParseJob.closed_links hj ht hs.sound.whole.regions hs.sound.whole.position_le hc
  obtain ⟨hfresh', _, hkept⟩ := ParseJob.reduceAll_fresh ht hE hfresh hs.sound.links
  have hk := h.le_base hfresh hs.sound.heads_ne_nil
  have hregions : ∀ r ∈ s.regions, r.node.isRegion = true := fun r hr => (hs.regions r hr).2.2
  refine ⟨fun i hi => Nat.le_trans hk (hfresh'.mem_heads.mp hi).1,
    ParseJob.reduceAll_rule (ParseJob.keptByPlacing_barred hregions hE hk) ht hE hfresh
      hs.sound.links h.ways, fun i hi hlt hnil => ?_⟩
  rcases Nat.lt_or_ge i s.stack.nodes.size with hold | hnew
  · rw [hkept.face i hold]
    refine h.ends i hi hold (Decidable.byContradiction fun hne => ?_)
    exact hkept.edges_ne_nil hne hnil
  · exact absurd hnil (hkept.new i hnew hlt)

theorem Barred.shift (h : s.Barred k) (hs : s.Filed j) (hj : j.Ready) (ht : j.table.Canonical) :
    (s.shift j).2.Barred k := by
  obtain ⟨base, c, hfresh, hc⟩ := hs.sound.whole.stack
  cases hreads : (s.shift j).1 with
  | false =>
    obtain ⟨marks, hsame⟩ := shift_of_false hreads
    rw [hsame]
    exact ⟨h.heads, h.ways, h.ends⟩
  | true =>
    have hne := position_ne_finish_of_shift hj ht hfresh.standing hreads
    have hlt := Nat.lt_of_le_of_ne hs.sound.whole.position_le hne
    have hE : j.ClosedUnderShift s.position c j.Links :=
      ParseJob.closedUnderShift_links hj ht hlt hc
    have hk : k ≤ s.stack.nodes.size :=
      Nat.le_trans (h.le_base hfresh hs.sound.heads_ne_nil) hfresh.base_le
    rcases ParseJob.shift_spec hE hfresh.standing hs.sound.links with
      ⟨hfalse, _⟩ | ⟨_, _, _, hfresh', _, hold, hnew, _⟩
    · rw [hreads] at hfalse
      cases hfalse
    · have hways : (s.shift j).2.stack.Barred k := by
        refine ParseJob.shift_rule hE hfresh hs.sound.links (fun hok hbar hhead => ?_) h.ways hreads
        -- A leaf is put on a head, which is above the bar.
        intro i e hi he
        rcases hok.fresh.mem_edges_placed rfl he with he | ⟨rfl, _, _⟩
        · rw [Stack.face_placed (Stack.lt_of_mem_edges he)]
          exact hbar i e hi he
        · exact .inl (h.heads _ hhead)
      refine ⟨fun i hi => Nat.le_trans hk (hfresh'.mem_heads.mp hi).1, hways,
        fun i hi hilt hnil => ?_⟩
      rcases Nat.lt_or_ge i s.stack.nodes.size with hi' | hi'
      · have hface : (s.shift j).2.stack.face i = s.stack.face i :=
          congrArg StackNode.face (hold i hi')
        have hsame : (s.shift j).2.stack.edges i = s.stack.edges i :=
          congrArg StackNode.edges (hold i hi')
        rw [hface]
        exact h.ends i hi hi' (hsame ▸ hnil)
      · exact absurd hnil (hnew i hi' hilt)

/-- **A node that is put on as the only head bars the way**, if it has a gap below it or only faulty
    edges. -/
theorem barred_pushOnly {n : StackNode} (hstack : s'.stack = s.stack.pushOnly n)
    (hn : n.covered < n.position ∨ (n.edges ≠ [] ∧ ∀ e ∈ n.edges, e.label.node.Faulty)) :
    s'.Barred s.stack.nodes.size := by
  have hsize : (s.stack.pushOnly n).nodes.size = s.stack.nodes.size + 1 := Array.size_push _
  have hself : (s.stack.pushOnly n).node s.stack.nodes.size = n :=
    Stack.node_pushOnly_self s.stack n
  refine ⟨fun i hi => ?_, fun i e hi he => ?_, fun i hi hlt hnil => ?_⟩
  · rw [hstack] at hi
    exact Nat.le_of_eq (List.mem_singleton.mp hi).symm
  · rw [hstack] at he ⊢
    obtain rfl : i = s.stack.nodes.size := by
      have hlt := Stack.lt_of_mem_edges he
      omega
    unfold Stack.edges at he
    unfold Stack.face
    rw [hself] at he ⊢
    rcases hn with hgap | ⟨_, hfaulty⟩
    · exact .inr (.inr hgap)
    · exact .inr (.inl (hfaulty e he))
  · rw [hstack] at hlt hnil ⊢
    obtain rfl : i = s.stack.nodes.size := by omega
    unfold Stack.edges at hnil
    unfold Stack.face
    rw [hself] at hnil ⊢
    rcases hn with hgap | ⟨hne, _⟩
    · exact hgap
    · exact absurd hnil hne

variable [Limits]

theorem barred_insert (j : ParseJob) (s : Progress) (i : Insertion) :
    (s.insert j i).Barred s.stack.nodes.size := by
  refine barred_pushOnly (insert_spec j s i).1 (.inr ⟨List.cons_ne_nil _ _, fun e he => ?_⟩)
  obtain rfl := List.mem_singleton.mp he
  exact faulty_of_isMissing rfl

theorem barred_skip (h : s.Filed j) (hskip : s.skip? j = some s') :
    s'.Barred s.stack.nodes.size := by
  obtain ⟨q, popped, k, rest, cause, hlt, _, hchain, hstack, _⟩ := skip_spec hskip
  obtain ⟨_, hcovered, _⟩ := h.of_chain hchain
  exact barred_pushOnly hstack (.inl (Nat.lt_of_le_of_lt hcovered hlt))

omit [Limits] in
/-- **What is accepted lies across the bar.** -/
theorem Barred.accepted (h : s.Barred k) (hs : s.Filed j) (ht : j.table.Canonical)
    (hfinish : s.position = j.finish) {label : Label} (haccepted : s.accepted? j = some label) :
    j.Fits 0 j.finish [label] ∧ ParseJob.Torn 0 j.finish [label] := by
  obtain ⟨base, c, hfresh, hc⟩ := hs.sound.whole.stack
  obtain ⟨head, hhead, e, he, rfl, haccept⟩ := exists_of_accepted? haccepted
  obtain ⟨hbase, hlt⟩ := hfresh.mem_heads.mp hhead
  obtain ⟨hp, hcov⟩ := hfresh.top head hbase hlt
  have hlink := hs.sound.links head e he
  have hstop := hlink.reads.stop_eq
  refine ⟨⟨Nat.zero_le _, hlink.reads.first_le, hlink.reads.reads, hlink.stop_le⟩, ?_⟩
  rcases h.ways head e (h.heads head hhead) he with hbelow | hfault | hgap
  · -- The way ends above the bar, so there is a gap in front of what is accepted.
    have hdown := (hfresh.down head e he).1
    have hnil := edges_eq_nil_of_accept ht hs.sound.links he haccept
    have hend := h.ends e.below hbelow (by omega) hnil
    have hfirst := hlink.first_eq
    exact .inl (by omega)
  · exact .inr (.inl hfault)
  · refine .inr (.inr ?_)
    show e.label.stop < j.finish
    omega

/-! ## From turn to turn -/

/-- What is kept from turn to turn: nothing was repaired, or the bar is closed. -/
def Repaired (j : ParseJob) (log : TurnLog) (s : Progress) : Prop :=
  Recorded j log s ∧ (s.repairCount = 0 ∨ ∃ k, s.Barred k)

theorem Repaired.goOn {log : TurnLog} (h : Repaired j log s) (hj : j.Ready)
    (ht : j.table.Canonical) (hreuse : j.reuse = none) {d : Deed} (hd : Step j s d (.goOn s')) :
    Repaired j (log ++ [(s, d)]) s' := by
  obtain ⟨hrec, hrepaired⟩ := h
  refine ⟨hrec.goOn hj ht hreuse hd, ?_⟩
  have hsettle : s.settle j = s.reduceAll j := settle_of_plain hrec.plain
  cases hd with
  | takeOver _ htake =>
    rw [takeOver?_of_reuse hreuse] at htake
    cases htake
  | read _ _ _ =>
    rw [hsettle, repairCount_shift]
    refine hrepaired.imp_right fun ⟨k, hbar⟩ => ⟨k, ?_⟩
    exact (hbar.reduceAll hrec.filed hj ht).shift (hrec.filed.reduceAll hj ht) hj ht
  | giveBack hhalts hback =>
    obtain ⟨_, hcheck, _⟩ := hrec.halts hj ht hhalts
    obtain ⟨c, hc, _⟩ := giveBack_spec hback
    rw [hcheck] at hc
    cases hc
  | insert => exact .inr ⟨_, barred_insert j _ _⟩
  | @skip s₁ _ hhalts _ _ hskip _ =>
    obtain ⟨hfiled, _, _⟩ := hrec.halts hj ht hhalts
    have hcounted : s₁.givenUp.counted.Filed j := hfiled.congr rfl rfl rfl
    exact .inr ⟨_, barred_skip hcounted hskip⟩

/-- **When a parse that was repaired is over, its tree is faulty.** -/
theorem Repaired.over {log : TurnLog} {r : ParseRun} (h : Repaired j log s) (hj : j.Ready)
    (ht : j.table.Canonical) (hpos : j.finish ≠ 0) {d : Deed} (hd : Step j s d (.over r)) :
    r.counts.repairs = 0 ∨ r.tree.Faulty := by
  obtain ⟨hrec, hrepaired⟩ := h
  have hsettle : s.settle j = s.reduceAll j := settle_of_plain hrec.plain
  cases hd with
  | accept hfinish haccepted =>
    rw [hsettle] at haccepted ⊢
    refine hrepaired.imp_right fun ⟨k, hbar⟩ => ?_
    have hfiled := hrec.filed.reduceAll hj ht
    obtain ⟨hfits, htorn⟩ :=
      (hbar.reduceAll hrec.filed hj ht).accepted hfiled ht hfinish haccepted
    exact ParseJob.assembleRoot_faulty (fun r hr => (hfiled.regions r hr).2.2) hpos hfits htorn
  | @wrap s₁ s' hhalts _ hrepair =>
    obtain ⟨hfiled, _, _⟩ := hrec.halts hj ht hhalts
    obtain ⟨events, cause, rfl⟩ := eq_wrap_of_repair hrepair
    have hcounted : ({ s₁.givenUp.counted with events } : Progress).Filed j :=
      hfiled.congr rfl rfl rfl
    obtain ⟨_, hbehind, _⟩ := hcounted.wrap hj hpos cause
    -- Nothing at all is accepted, so the whole text is a gap.
    refine .inr (ParseJob.assembleRoot_faulty (fun r hr => (hbehind r hr).2.2) hpos ?_ ?_)
    · exact Nat.zero_le _
    · exact Nat.pos_of_ne_zero hpos

end Progress

/-- **The tree of a parse that was repaired is faulty.** -/
theorem ParseJob.run_faulty [Limits] {j : ParseJob} {entry : Entry} {log : TurnLog} (hj : j.Ready)
    (ht : j.table.Canonical) (hreuse : j.reuse = none) (hpos : j.finish ≠ 0)
    (hturns : (j.entered entry.state).Turns j log j.run) (hrepairs : j.run.counts.repairs ≠ 0) :
    j.run.tree.Faulty := by
  have hrun : j.run.counts.repairs = 0 ∨ j.run.tree.Faulty := by
    refine hturns.rule (P := Progress.Repaired j) (Q := fun _ r => r.counts.repairs = 0 ∨
      r.tree.Faulty) (fun h hd => h.goOn hj ht hreuse hd) (fun h hd => h.over hj ht hpos hd) [] ?_
    exact ⟨⟨entered_plain j entry.state, Progress.entered_filed j entry.state, .nil⟩, .inl rfl⟩
  exact hrun.resolve_left hrepairs

end LayeredSyntax
