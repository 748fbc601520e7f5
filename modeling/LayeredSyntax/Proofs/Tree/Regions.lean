/-
  REGIONS OF A TREE — where something is wrong in it.

  A node is FAULTY when it is an error region or a missing node, or when there is one below it
  (`Node.Faulty`).  Only the OUTERMOST faults speak for themselves (`Place.faults`); what is inside
  of a region belongs to it.

  An outermost region of a row of nodes is known by what of the row is in front of it: how many
  tokens and how many bytes (`OutermostIn`).  Rows are put together node by node and hidden nodes
  are opened, and the outermost regions stay where they are (`outermostIn_append`,
  `outermostIn_showOnto`).

  **Both counts say the same**: a region behind `t` tokens begins with the token number `t`
  (`Table.Reads.start_of_outermostIn`), so that a region can be found by a position among the tokens
  as well as by the byte at which it begins.
-/
import LayeredSyntax.Proofs.Tree.Derivations

namespace LayeredSyntax

theorem Measure.hasError_sum (ms : List Measure) :
    (Measure.sum ms).hasError = ms.any Measure.hasError := by
  have hfold : ∀ (ms : List Measure) (m : Measure),
      (ms.foldl add m).hasError = (m.hasError || ms.any Measure.hasError) := by
    intro ms
    induction ms with
    | nil => exact fun m => (Bool.or_false _).symm
    | cons a ms ih =>
      intro m
      rw [List.foldl_cons, ih, List.any_cons, ← Bool.or_assoc]
      rfl
  exact hfold ms zero

namespace Node

/-- Whether the node is an error region. -/
def isRegion : Node → Bool
  | error _ => true
  | _ => false

/-! ## Faulty nodes -/

/-- **Whether there is an error region or a missing node** anywhere in a node. -/
inductive Faulty : Node → Prop where
  | self {n : Node} (h : n.isRegion = true ∨ n.isMissing = true) : Faulty n
  | child {n c : Node} (hc : c ∈ n.children) (h : Faulty c) : Faulty n

theorem faulty_of_isRegion {n : Node} (h : n.isRegion = true) : n.Faulty := .self (.inl h)

theorem faulty_of_isMissing {n : Node} (h : n.isMissing = true) : n.Faulty := .self (.inr h)

/-- There is an error in a node that is faulty. -/
theorem Faulty.hasError {n : Node} (h : n.Faulty) : n.hasError = true := by
  have hsum : ∀ {cs : List Node} {c : Node}, c ∈ cs → c.hasError = true →
      (Measure.sum (cs.map measure)).hasError = true := by
    intro cs c hc h
    rw [Measure.hasError_sum, List.any_map]
    exact List.any_eq_true.mpr ⟨c, hc, h⟩
  unfold Node.hasError
  induction h with
  | @self n h =>
    cases n with
    | leaf | trivia | skipped | rule | root => rcases h with h | h <;> cases h
    | missing =>
      rw [measure_missing]
    | error cs =>
      rw [measure]
      exact Bool.or_true _
  | @child n c hc _ ih =>
    cases n with
    | leaf | trivia | skipped | missing => exact absurd hc List.not_mem_nil
    | rule | root =>
      rw [measure, attach_measure]
      exact hsum hc ih
    | error cs =>
      rw [measure]
      exact Bool.or_true _

/-- There is nothing faulty in a clean node. -/
theorem Clean.not_faulty {n : Node} (h : n.Clean) : ¬ n.Faulty := by
  induction h with
  | @intro n herror _ ih =>
    intro hfault
    cases hfault with
    | self h =>
      cases n with
      | leaf | trivia | skipped | rule | root => rcases h with h | h <;> cases h
      | missing | error => cases herror
    | child hc h => exact ih _ hc h

end Node

namespace Place

/-- Every node directly below has its place. -/
theorem exists_of_mem_childrenFrom {p : Place} {c : Node} {ns : List Node} (h : c ∈ ns) :
    ∀ start index, ∃ d ∈ p.childrenFrom start index ns, d.node = c := by
  induction ns with
  | nil => exact absurd h List.not_mem_nil
  | cons n ns ih =>
    intro start index
    rcases List.mem_cons.mp h with rfl | h
    · exact ⟨_, List.mem_cons_self, rfl⟩
    · obtain ⟨d, hd, hnode⟩ := ih h (start + n.size) (index + 1)
      exact ⟨d, List.mem_cons_of_mem _ hd, hnode⟩

/-- **A node is faulty if there is a place in it** with an error region or a missing node. -/
theorem faulty_iff (p : Place) : p.node.Faulty ↔
    ∃ d ∈ p.descendants, d.node.isRegion = true ∨ d.node.isMissing = true := by
  constructor
  · intro h
    generalize hn : p.node = n at h
    induction h generalizing p with
    | self h =>
      exact ⟨p, p.self_mem_descendants, hn ▸ h⟩
    | @child n c hc _ ih =>
      rw [← hn] at hc
      obtain ⟨d, hd, hnode⟩ := exists_of_mem_childrenFrom (p := p) hc p.start 0
      obtain ⟨e, he, hfault⟩ := ih d hnode
      exact ⟨e, mem_descendants.mpr (.inr ⟨d, hd, he⟩), hfault⟩
  · rintro ⟨d, hd, hfault⟩
    induction hd using descendantInduction with
    | self => exact .self hfault
    | up hc _ ih => exact .child (node_mem_of_mem_children hc) ih

/-! ## Outermost regions -/

/-- **The outermost faulty nodes**, from left to right: error regions, and what is missing outside
    of them. -/
def faults (p : Place) : List Place :=
  if p.node.isRegion || p.node.isMissing then [p]
  else p.children.attach.flatMap fun ⟨c, _⟩ => c.faults
termination_by sizeOf p.node
decreasing_by exact sizeOf_lt_of_mem_children ‹_›

/-- **The outermost error regions.** -/
def regions (p : Place) : List Place := p.faults.filter (·.node.isRegion)

theorem faults_of_faulty {p : Place} (h : p.node.isRegion = true ∨ p.node.isMissing = true) :
    p.faults = [p] := by
  rw [faults, if_pos (Bool.or_eq_true_iff.mpr h)]

theorem faults_of_sound {p : Place} (hregion : p.node.isRegion = false)
    (hmissing : p.node.isMissing = false) : p.faults = p.children.flatMap faults := by
  rw [faults, hregion, hmissing, Bool.or_false, if_neg Bool.false_ne_true]
  simp [List.flatMap]

/-- What a place is: faulty by itself, or not. -/
theorem faulty_or_sound (n : Node) : (n.isRegion = true ∨ n.isMissing = true) ∨
    (n.isRegion = false ∧ n.isMissing = false) := by
  cases n.isRegion <;> cases n.isMissing <;> simp

/-- What is among the faults is faulty, and stands somewhere in the node. -/
theorem faulty_of_mem_faults {p d : Place} (h : d ∈ p.faults) :
    d ∈ p.descendants ∧ (d.node.isRegion = true ∨ d.node.isMissing = true) := by
  induction p using inductionOn with
  | step p ih =>
    rcases faulty_or_sound p.node with hfault | ⟨hregion, hmissing⟩
    · rw [faults_of_faulty hfault] at h
      obtain rfl := List.mem_singleton.mp h
      exact ⟨d.self_mem_descendants, hfault⟩
    · rw [faults_of_sound hregion hmissing] at h
      obtain ⟨c, hc, hd⟩ := List.mem_flatMap.mp h
      obtain ⟨hmem, hfault⟩ := ih c hc hd
      exact ⟨mem_descendants.mpr (.inr ⟨c, hc, hmem⟩), hfault⟩

/-- **There are faults in a node just if it is faulty.** -/
theorem faults_ne_nil_iff (p : Place) : p.faults ≠ [] ↔ p.node.Faulty := by
  constructor
  · intro h
    obtain ⟨d, hd⟩ := List.exists_mem_of_ne_nil _ h
    exact p.faulty_iff.mpr ⟨d, faulty_of_mem_faults hd⟩
  · intro h
    generalize hn : p.node = n at h
    induction h generalizing p with
    | self h =>
      rw [faults_of_faulty (hn ▸ h)]
      exact List.cons_ne_nil _ _
    | @child n c hc _ ih =>
      rw [← hn] at hc
      rcases faulty_or_sound p.node with hfault | ⟨hregion, hmissing⟩
      · rw [faults_of_faulty hfault]
        exact List.cons_ne_nil _ _
      · obtain ⟨d, hd, hnode⟩ := exists_of_mem_childrenFrom (p := p) hc p.start 0
        obtain ⟨e, he⟩ := List.exists_mem_of_ne_nil _ (ih d hnode)
        rw [faults_of_sound hregion hmissing]
        exact List.ne_nil_of_mem (List.mem_flatMap.mpr ⟨d, hd, he⟩)

end Place

/-- **An outermost region of a row of nodes**, with the tokens and the bytes in front of it. -/
inductive OutermostIn : List Node → Nat → Nat → Node → Prop where
  | here {n : Node} {ns : List Node} (h : n.isRegion = true) : OutermostIn (n :: ns) 0 0 n
  | inside {n d : Node} {ns : List Node} {t b : Nat} (hn : n.isRegion = false)
      (h : OutermostIn n.children t b d) : OutermostIn (n :: ns) t b d
  | next {n d : Node} {ns : List Node} {t b : Nat} (h : OutermostIn ns t b d) :
      OutermostIn (n :: ns) (n.tokenCount + t) (n.size + b) d

/-- How many tokens a row of nodes covers, without trivia. -/
def Node.tokensOf (ns : List Node) : Nat := (ns.map tokenCount).sum

/-- How many bytes a row of nodes covers. -/
def Node.bytesOf (ns : List Node) : Nat := (ns.map size).sum

section
open Node

variable {n d : Node} {ns ms : List Node} {t b : Nat}

theorem not_outermostIn_nil : ¬ OutermostIn [] t b d := nofun

theorem outermostIn_cons : OutermostIn (n :: ns) t b d ↔ OutermostIn [n] t b d ∨
    ∃ t' b', t = n.tokenCount + t' ∧ b = n.size + b' ∧ OutermostIn ns t' b' d := by
  constructor
  · intro h
    cases h with
    | here h => exact .inl (.here h)
    | inside hn h => exact .inl (.inside hn h)
    | next h => exact .inr ⟨_, _, rfl, rfl, h⟩
  · rintro (h | ⟨t', b', rfl, rfl, h⟩)
    · cases h with
      | here h => exact .here h
      | inside hn h => exact .inside hn h
      | next h => exact absurd h not_outermostIn_nil
    · exact .next h

/-- **Regions of rows one behind the other.** -/
theorem outermostIn_append : OutermostIn (ns ++ ms) t b d ↔ OutermostIn ns t b d ∨
    ∃ t' b', t = tokensOf ns + t' ∧ b = bytesOf ns + b' ∧ OutermostIn ms t' b' d := by
  induction ns generalizing t b with
  | nil =>
    constructor
    · exact fun h => .inr ⟨t, b, (Nat.zero_add t).symm, (Nat.zero_add b).symm, h⟩
    · rintro (h | ⟨t', b', rfl, rfl, h⟩)
      · exact absurd h not_outermostIn_nil
      · show OutermostIn ms (0 + t') (0 + b') d
        rwa [Nat.zero_add, Nat.zero_add]
  | cons n ns ih =>
    rw [List.cons_append, outermostIn_cons, @outermostIn_cons n d ns, or_assoc]
    refine or_congr_right ?_
    simp only [ih, tokensOf, bytesOf, List.map_cons, List.sum_cons]
    constructor
    · rintro ⟨t', b', rfl, rfl, h | ⟨t'', b'', rfl, rfl, h⟩⟩
      · exact .inl ⟨t', b', rfl, rfl, h⟩
      · exact .inr ⟨t'', b'', (Nat.add_assoc ..).symm, (Nat.add_assoc ..).symm, h⟩
    · rintro (⟨t', b', rfl, rfl, h⟩ | ⟨t', b', rfl, rfl, h⟩)
      · exact ⟨t', b', rfl, rfl, .inl h⟩
      · exact ⟨_, _, Nat.add_assoc .., Nat.add_assoc .., .inr ⟨t', b', rfl, rfl, h⟩⟩

/-- What is no region has just the regions of its children. -/
theorem outermostIn_singleton (hn : n.isRegion = false) :
    OutermostIn [n] t b d ↔ OutermostIn n.children t b d := by
  constructor
  · intro h
    cases h with
    | here h =>
      rw [hn] at h
      cases h
    | inside _ h => exact h
    | next h => exact absurd h not_outermostIn_nil
  · exact .inside hn

/-- A region is the only outermost one of itself. -/
theorem outermostIn_region (hn : n.isRegion = true) :
    OutermostIn [n] t b d ↔ t = 0 ∧ b = 0 ∧ d = n := by
  constructor
  · intro h
    cases h with
    | here => exact ⟨rfl, rfl, rfl⟩
    | inside h =>
      rw [hn] at h
      cases h
    | next h => exact absurd h not_outermostIn_nil
  · rintro ⟨rfl, rfl, rfl⟩
    exact .here hn

/-- The regions behind a node that is none and has no children. -/
theorem OutermostIn.behind_childless (h : OutermostIn (n :: ns) t b d) (hn : n.isRegion = false)
    (hchildren : n.children = []) :
    ∃ t' b', t = n.tokenCount + t' ∧ b = n.size + b' ∧ OutermostIn ns t' b' d := by
  cases h with
  | here h =>
    rw [hn] at h
    cases h
  | inside _ h =>
    rw [hchildren] at h
    exact absurd h not_outermostIn_nil
  | next h => exact ⟨_, _, rfl, rfl, h⟩

/-! ## Counting the nodes of a row -/

theorem tokensOf_append (ns ms : List Node) : tokensOf (ns ++ ms) = tokensOf ns + tokensOf ms := by
  unfold tokensOf
  rw [List.map_append, List.sum_append]

theorem bytesOf_append (ns ms : List Node) : bytesOf (ns ++ ms) = bytesOf ns + bytesOf ms := by
  unfold bytesOf
  rw [List.map_append, List.sum_append]

theorem tokenCount_rule (kind : String) (g : GrammarId) (a q before : Nat) (cs : List Node) :
    (Node.rule kind g a q before cs).tokenCount = tokensOf cs := by
  unfold Node.tokenCount
  rw [Node.measure, attach_measure, Measure.tokens_sum, List.map_map]
  rfl

theorem size_rule (kind : String) (g : GrammarId) (a q before : Nat) (cs : List Node) :
    (Node.rule kind g a q before cs).size = bytesOf cs := by
  unfold Node.size
  rw [Node.measure, attach_measure, Measure.size_sum, List.map_map]
  rfl

/-- A node with children covers the tokens that they cover. -/
theorem tokenCount_of_children (h : n.children ≠ []) : n.tokenCount = tokensOf n.children := by
  refine (measure_of_children h).2.trans ?_
  rw [List.map_map]
  rfl

/-- **An outermost region ends within its row.** -/
theorem OutermostIn.tokenCount_le (h : OutermostIn ns t b d) :
    t + d.tokenCount ≤ tokensOf ns := by
  induction h with
  | @here n ns _ =>
    show 0 + n.tokenCount ≤ n.tokenCount + tokensOf ns
    omega
  | @inside n d ns t b _ h ih =>
    have hne : n.children ≠ [] := by
      intro hnil
      rw [hnil] at h
      exact not_outermostIn_nil h
    rw [← tokenCount_of_children hne] at ih
    show t + d.tokenCount ≤ n.tokenCount + tokensOf ns
    omega
  | @next n d ns t b _ ih =>
    show n.tokenCount + t + d.tokenCount ≤ n.tokenCount + tokensOf ns
    omega

/-- A hidden node counts as what is in it. -/
theorem counts_of_hides {c : Composite} (h : c.hides n = true) :
    n.isRegion = false ∧ n.tokenCount = tokensOf n.children ∧ n.size = bytesOf n.children := by
  cases n with
  | rule => exact ⟨rfl, tokenCount_rule .., size_rule ..⟩
  | leaf | trivia | skipped | missing | error | root => cases h

theorem tokensOf_cons (n : Node) (ns : List Node) :
    tokensOf (n :: ns) = n.tokenCount + tokensOf ns := rfl

theorem bytesOf_cons (n : Node) (ns : List Node) : bytesOf (n :: ns) = n.size + bytesOf ns := rfl

/-- Opening hidden nodes changes nothing of what is counted. -/
theorem counts_showOnto (c : Composite) (out ns : List Node) :
    tokensOf (c.showOnto out ns).reverse = tokensOf (out.reverse ++ ns) ∧
      bytesOf (c.showOnto out ns).reverse = bytesOf (out.reverse ++ ns) := by
  fun_induction Composite.showOnto c out ns with
  | case1 out => rw [List.append_nil]; exact ⟨rfl, rfl⟩
  | case2 out n rest hhides ih =>
    obtain ⟨_, htokens, hbytes⟩ := counts_of_hides hhides
    rw [ih.1, ih.2]
    simp only [tokensOf_append, bytesOf_append, tokensOf_cons, bytesOf_cons, htokens, hbytes,
      and_self]
  | case3 out n rest _ ih =>
    rw [ih.1, ih.2, List.reverse_cons, List.append_assoc]
    exact ⟨rfl, rfl⟩

/-- **Opening hidden nodes changes nothing of the outermost regions.** -/
theorem outermostIn_showOnto (c : Composite) (out ns : List Node) :
    OutermostIn (c.showOnto out ns).reverse t b d ↔ OutermostIn (out.reverse ++ ns) t b d := by
  fun_induction Composite.showOnto c out ns with
  | case1 out => rw [List.append_nil]
  | case2 out n rest hhides ih =>
    obtain ⟨hn, htokens, hbytes⟩ := counts_of_hides hhides
    rw [ih, outermostIn_append, @outermostIn_append d out.reverse]
    simp only [@outermostIn_append d n.children, @outermostIn_cons n d rest,
      outermostIn_singleton hn, htokens, hbytes]
  | case3 out n rest _ ih => rw [ih, List.reverse_cons, List.append_assoc]; rfl

/-- An outermost region of one of several children is one of the row of these children. -/
theorem Place.exists_outermostIn_row {p q : Place} {start index : Nat}
    (hchildren : ∀ c ∈ p.childrenFrom start index ns, q ∈ c.faults →
      ∃ t b, OutermostIn [c.node] t b q.node ∧ q.start = c.start + b)
    (h : q ∈ (p.childrenFrom start index ns).flatMap faults) :
    ∃ t b, OutermostIn ns t b q.node ∧ q.start = start + b := by
  induction ns generalizing start index with
  | nil => exact absurd h List.not_mem_nil
  | cons n ns ih =>
    rw [childrenFrom, List.flatMap_cons] at h
    rcases List.mem_append.mp h with h | h
    · obtain ⟨t, b, hq, hstart⟩ := hchildren _ List.mem_cons_self h
      exact ⟨t, b, outermostIn_cons.mpr (.inl hq), hstart⟩
    · obtain ⟨t, b, hq, hstart⟩ := ih (fun c hc => hchildren c (List.mem_cons_of_mem _ hc)) h
      exact ⟨_, _, .next hq, by rw [hstart, Nat.add_assoc]⟩

/-- **The outermost regions of a place are where the counts say.** -/
theorem Place.exists_outermostIn {p q : Place} (h : q ∈ p.regions) :
    ∃ t b, OutermostIn [p.node] t b q.node ∧ q.start = p.start + b := by
  rw [regions, List.mem_filter] at h
  obtain ⟨h, hq⟩ := h
  induction p using inductionOn with
  | step p ih =>
    rcases faulty_or_sound p.node with hfault | ⟨hregion, hmissing⟩
    · rw [faults_of_faulty hfault] at h
      obtain rfl := List.mem_singleton.mp h
      exact ⟨0, 0, .here hq, rfl⟩
    · rw [faults_of_sound hregion hmissing] at h
      obtain ⟨t, b, hrow, hstart⟩ := exists_outermostIn_row ih h
      exact ⟨t, b, .inside hregion hrow, hstart⟩

end

/-! ## Tokens and bytes -/

namespace Table

variable {t : Table} {ns : List Node} {tokens : List Token} {d : Node} {k b : Nat}

/-- A row counts the tokens that it reads. -/
theorem Reads.tokensOf (h : t.Reads ns tokens) :
    Node.tokensOf ns = (tokens.filter (!·.isTrivia)).length := by
  rw [← List.countP_eq_length_filter, ← h.measure.2, List.map_map]
  rfl

/-- **A region behind `k` tokens begins with the token number `k`**, if there is a token in it. -/
theorem Reads.start_of_outermostIn (h : t.Reads ns tokens) (hd : OutermostIn ns k b d)
    (hcount : d.tokenCount ≠ 0) : ∀ {start : Nat}, Tiles start tokens →
      ∃ x, (tokens.filter (!·.isTrivia))[k]? = some x ∧ x.start = start + b := by
  induction h generalizing k b with
  | nil => exact absurd hd not_outermostIn_nil
  | @token n x ns tokens h _ ih =>
    intro start ⟨hstart, _, htiles⟩
    have hn : n.isRegion = false := by
      cases n with
      | error => exact h.elim
      | leaf | trivia | skipped | missing | rule | root => rfl
    obtain ⟨k', b', rfl, rfl, hbehind⟩ := hd.behind_childless hn h.children
    obtain ⟨y, hy, hbyte⟩ := ih hbehind htiles
    refine ⟨y, ?_, by rw [hbyte, h.size, Nat.add_assoc]⟩
    rw [h.tokenCount]
    cases htrivia : x.isTrivia with
    | true =>
      rw [List.filter_cons_of_neg (by rw [htrivia]; decide), if_pos rfl, Nat.zero_add]
      exact hy
    | false =>
      rw [List.filter_cons_of_pos (by rw [htrivia]; rfl), if_neg Bool.false_ne_true, Nat.add_comm]
      exact hy
  | @missing kind g s ns tokens _ ih =>
    intro start htiles
    obtain ⟨k', b', rfl, rfl, hbehind⟩ := hd.behind_childless rfl rfl
    unfold Node.tokenCount Node.size
    rw [Node.measure_missing, Nat.zero_add, Nat.zero_add]
    exact ih hbehind htiles
  | @inner n ns inside tokens hne hn htrim _ ihn ih =>
    intro start htiles
    obtain ⟨hinside, hrest⟩ := tiles_append.mp htiles
    rw [List.filter_append]
    have htokens : n.tokenCount = (inside.filter (!·.isTrivia)).length := by
      rw [← hn.tokensOf]
      exact tokenCount_of_children hne
    cases hd with
    | here hregion =>
      -- What is read at the edge of the region is no trivia.
      have hsome : inside ≠ [] := fun hnil => hcount (htokens.trans (by rw [hnil]; rfl))
      obtain ⟨x, rest, rfl⟩ := List.exists_cons_of_ne_nil hsome
      refine ⟨x, ?_, hinside.1⟩
      rw [List.filter_cons_of_pos (by rw [htrim.1 x rfl]; rfl)]
      rfl
    | inside _ hd =>
      obtain ⟨x, hx, hbyte⟩ := ihn hd hinside
      refine ⟨x, ?_, hbyte⟩
      rw [List.getElem?_append_left (List.getElem?_eq_some_iff.mp hx).1]
      exact hx
    | next hd =>
      obtain ⟨x, hx, hbyte⟩ := ih hd hrest
      refine ⟨x, ?_, by rw [hbyte, hn.size hne, Nat.add_assoc]⟩
      rw [htokens, List.getElem?_append_right (Nat.le_add_right _ _), Nat.add_sub_cancel_left]
      exact hx

end Table

end LayeredSyntax
