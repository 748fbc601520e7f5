/-
  FILING — every error region of a tree is filed under the position at which it begins.

  What a row of nodes covers is known by its two ends, and its outermost regions are looked up at
  the positions at which they begin (`Regions.Files`).  Rows are put together piece by piece, and a
  gap is filled with the region that is filed there, so a node that is assembled from pieces that
  lie side by side covers what they cover (`assemble_files`).

  1. Between two nodes of a stack stands a subtree whose regions are filed, and so are those of all
     pieces of a trail (`laid_of_trail`).
  2. A later repair files its region at the position at which the node that it keeps is covered up
     to.  **Nothing that still counts ends behind that position**, so what was filed before is still
     found (`FiledBetween.leave`).  Subtrees that were given up end inside of the new region, and of
     them nothing is known any more (`Regions.Outside`).
-/
import LayeredSyntax.Proofs.Parse.Reaching
import LayeredSyntax.Proofs.Tree.Regions

namespace LayeredSyntax

open Node

/-! ## Rows -/

namespace Regions

variable {regions : Regions} {low first stop p q : Nat} {n : Node} {ns ms : List Node}

/-- **Whether a row of nodes covers the tokens from one position up to before another one**, and its
    outermost regions are filed where they begin. -/
structure Files (regions : Regions) (first stop : Nat) (ns : List Node) : Prop where
  tokens : first + tokensOf ns = stop
  filed : ∀ t b d, OutermostIn ns t b d → ∃ r, regions.at? (first + t) = some r ∧ r.node = d

/-- Whether the gap between two positions is filled. -/
def Fills (regions : Regions) (first stop : Nat) : Prop :=
  first < stop → ∃ r children, regions.at? first = some r ∧ r.stop = stop ∧
    r.node = .error children

/-- Whether a position lies inside of none of the regions. -/
def Outside (regions : Regions) (p : Nat) : Prop := ∀ r ∈ regions, p ≤ r.first ∨ r.stop ≤ p

theorem Files.append (h : regions.Files first p ns) (h' : regions.Files p stop ms) :
    regions.Files first stop (ns ++ ms) := by
  obtain ⟨rfl, hfiled⟩ := h
  obtain ⟨rfl, hfiled'⟩ := h'
  refine ⟨by rw [tokensOf_append, Nat.add_assoc], fun t b d hd => ?_⟩
  rcases outermostIn_append.mp hd with hd | ⟨t', b', rfl, rfl, hbehind⟩
  · exact hfiled t b d hd
  · rw [← Nat.add_assoc]
    exact hfiled' t' b' d hbehind

/-- Nothing covers nothing. -/
theorem files_nil (regions : Regions) (p : Nat) : regions.Files p p [] :=
  ⟨rfl, fun _ _ _ hd => absurd hd not_outermostIn_nil⟩

/-- One node without children. -/
theorem files_childless (hn : n.isRegion = false) (hchildren : n.children = [])
    (htokens : first + n.tokenCount = stop) : regions.Files first stop [n] := by
  refine ⟨htokens, fun t b d hd => ?_⟩
  rw [outermostIn_singleton hn, hchildren] at hd
  exact absurd hd not_outermostIn_nil

/-- Trivia cover no tokens. -/
theorem files_trivia (regions : Regions) (p : Nat) (tokens : List Token) :
    regions.Files p p (tokens.map fun x => .trivia x.kind x.size) := by
  induction tokens with
  | nil => exact files_nil regions p
  | cons x tokens ih =>
    have hone : regions.Files p p [.trivia x.kind x.size] := by
      refine files_childless rfl rfl ?_
      unfold Node.tokenCount
      rw [Node.measure]
      rfl
    exact hone.append ih

/-- A region that is filed. -/
theorem files_region {r : Region} (hat : regions.at? first = some r)
    (hregion : r.node.isRegion = true) (htokens : first + r.node.tokenCount = stop) :
    regions.Files first stop [r.node] := by
  refine ⟨htokens, fun t b d hd => ?_⟩
  obtain ⟨rfl, rfl, rfl⟩ := (outermostIn_region hregion).mp hd
  exact ⟨r, hat, rfl⟩

/-- A finished production covers what its children cover. -/
theorem files_rule {kind : String} {g : GrammarId} {a k before : Nat} :
    regions.Files first stop [.rule kind g a k before ns] ↔ regions.Files first stop ns := by
  have hregion : (Node.rule kind g a k before ns).isRegion = false := rfl
  have htokens : tokensOf [.rule kind g a k before ns] = tokensOf ns := by
    rw [tokensOf_cons, tokenCount_rule]
    rfl
  constructor
  · rintro ⟨rfl, hfiled⟩
    refine ⟨by rw [htokens], fun t b d hd => ?_⟩
    exact hfiled t b d ((outermostIn_singleton hregion).mpr hd)
  · rintro ⟨rfl, hfiled⟩
    refine ⟨by rw [htokens], fun t b d hd => ?_⟩
    exact hfiled t b d ((outermostIn_singleton hregion).mp hd)

/-- Opening hidden nodes changes nothing of what is covered. -/
theorem Files.showOnto {out : List Node} (c : Composite)
    (h : regions.Files first stop (out.reverse ++ ns)) :
    regions.Files first stop (c.showOnto out ns).reverse := by
  obtain ⟨rfl, hfiled⟩ := h
  refine ⟨by rw [(counts_showOnto c out ns).1], fun t b d hd => ?_⟩
  exact hfiled t b d ((outermostIn_showOnto c out ns).mp hd)

end Regions

/-! ## Assembling -/

namespace ParseJob

variable {j : ParseJob} {regions : Regions} {low high first stop p m : Nat} {pieces : List Label}
  {opens : Bool}

/-- **Pieces side by side** from one position to another one: what is between them is filled, and
    the regions in them are filed. -/
def Laid (regions : Regions) (p stop : Nat) : List Label → Prop
  | [] => p = stop
  | piece :: rest => p ≤ piece.first ∧ piece.first ≤ piece.stop ∧ regions.Fills p piece.first ∧
      regions.Files piece.first piece.stop [piece.node] ∧ Laid regions piece.stop stop rest

theorem Laid.le (h : Laid regions p stop pieces) : p ≤ stop := by
  induction pieces generalizing p with
  | nil => exact Nat.le_of_eq h
  | cons piece rest ih =>
    obtain ⟨hp, hpiece, _, _, hrest⟩ := h
    have := ih hrest
    omega

/-- One more piece behind others. -/
theorem Laid.snoc {label : Label} (h : Laid regions p m pieces) (hm : m ≤ label.first)
    (hlabel : label.first ≤ label.stop) (hfills : regions.Fills m label.first)
    (hfiles : regions.Files label.first label.stop [label.node]) :
    Laid regions p label.stop (pieces ++ [label]) := by
  induction pieces generalizing p with
  | nil =>
    obtain rfl : p = m := h
    exact ⟨hm, hlabel, hfills, hfiles, rfl⟩
  | cons piece rest ih =>
    obtain ⟨hp, hpiece, hfills', hfiles', hrest⟩ := h
    exact ⟨hp, hpiece, hfills', hfiles', ih hrest⟩

/-- A region that was left behind covers the tokens that it stands for. -/
theorem RegionsRead.tokenCount (hr : j.RegionsRead regions) (h : j.tokens.Regular) {r : Region}
    (hmem : r ∈ regions) (hlt : r.first < r.stop) (hstop : r.stop ≤ j.finish) :
    r.first + r.node.tokenCount = r.stop := by
  have hmeasure := (hr r hmem hlt).measure.2
  rw [h.count_stretch (Nat.le_of_lt hlt) hstop] at hmeasure
  have hcount : r.node.tokenCount = r.stop - r.first := by
    rw [← hmeasure]
    exact (Nat.add_zero _).symm
  omega

theorem triviaOnto_files {out : List Node} (h : regions.Files low p out.reverse) (q : Nat) :
    regions.Files low p (j.triviaOnto q out).reverse := by
  rw [reverse_triviaOnto]
  exact h.append (regions.files_trivia p _)

/-- The same where the trivia is added on some condition only. -/
theorem files_led {b : Prop} [Decidable b] {out : List Node}
    (h : regions.Files low p out.reverse) (q : Nat) :
    regions.Files low p (if b then j.triviaOnto q out else out).reverse := by
  split
  · exact triviaOnto_files h q
  · exact h

/-- **A gap that is filled** is covered by the region that is filed there. -/
theorem fillGap_files (h : j.tokens.Regular) (hr : j.RegionsRead regions) (hlt : first < stop)
    (hstop : stop ≤ j.finish) (hfills : regions.Fills first stop) {a : Assembled}
    (ha : regions.Files low first a.children) :
    regions.Files low stop (j.fillGap regions low first stop a).children := by
  obtain ⟨r, children, hat, rfl, hnode⟩ := hfills hlt
  obtain ⟨hmem, rfl⟩ := mem_of_at? hat
  have hregion : regions.Files r.first r.stop [r.node] := by
    refine Regions.files_region hat ?_ (hr.tokenCount h hmem hlt hstop)
    rw [hnode]
    rfl
  have hfound : (regions.at? r.first).filter (·.stop == r.stop) = some r := by
    rw [hat, Option.filter_some, if_pos (beq_self_eq_true _)]
  unfold fillGap Assembled.children
  rw [hfound]
  dsimp only
  rw [List.reverse_cons]
  exact (files_led ha r.first).append hregion

/-- **Assembling pieces that lie side by side** goes on covering. -/
theorem assembleFrom_files (h : j.tokens.Regular) (hr : j.RegionsRead regions)
    (hhigh : high ≤ j.finish) (hm : m ≤ high) (hfills : regions.Fills m high) :
    ∀ {p : Nat} {a : Assembled}, Laid regions p m pieces → regions.Files low p a.children →
      regions.Files low high (j.assembleFrom regions opens low high p a pieces).children := by
  induction pieces with
  | nil =>
    intro p a hlaid ha
    obtain rfl : p = m := hlaid
    unfold assembleFrom
    split
    · next hlt => exact fillGap_files h hr hlt hhigh hfills ha
    · next hnot =>
      obtain rfl : p = high := by omega
      exact ha
  | cons piece rest ih =>
    intro p a hlaid ha
    obtain ⟨hp, hpiece, hgap, hfiles, hrest⟩ := hlaid
    have hle := hrest.le
    have hmax : max (max p piece.first) piece.stop = piece.stop := by omega
    unfold assembleFrom
    dsimp only
    rw [hmax]
    refine ih hrest ?_
    -- First the gap in front of the piece, then its trivia, then the piece itself.
    have hfront : regions.Files low piece.first
        (if p < piece.first then j.fillGap regions low p piece.first a else a).children := by
      split
      · next hlt => exact fillGap_files h hr hlt (by omega) hgap ha
      · next hnot =>
        obtain rfl : p = piece.first := by omega
        exact ha
    generalize (if p < piece.first then j.fillGap regions low p piece.first a else a) = b
      at hfront ⊢
    unfold Assembled.children
    dsimp only
    split
    · exact ((files_led hfront piece.first).append hfiles).showOnto j.table.toComposite
    · rw [List.reverse_cons]
      exact (files_led hfront piece.first).append hfiles

/-- **The children of a node cover what the node is over.** -/
theorem assemble_files (h : j.tokens.Regular) (hr : j.RegionsRead regions)
    (hhigh : high ≤ j.finish) (hm : m ≤ high) (hlaid : Laid regions low m pieces)
    (hfills : regions.Fills m high) :
    regions.Files low high (j.assemble regions opens low high pieces).children :=
  assembleFrom_files h hr hhigh hm hfills hlaid (regions.files_nil low)

/-- The root covers everything. -/
theorem assembleRoot_files (h : j.tokens.Regular) (hr : j.RegionsRead regions)
    (hpos : j.finish ≠ 0) (hm : m ≤ j.finish) (hlaid : Laid regions 0 m pieces)
    (hfills : regions.Fills m j.finish) :
    regions.Files 0 j.finish (j.assembleRoot regions pieces).1.children := by
  have hfront : regions.Files 0 0 (j.triviaOnto 0 []).reverse :=
    triviaOnto_files (regions.files_nil 0) 0
  unfold assembleRoot
  dsimp only
  rw [if_neg hpos]
  refine triviaOnto_files ?_ j.finish
  rw [List.reverse_append]
  exact hfront.append (assemble_files h hr (Nat.le_refl _) hm hlaid hfills)

/-! ## Subtrees between two nodes -/

/-- **What is filed of a subtree between two nodes of a stack**, if the upper one has not been given
    up. -/
def FiledBetween (regions : Regions) (above below : Face) (label : Label) : Prop :=
  regions.Outside above.covered → regions.Outside below.covered ∧
    regions.Fills below.covered below.position ∧
    regions.Files label.first label.stop [label.node]

/-- A subtree that links two nodes, with its regions filed. -/
def FiledLinks (j : ParseJob) (regions : Regions) (above below : Face) (label : Label) : Prop :=
  j.Links above below label ∧ FiledBetween regions above below label

/-- **The subtrees of a trail lie side by side**, down from a node that has not been given up. -/
theorem laid_of_trail {bottom top : Face} (h : Trail (j.FiledLinks regions) bottom pieces top)
    (hout : regions.Outside top.covered) (hfills : regions.Fills top.covered top.position) :
    regions.Outside bottom.covered ∧ regions.Fills bottom.covered bottom.position ∧
      Laid regions bottom.covered top.covered pieces := by
  induction h with
  | nil => exact ⟨hout, hfills, rfl⟩
  | @snoc below top pieces label _ hlabel ih =>
    obtain ⟨hlink, hfiled⟩ := hlabel
    obtain ⟨hout', hfills', hfiles⟩ := hfiled hout
    obtain ⟨houtb, hfillsb, hlaid⟩ := ih hout' hfills'
    rw [hlink.first_eq] at hfills'
    refine ⟨houtb, hfillsb, ?_⟩
    rw [← hlink.reads.stop_eq]
    exact hlaid.snoc hlink.reads.below_le hlink.reads.first_le hfills' hfiles

/-- **Finishing a production files what its pieces file.** -/
theorem closed_filedLinks (hj : j.Ready) (ht : j.table.Canonical) (hr : j.RegionsRead regions)
    {c : Nat} (hp : p ≤ j.finish) (hc : c ≤ p) (hout : regions.Outside c)
    (hfills : regions.Fills c p) : j.ClosedUnder regions p c (j.FiledLinks regions) := by
  intro bottom top pieces q target htrail hposition hcovered hq hlength hgoto
  obtain ⟨hstop, hlink⟩ := closed_links hj ht hr hp hc (htrail.mono And.left) hposition hcovered hq
    hlength hgoto
  have hne : pieces ≠ [] := List.length_pos_iff.mp (hlength ▸ rhs_length_pos ht hq)
  obtain ⟨piece, rest, rfl⟩ := List.exists_cons_of_ne_nil hne
  obtain ⟨last, hlast⟩ := Option.isSome_iff_exists.mp (List.getLast?_isSome.mpr hne)
  rw [← hcovered] at hout
  rw [← hcovered, ← hposition] at hfills
  obtain ⟨houtb, hfillsb, hlaid⟩ := laid_of_trail htrail hout hfills
  refine ⟨hstop, hlink, fun _ => ⟨houtb, hfillsb, ?_⟩⟩
  rw [reduceLabel_eq List.head?_cons hlast] at hstop ⊢
  have hstop : last.stop = top.covered := hstop.trans hcovered.symm
  rw [hstop]
  obtain ⟨_, hpiece, _, hfiles, hrest⟩ := hlaid
  -- The node begins with its first piece, so there is no gap in front of it.
  have hinner : Laid regions piece.first top.covered (piece :: rest) :=
    ⟨Nat.le_refl _, hpiece, fun hlt => absurd hlt (Nat.lt_irrefl _), hfiles, hrest⟩
  have htop : top.covered ≤ j.finish := by omega
  exact Regions.files_rule.mpr (assemble_files hj.regular hr htop (Nat.le_refl _) hinner
    fun hlt => absurd hlt (Nat.lt_irrefl _))

/-- **A leaf has no regions in it.** -/
theorem closedUnderShift_filedLinks (hj : j.Ready) (ht : j.table.Canonical) {c : Nat}
    (hp : p < j.finish) (hc : c ≤ p) (hout : regions.Outside c) (hfills : regions.Fills c p) :
    j.ClosedUnderShift p c (j.FiledLinks regions) := by
  intro bottom x target target' state hposition hcovered hshift hshift'
  have hlink := closedUnderShift_links hj ht hp hc hposition hcovered hshift hshift'
  have htokens : p + (j.leaf p x target').tokenCount = p + 1 := by
    have hcount : (j.leaf p x target').tokenCount = p + 1 - p := hlink.tokenCount hj
    omega
  have hleaf : (j.leaf p x target').isRegion = false ∧ (j.leaf p x target').children = [] := by
    unfold leaf
    dsimp only
    split <;> exact ⟨rfl, rfl⟩
  refine ⟨hlink, fun _ => ?_⟩
  rw [hcovered, hposition]
  exact ⟨hout, hfills, Regions.files_childless hleaf.1 hleaf.2 htokens⟩

/-! ## One more region -/

/-- **Whether everything left behind stands in front of a position.** -/
def RegionsBehind (regions : Regions) (p : Nat) : Prop :=
  ∀ r ∈ regions, r.first < r.stop ∧ r.stop ≤ p ∧ r.node.isRegion = true

/-- What ends in front of a position is filed as before when a region is filed there. -/
theorem files_cons (hj : j.Ready) (hr : j.RegionsRead regions) (hbehind : RegionsBehind regions p)
    (hp : p ≤ j.finish) {new : Region} {ns : List Node} (hstop : stop ≤ new.first)
    (h : regions.Files first stop ns) : Regions.Files (new :: regions) first stop ns := by
  obtain ⟨rfl, hfiled⟩ := h
  refine ⟨rfl, fun t b d hd => ?_⟩
  obtain ⟨r, hat, rfl⟩ := hfiled t b d hd
  obtain ⟨hmem, hfirst⟩ := mem_of_at? hat
  obtain ⟨hlt, hle, _⟩ := hbehind r hmem
  have hcount := hr.tokenCount hj.regular hmem hlt (Nat.le_trans hle hp)
  have hwithin := hd.tokenCount_le
  refine ⟨r, ?_, rfl⟩
  rw [Progress.at?_cons, if_neg (by omega)]
  exact hat

/-- **A subtree that still counts is filed as before** when another region is left behind. -/
theorem FiledBetween.leave (hj : j.Ready) (hr : j.RegionsRead regions)
    (hbehind : RegionsBehind regions p) (hp : p ≤ j.finish) {above below : Face} {label : Label}
    {new : Region} (hlink : j.Links above below label) (h : FiledBetween regions above below label)
    (hcovered : above.covered ≤ new.first) :
    FiledBetween (new :: regions) above below label := by
  intro hout
  obtain ⟨houtb, hfills, hfiles⟩ := h fun r hr => hout r (List.mem_cons_of_mem _ hr)
  have hbelow := hlink.below_covered
  have hfirst := hlink.first_eq
  have hstop := hlink.reads.stop_eq
  have hle := hlink.reads.first_le
  refine ⟨fun r hr => ?_, fun hgap => ?_, files_cons hj hr hbehind hp (by omega) hfiles⟩
  · rcases List.mem_cons.mp hr with rfl | hr
    · exact .inl (by omega)
    · exact houtb r hr
  · rw [Progress.at?_cons, if_neg (by omega)]
    exact hfills hgap

end ParseJob

end LayeredSyntax
