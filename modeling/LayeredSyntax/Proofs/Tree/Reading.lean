/-
  TREES AS TEXT — which tokens a row of nodes holds.

  A row of nodes READS tokens (`Table.Reads`) when its childless nodes stand for these tokens, one
  behind the other, with nothing but MISSING nodes in between.  A node with children reads what its
  children read, and **what a node with children reads has no trivia at its edges** (`Trimmed`).

  From this alone follows what a reader sees of a tree at its places:

  1. The childless places spell the tokens, each where its token stands (`Reads.spells`).
  2. A node that holds a token begins where a token begins and ends where one ends
     (`Reads.bounded`).
-/
import Mathlib.Algebra.GroupWithZero.Nat
import LayeredSyntax.Table.Lookup
import LayeredSyntax.Tree.Place
import LayeredSyntax.Token.Basic

namespace LayeredSyntax

/-! ## Measures -/

namespace Measure

theorem size_foldl (ms : List Measure) :
    ∀ m : Measure, (ms.foldl add m).size = m.size + (ms.map Measure.size).sum := by
  induction ms with
  | nil => exact fun m => rfl
  | cons a ms ih =>
    intro m
    rw [List.foldl_cons, ih, List.map_cons, List.sum_cons, ← Nat.add_assoc]
    rfl

theorem tokens_foldl (ms : List Measure) :
    ∀ m : Measure, (ms.foldl add m).tokens = m.tokens + (ms.map Measure.tokens).sum := by
  induction ms with
  | nil => exact fun m => rfl
  | cons a ms ih =>
    intro m
    rw [List.foldl_cons, ih, List.map_cons, List.sum_cons, ← Nat.add_assoc]
    rfl

theorem size_sum (ms : List Measure) : (sum ms).size = (ms.map Measure.size).sum :=
  (size_foldl ms zero).trans (Nat.zero_add _)

theorem tokens_sum (ms : List Measure) : (sum ms).tokens = (ms.map Measure.tokens).sum :=
  (tokens_foldl ms zero).trans (Nat.zero_add _)

end Measure

namespace Node

theorem attach_measure (cs : List Node) :
    (cs.attach.map fun ⟨c, _⟩ => c.measure) = cs.map measure := List.attach_map_val

/-- A node with children is as long as they are, and holds the tokens that they hold. -/
theorem measure_of_children {n : Node} (h : n.children ≠ []) :
    n.measure.size = ((n.children.map measure).map Measure.size).sum ∧
      n.measure.tokens = ((n.children.map measure).map Measure.tokens).sum := by
  cases n with
  | leaf | trivia | skipped | missing => exact absurd rfl h
  | rule | root =>
    rw [measure, attach_measure]
    exact ⟨Measure.size_sum _, Measure.tokens_sum _⟩
  | error cs =>
    rw [measure, attach_measure]
    exact ⟨Measure.size_sum _, Measure.tokens_sum _⟩

/-- Whether a node is a token that was read, passed over, or left out by the grammar. -/
def StandsFor (t : Table) (token : Token) : Node → Prop
  | .leaf _ _ _ x size =>
    token.isTrivia = false ∧ x ∈ t.terminalsFor token.kind token.text ∧ size = token.size
  | .trivia kind size => token.isTrivia = true ∧ kind = token.kind ∧ size = token.size
  | .skipped kind size => token.isTrivia = false ∧ kind = token.kind ∧ size = token.size
  | _ => False

variable {t : Table} {n : Node} {token : Token}

theorem StandsFor.children (h : n.StandsFor t token) : n.children = [] := by
  cases n with
  | leaf | trivia | skipped | missing => rfl
  | rule | error | root => exact h.elim

theorem StandsFor.size (h : n.StandsFor t token) : n.size = token.size := by
  unfold Node.size
  cases n with
  | leaf | trivia | skipped =>
    rw [measure]
    exact h.2.2
  | missing | rule | error | root => exact h.elim

theorem StandsFor.tokenCount (h : n.StandsFor t token) :
    n.tokenCount = if token.isTrivia then 0 else 1 := by
  unfold Node.tokenCount
  cases n with
  | leaf | trivia | skipped =>
    rw [measure, h.1]
    rfl
  | missing | rule | error | root => exact h.elim

theorem StandsFor.isTrivia (h : n.StandsFor t token) : n.isTrivia = token.isTrivia := by
  cases n with
  | leaf | trivia | skipped => exact h.1.symm
  | missing | rule | error | root => exact h.elim

theorem measure_missing (kind : String) (g : GrammarId) (s : Sym) :
    (missing kind g s).measure = ⟨0, 0, true⟩ := by
  rw [measure]

end Node

/-! ## Rows of nodes -/

/-- Whether there is no trivia at either edge. -/
def Trimmed (tokens : List Token) : Prop :=
  (∀ x ∈ tokens.head?, x.isTrivia = false) ∧ ∀ x ∈ tokens.getLast?, x.isTrivia = false

/-- **Which tokens a row of nodes holds.** -/
inductive Table.Reads (t : Table) : List Node → List Token → Prop where
  | nil : Reads t [] []
  | token {n : Node} {token : Token} {ns : List Node} {tokens : List Token}
      (h : n.StandsFor t token) (hns : Reads t ns tokens) : Reads t (n :: ns) (token :: tokens)
  | missing {kind : String} {g : GrammarId} {s : Sym} {ns : List Node} {tokens : List Token}
      (hns : Reads t ns tokens) : Reads t (.missing kind g s :: ns) tokens
  | inner {n : Node} {ns : List Node} {inside tokens : List Token} (hne : n.children ≠ [])
      (hn : Reads t n.children inside) (htrim : Trimmed inside) (hns : Reads t ns tokens) :
      Reads t (n :: ns) (inside ++ tokens)

namespace Table

variable {t : Table} {ns ms : List Node} {tokens more : List Token}

/-- Rows one behind the other. -/
theorem Reads.append (h : t.Reads ns tokens) (h' : t.Reads ms more) :
    t.Reads (ns ++ ms) (tokens ++ more) := by
  induction h with
  | nil => exact h'
  | token h _ ih => exact .token h ih
  | missing _ ih => exact .missing ih
  | inner hne hn htrim _ _ ih =>
    rw [List.append_assoc]
    exact .inner hne hn htrim ih

/-- One node that stands for a token. -/
theorem Reads.single {n : Node} {token : Token} (h : n.StandsFor t token) : t.Reads [n] [token] :=
  .token h .nil

/-- One node with children. -/
theorem Reads.node {n : Node} (hne : n.children ≠ []) (h : t.Reads n.children tokens)
    (htrim : Trimmed tokens) : t.Reads [n] tokens := by
  rw [← List.append_nil tokens]
  exact .inner hne h htrim .nil

/-- Trivia stand for themselves. -/
theorem Reads.trivia {tokens : List Token} (h : ∀ x ∈ tokens, x.isTrivia = true) :
    t.Reads (tokens.map fun x => .trivia x.kind x.size) tokens := by
  induction tokens with
  | nil => exact .nil
  | cons x tokens ih =>
    exact .token ⟨h x List.mem_cons_self, rfl, rfl⟩ (ih fun y hy => h y (List.mem_cons_of_mem _ hy))

/-- **A row is as long as its tokens, and counts those that are no trivia.** -/
theorem Reads.measure (h : t.Reads ns tokens) :
    ((ns.map Node.measure).map Measure.size).sum = (tokens.map Token.size).sum ∧
      ((ns.map Node.measure).map Measure.tokens).sum = tokens.countP (!·.isTrivia) := by
  induction h with
  | nil => exact ⟨rfl, rfl⟩
  | @token n x ns tokens h _ ih =>
    obtain ⟨hsize, htokens⟩ := ih
    have hn : n.measure.size = x.size := h.size
    have hcount : n.measure.tokens = if x.isTrivia then 0 else 1 := h.tokenCount
    simp only [List.map_cons, List.sum_cons, hn, hsize, hcount, htokens, List.countP_cons, true_and]
    cases x.isTrivia
    · exact Nat.add_comm _ _
    · exact Nat.zero_add _
  | missing _ ih =>
    simp only [List.map_cons, List.sum_cons, Node.measure_missing, ih.1, ih.2]
    exact ⟨Nat.zero_add _, Nat.zero_add _⟩
  | inner hne _ _ _ ihn ih =>
    obtain ⟨hsize, htokens⟩ := Node.measure_of_children hne
    simp only [List.map_cons, List.sum_cons, hsize, htokens, ihn.1, ihn.2, ih.1, ih.2,
      List.map_append, List.sum_append, List.countP_append, and_self]

/-- A node with children is as long as the tokens that it reads. -/
theorem Reads.size {n : Node} (hne : n.children ≠ []) (h : t.Reads n.children tokens) :
    n.size = (tokens.map Token.size).sum :=
  (Node.measure_of_children hne).1.trans h.measure.1

end Table

/-! ## Places -/

/-- Whether tokens stand side by side from an offset on. -/
def Tiles (start : Nat) : List Token → Prop
  | [] => True
  | x :: rest => x.start = start ∧ x.stop = start + x.size ∧ Tiles (start + x.size) rest

theorem tiles_append {xs ys : List Token} {start : Nat} : Tiles start (xs ++ ys) ↔
    Tiles start xs ∧ Tiles (start + (xs.map Token.size).sum) ys := by
  induction xs generalizing start with
  | nil => exact ⟨fun h => ⟨trivial, h⟩, fun h => h.2⟩
  | cons x xs ih =>
    show _ ∧ _ ∧ Tiles _ (xs ++ ys) ↔ (_ ∧ _ ∧ Tiles _ xs) ∧ _
    rw [ih, List.map_cons, List.sum_cons, Nat.add_assoc]
    exact ⟨fun ⟨h, h', hxs, hys⟩ => ⟨⟨h, h', hxs⟩, hys⟩,
      fun ⟨⟨h, h', hxs⟩, hys⟩ => ⟨h, h', hxs, hys⟩⟩

/-- Whether a place begins where one of some tokens begins and ends where one of them ends; trivia
    do not count. -/
def Place.BoundedBy (d : Place) (tokens : List Token) : Prop :=
  (∃ x ∈ tokens, x.isTrivia = false ∧ d.start = x.start) ∧
    ∃ x ∈ tokens, x.isTrivia = false ∧ d.stop = x.stop

theorem Place.BoundedBy.mono {d : Place} {xs ys : List Token} (hsub : ∀ x ∈ xs, x ∈ ys)
    (h : d.BoundedBy xs) : d.BoundedBy ys := by
  obtain ⟨⟨x, hx, hfirst⟩, z, hz, hlast⟩ := h
  exact ⟨⟨x, hsub x hx, hfirst⟩, z, hsub z hz, hlast⟩

/-- The last token ends where the row ends. -/
theorem Tiles.stop_of_getLast? {xs : List Token} {start : Nat} {x : Token} (h : Tiles start xs)
    (hx : xs.getLast? = some x) : x.stop = start + (xs.map Token.size).sum := by
  obtain ⟨front, rfl⟩ := List.getLast?_eq_some_iff.mp hx
  obtain ⟨_, hstart, hstop, _⟩ := tiles_append.mp h
  rw [hstop, List.map_append, List.sum_append, ← Nat.add_assoc]
  rfl

namespace Place

/-- **The places without children**, from left to right. -/
def leaves (p : Place) : List Place := p.descendants.filter (·.node.children.isEmpty)

theorem leaves_of_childless {p : Place} (h : p.node.children = []) : p.leaves = [p] := by
  have hchildren : p.children = [] := by
    unfold children
    rw [h]
    rfl
  have hpos : p.node.children.isEmpty = true := List.isEmpty_iff.mpr h
  unfold leaves
  rw [descendants_eq, hchildren]
  exact List.filter_cons_of_pos (p := fun l : Place => l.node.children.isEmpty) hpos

theorem leaves_of_children {p : Place} (h : p.node.children ≠ []) :
    p.leaves = p.children.flatMap leaves := by
  have hpos : ¬ p.node.children.isEmpty = true := fun he => h (List.isEmpty_iff.mp he)
  unfold leaves
  rw [descendants_eq]
  exact (List.filter_cons_of_neg (p := fun l : Place => l.node.children.isEmpty) hpos).trans
    (List.filter_flatMap ..)

end Place

/-- **Places that spell tokens**: a place for every token, where the token stands, with nothing but
    places of missing nodes in between. -/
inductive Table.Spells (t : Table) : List Place → List Token → Prop where
  | nil : Spells t [] []
  | token {l : Place} {token : Token} {ls : List Place} {tokens : List Token}
      (h : l.node.StandsFor t token) (hstart : l.start = token.start) (hstop : l.stop = token.stop)
      (hls : Spells t ls tokens) : Spells t (l :: ls) (token :: tokens)
  | missing {l : Place} {ls : List Place} {tokens : List Token} (h : l.node.isMissing = true)
      (hsize : l.node.size = 0) (hls : Spells t ls tokens) : Spells t (l :: ls) tokens

namespace Table

variable {t : Table} {ns : List Node} {tokens more : List Token}

theorem Spells.append {ls ms : List Place} (h : t.Spells ls tokens) (h' : t.Spells ms more) :
    t.Spells (ls ++ ms) (tokens ++ more) := by
  induction h with
  | nil => exact h'
  | token h hstart hstop _ ih => exact .token h hstart hstop ih
  | missing h hsize _ ih => exact .missing h hsize ih

/-- **The childless places of a row spell its tokens.** -/
theorem Reads.spells (h : t.Reads ns tokens) : ∀ (p : Place) {start index : Nat},
    Tiles start tokens →
      t.Spells ((p.childrenFrom start index ns).flatMap Place.leaves) tokens := by
  induction h with
  | nil => exact fun _ _ _ _ => .nil
  | @token n x ns tokens h _ ih =>
    intro p start index htiles
    obtain ⟨hstart, hstop, htiles⟩ := htiles
    rw [Place.childrenFrom, List.flatMap_cons, Place.leaves_of_childless h.children, h.size]
    refine .token h hstart.symm ?_ (ih p htiles)
    show start + n.size = x.stop
    rw [h.size, hstop]
  | missing _ ih =>
    intro p start index htiles
    rw [Place.childrenFrom, List.flatMap_cons, Place.leaves_of_childless rfl, Node.size,
      Node.measure_missing]
    exact .missing rfl (congrArg Measure.size (Node.measure_missing _ _ _)) (ih p htiles)
  | @inner n ns inside tokens hne hn _ _ ihn ih =>
    intro p start index htiles
    obtain ⟨hinside, htiles⟩ := tiles_append.mp htiles
    rw [Place.childrenFrom, List.flatMap_cons, Place.leaves_of_children hne]
    refine (ihn _ hinside).append (ih p ?_)
    rwa [hn.size hne]

/-- The node itself begins with the first token that it reads and ends with the last one. -/
theorem Reads.bounded_self {n : Node} {inside : List Token} (h : t.Reads n.children inside)
    (hne : n.children ≠ []) (htrim : Trimmed inside) {p : Place} (hnode : p.node = n)
    (htiles : Tiles p.start inside) (hcount : n.tokenCount ≠ 0) : p.BoundedBy inside := by
  have htokens : n.tokenCount = inside.countP (!·.isTrivia) :=
    (Node.measure_of_children hne).2.trans h.measure.2
  have hsome : inside ≠ [] := fun hnil => hcount (htokens.trans (by rw [hnil]; rfl))
  obtain ⟨x, rest, rfl⟩ := List.exists_cons_of_ne_nil hsome
  obtain ⟨z, hz⟩ := Option.isSome_iff_exists.mp (List.getLast?_isSome.mpr hsome)
  refine ⟨⟨x, List.mem_cons_self, htrim.1 x rfl, htiles.1.symm⟩, z, List.mem_of_getLast? hz,
    htrim.2 z hz, ?_⟩
  show p.start + p.node.size = z.stop
  rw [htiles.stop_of_getLast? hz, hnode, h.size hne]

/-- **A node that holds a token begins where one begins and ends where one ends.** -/
theorem Reads.bounded (h : t.Reads ns tokens) : ∀ (p : Place) {start index : Nat},
    Tiles start tokens → ∀ d ∈ (p.childrenFrom start index ns).flatMap Place.descendants,
      d.node.isTrivia = false → d.node.tokenCount ≠ 0 → d.BoundedBy tokens := by
  induction h with
  | nil => exact fun _ _ _ _ d hd => absurd hd List.not_mem_nil
  | @token n x ns tokens h _ ih =>
    intro p start index htiles d hd htrivia hcount
    obtain ⟨hstart, hstop, htiles⟩ := htiles
    rw [Place.childrenFrom, List.flatMap_cons, Place.descendants_eq] at hd
    unfold Place.children at hd
    rw [h.children] at hd
    rcases List.mem_cons.mp hd with rfl | hd
    · have hx : x.isTrivia = false := h.isTrivia.symm.trans htrivia
      refine ⟨⟨x, List.mem_cons_self, hx, hstart.symm⟩, x, List.mem_cons_self, hx, ?_⟩
      show start + n.size = x.stop
      rw [h.size, hstop]
    · rw [h.size] at hd
      exact (ih p htiles d hd htrivia hcount).mono fun _ => List.mem_cons_of_mem _
  | missing _ ih =>
    intro p start index htiles d hd htrivia hcount
    rw [Place.childrenFrom, List.flatMap_cons, Place.descendants_eq] at hd
    rcases List.mem_cons.mp hd with rfl | hd
    · exact absurd (congrArg Measure.tokens (Node.measure_missing _ _ _)) hcount
    · rw [Node.size, Node.measure_missing] at hd
      exact ih p htiles d hd htrivia hcount
  | @inner n ns inside tokens hne hn htrim _ ihn ih =>
    intro p start index htiles d hd htrivia hcount
    obtain ⟨hinside, htiles⟩ := tiles_append.mp htiles
    rw [Place.childrenFrom, List.flatMap_cons, Place.descendants_eq] at hd
    rcases List.mem_append.mp hd with hd | hd
    · refine Place.BoundedBy.mono (fun _ => List.mem_append_left _) ?_
      rcases List.mem_cons.mp hd with rfl | hd
      · exact hn.bounded_self hne htrim rfl hinside hcount
      · exact ihn _ hinside d hd htrivia hcount
    · rw [hn.size hne] at hd
      exact (ih p htiles d hd htrivia hcount).mono fun _ => List.mem_append_right _

end Table

end LayeredSyntax
