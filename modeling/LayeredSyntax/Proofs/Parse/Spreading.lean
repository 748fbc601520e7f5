/-
  SPREADING — from the pieces of a tree to all nodes in it.

  A node of a tree begins at a position: behind as many tokens as stand in front of it
  (`Node.FoundIn`).  If something holds of every node in a piece, at the position at which the node
  begins, then it holds of every node in what is assembled from such pieces, as far as it holds of
  the nodes that were not there before: of trivia, of tokens that were skipped and of error regions
  (`ParseJob.assemble_spread`).
-/
import LayeredSyntax.Proofs.Parse.Assembling
import LayeredSyntax.Proofs.Tree.Regions

namespace LayeredSyntax

namespace Node

/-- **A node somewhere in a row of nodes**, with the tokens in front of it. -/
inductive FoundIn : List Node → Nat → Node → Prop where
  | here {n : Node} {ns : List Node} : FoundIn (n :: ns) 0 n
  | inside {n d : Node} {ns : List Node} {t : Nat} (h : FoundIn n.children t d) :
    FoundIn (n :: ns) t d
  | next {n d : Node} {ns : List Node} {t : Nat} (h : FoundIn ns t d) :
    FoundIn (n :: ns) (n.tokenCount + t) d

/-- **Whether a row of nodes covers the tokens from one position up to before another one**, and
    something holds of every node in it at the position at which the node begins. -/
structure Spread (P : Nat → Node → Prop) (first stop : Nat) (ns : List Node) : Prop where
  tokens : first + tokensOf ns = stop
  found : ∀ t d, FoundIn ns t d → P (first + t) d

variable {P Q : Nat → Node → Prop} {n d : Node} {ns ms out : List Node} {t first stop p : Nat}

theorem not_foundIn_nil : ¬ FoundIn [] t d := nofun

/-- **Nodes in rows one behind the other.** -/
theorem foundIn_append (h : FoundIn (ns ++ ms) t d) :
    FoundIn ns t d ∨ ∃ t', t = tokensOf ns + t' ∧ FoundIn ms t' d := by
  induction ns generalizing t with
  | nil => exact .inr ⟨t, (Nat.zero_add t).symm, h⟩
  | cons n ns ih =>
    cases h with
    | here => exact .inl .here
    | inside h => exact .inl (.inside h)
    | next h =>
      rcases ih h with hfront | ⟨t', rfl, hback⟩
      · exact .inl (.next hfront)
      · exact .inr ⟨t', (Nat.add_assoc ..).symm, hback⟩

/-- A node that is found in the first row is found in both. -/
theorem FoundIn.append_left (h : FoundIn ns t d) (ms : List Node) : FoundIn (ns ++ ms) t d := by
  induction h with
  | here => exact .here
  | inside h => exact .inside h
  | next _ ih => exact .next ih

theorem FoundIn.append_right (h : FoundIn ms t d) (ns : List Node) :
    FoundIn (ns ++ ms) (tokensOf ns + t) d := by
  induction ns with
  | nil =>
    show FoundIn ms (0 + t) d
    rwa [Nat.zero_add]
  | cons n ns ih =>
    rw [tokensOf_cons, Nat.add_assoc]
    exact .next ih

/-- **A node ends within its row.** -/
theorem FoundIn.tokenCount_le (h : FoundIn ns t d) : t + d.tokenCount ≤ tokensOf ns := by
  induction h with
  | @here n ns =>
    rw [tokensOf_cons]
    omega
  | @inside n d ns t h ih =>
    have hne : n.children ≠ [] := by
      intro hnil
      rw [hnil] at h
      exact not_foundIn_nil h
    rw [← tokenCount_of_children hne] at ih
    rw [tokensOf_cons]
    omega
  | @next n d ns t _ ih =>
    rw [tokensOf_cons]
    omega

/-- Opening hidden nodes shows no node that was not there. -/
theorem foundIn_showOnto (c : Composite) (out ns : List Node)
    (h : FoundIn (c.showOnto out ns).reverse t d) : FoundIn (out.reverse ++ ns) t d := by
  fun_induction Composite.showOnto c out ns with
  | case1 out => rwa [List.append_nil]
  | case2 out n rest hhides ih =>
    obtain ⟨_, htokens, _⟩ := counts_of_hides hhides
    rcases foundIn_append (ih h) with hfront | ⟨t', rfl, hback⟩
    · exact hfront.append_left _
    · refine FoundIn.append_right ?_ _
      rcases foundIn_append hback with hinner | ⟨t'', rfl, hrest⟩
      · exact .inside hinner
      · rw [← htokens]
        exact .next hrest
  | case3 out n rest _ ih =>
    have h' := ih h
    rw [List.reverse_cons, List.append_assoc] at h'
    exact h'

/-! ## Rows of which something holds -/

theorem Spread.mono (h : Spread P first stop ns)
    (hPQ : ∀ t d, first ≤ t → t + d.tokenCount ≤ stop → P t d → Q t d) :
    Spread Q first stop ns := by
  refine ⟨h.tokens, fun t d hd => hPQ _ d (Nat.le_add_right _ _) ?_ (h.found t d hd)⟩
  have hle := hd.tokenCount_le
  have htokens := h.tokens
  omega

theorem spread_nil (P : Nat → Node → Prop) (p : Nat) : Spread P p p [] :=
  ⟨rfl, fun _ _ hd => absurd hd not_foundIn_nil⟩

theorem Spread.append (h : Spread P first p ns) (h' : Spread P p stop ms) :
    Spread P first stop (ns ++ ms) := by
  obtain ⟨rfl, hfound⟩ := h
  obtain ⟨rfl, hfound'⟩ := h'
  refine ⟨by rw [tokensOf_append, Nat.add_assoc], fun t d hd => ?_⟩
  rcases foundIn_append hd with hfront | ⟨t', rfl, hback⟩
  · exact hfound t d hfront
  · rw [← Nat.add_assoc]
    exact hfound' t' d hback

/-- **A node over a row**, of which the same holds. -/
theorem Spread.node (h : Spread P first stop n.children)
    (hcount : n.tokenCount = tokensOf n.children) (hn : P first n) : Spread P first stop [n] := by
  refine ⟨?_, fun t d hd => ?_⟩
  · show first + (n.tokenCount + 0) = stop
    rw [Nat.add_zero, hcount, h.tokens]
  · cases hd with
    | here => exact hn
    | inside hd => exact h.found t d hd
    | next hd => exact absurd hd not_foundIn_nil

/-- A node without children. -/
theorem spread_childless (hn : P first n) (hchildren : n.children = [])
    (htokens : first + n.tokenCount = stop) : Spread P first stop [n] := by
  refine ⟨htokens, fun t d hd => ?_⟩
  cases hd with
  | here => exact hn
  | inside hd =>
    rw [hchildren] at hd
    exact absurd hd not_foundIn_nil
  | next hd => exact absurd hd not_foundIn_nil

theorem Spread.showOnto (c : Composite) (h : Spread P first stop (out.reverse ++ ns)) :
    Spread P first stop (c.showOnto out ns).reverse :=
  ⟨by rw [(counts_showOnto c out ns).1, h.tokens],
    fun t d hd => h.found t d (foundIn_showOnto c out ns hd)⟩

/-- Something that holds of all nodes that are no rules holds of trivia. -/
theorem spread_trivia (hP : ∀ t n, n.before? = none → P t n) (p : Nat) (tokens : List Token) :
    Spread P p p (tokens.map fun x => .trivia x.kind x.size) := by
  induction tokens with
  | nil => exact spread_nil P p
  | cons x tokens ih =>
    have hone : Spread P p p [.trivia x.kind x.size] := by
      refine spread_childless (hP _ _ rfl) rfl ?_
      unfold Node.tokenCount
      rw [Node.measure]
      rfl
    exact hone.append ih

/-- An error region counts what is in it. -/
theorem tokenCount_error (cs : List Node) : (Node.error cs).tokenCount = tokensOf cs := by
  cases cs with
  | nil =>
    unfold Node.tokenCount
    rw [Node.measure]
    rfl
  | cons c cs => exact tokenCount_of_children (List.cons_ne_nil c cs)

end Node

namespace ParseJob

open Node

variable {j : ParseJob} {regions : Regions} {P : Nat → Node → Prop} {pieces : List Label}
  {out : List Node} {opens : Bool} {low high first stop p : Nat}

/-- **Pieces between two positions** of whose nodes something holds. -/
def Strewn (P : Nat → Node → Prop) (p high : Nat) : List Label → Prop
  | [] => p ≤ high
  | piece :: rest => p ≤ piece.first ∧ piece.first ≤ piece.stop ∧
      Spread P piece.first piece.stop [piece.node] ∧ Strewn P piece.stop high rest

theorem Strewn.le (h : Strewn P p high pieces) : p ≤ high := by
  induction pieces generalizing p with
  | nil => exact h
  | cons piece rest ih =>
    obtain ⟨hp, hpiece, _, hrest⟩ := h
    have := ih hrest
    omega

theorem Strewn.append {q : Nat} {front back : List Label} (h : Strewn P p q front)
    (h' : Strewn P q high back) : Strewn P p high (front ++ back) := by
  induction front generalizing p with
  | nil =>
    cases back with
    | nil => exact Nat.le_trans h h'
    | cons piece rest => exact ⟨Nat.le_trans h h'.1, h'.2⟩
  | cons piece rest ih =>
    obtain ⟨hp, hpiece, hspread, hrest⟩ := h
    exact ⟨hp, hpiece, hspread, ih hrest⟩

/-- **What holds of the nodes in the regions that were left behind.** -/
def RegionsSpread (P : Nat → Node → Prop) (j : ParseJob) (regions : Regions) : Prop :=
  ∀ r ∈ regions, r.first < r.stop → r.stop ≤ j.finish → Spread P r.first r.stop [r.node]

variable (hP : ∀ t n, n.before? = none → P t n) (hregular : j.tokens.Regular)

include hP in
theorem spread_triviaOnto (h : Spread P low p out.reverse) (q : Nat) :
    Spread P low p (j.triviaOnto q out).reverse := by
  rw [reverse_triviaOnto]
  exact h.append (spread_trivia hP p _)

include hP in
/-- The same where the trivia is added on some condition only. -/
theorem spread_led {b : Prop} [Decidable b] (h : Spread P low p out.reverse) (q : Nat) :
    Spread P low p (if b then j.triviaOnto q out else out).reverse := by
  split
  · exact spread_triviaOnto hP h q
  · exact h

include hP hregular in
theorem spread_skipped (hp : p < j.finish) : Spread P p (p + 1) [j.skippedNode p] := by
  obtain ⟨token, htoken, _⟩ := hregular.token p hp
  unfold skippedNode
  rw [htoken]
  refine spread_childless (hP _ _ rfl) rfl ?_
  unfold Node.tokenCount
  rw [Node.measure]

include hP hregular in
theorem contentOnto_spread (hr : j.RegionsSpread P regions) (hle : p ≤ stop)
    (hstop : stop ≤ j.finish) (hout : Spread P low p out.reverse) :
    Spread P low stop (j.contentOnto regions first stop p out).reverse := by
  fun_induction contentOnto j regions first stop p out with
  | case1 p out hlt out' r hat hfits ih =>
    obtain ⟨hmem, rfl⟩ := mem_of_at? hat
    refine ih hfits.2 ?_
    rw [List.reverse_cons]
    exact (spread_led hP hout r.first).append (hr r hmem hfits.1 (by omega))
  | case2 p out hlt out' r hat hnot ih =>
    refine ih hlt ?_
    rw [List.reverse_cons]
    exact (spread_led hP hout p).append (spread_skipped hP hregular (by omega))
  | case3 p out hlt out' hat ih =>
    refine ih hlt ?_
    rw [List.reverse_cons]
    exact (spread_led hP hout p).append (spread_skipped hP hregular (by omega))
  | case4 p out hnot =>
    obtain rfl : p = stop := by omega
    exact hout

include hP hregular in
theorem fillGap_spread (hr : j.RegionsSpread P regions) (hlt : first < stop)
    (hstop : stop ≤ j.finish) {a : Assembled} (ha : Spread P low first a.children) :
    Spread P low stop (j.fillGap regions low first stop a).children := by
  obtain ⟨filling, hfilling, hchildren⟩ := exists_filling j regions low first stop
  rw [hchildren]
  refine (spread_led hP ha first).append ?_
  obtain ⟨r, hmem, rfl, rfl, rfl⟩ | rfl := hfilling
  · exact hr r hmem hlt hstop
  · have hcontent : Spread P first stop (j.contentOnto regions first stop first []).reverse :=
      contentOnto_spread hP hregular hr (Nat.le_of_lt hlt) hstop (spread_nil P first)
    exact Spread.node hcontent (tokenCount_error _) (hP _ _ rfl)

include hP hregular in
/-- **Assembling pieces** of whose nodes something holds. -/
theorem assembleFrom_spread (hr : j.RegionsSpread P regions) (hhigh : high ≤ j.finish) :
    ∀ {p : Nat} {a : Assembled}, Strewn P p high pieces → Spread P low p a.children →
      Spread P low high (j.assembleFrom regions opens low high p a pieces).children := by
  induction pieces with
  | nil =>
    intro p a hstrewn ha
    have hle : p ≤ high := hstrewn
    unfold assembleFrom
    split
    · next hlt => exact fillGap_spread hP hregular hr hlt hhigh ha
    · next hnot =>
      obtain rfl : p = high := by omega
      exact ha
  | cons piece rest ih =>
    intro p a hstrewn ha
    obtain ⟨hp, hpiece, hspread, hrest⟩ := hstrewn
    have hle := hrest.le
    have hmax : max (max p piece.first) piece.stop = piece.stop := by omega
    unfold assembleFrom
    dsimp only
    rw [hmax]
    refine ih hrest ?_
    -- First the gap in front of the piece, then its trivia, then the piece itself.
    have hfront : Spread P low piece.first
        (if p < piece.first then j.fillGap regions low p piece.first a else a).children := by
      split
      · next hlt => exact fillGap_spread hP hregular hr hlt (by omega) ha
      · next hnot =>
        obtain rfl : p = piece.first := by omega
        exact ha
    generalize (if p < piece.first then j.fillGap regions low p piece.first a else a) = b
      at hfront ⊢
    unfold Assembled.children
    dsimp only
    split
    · exact ((spread_led hP hfront piece.first).append hspread).showOnto j.table.toComposite
    · rw [List.reverse_cons]
      exact (spread_led hP hfront piece.first).append hspread

include hP hregular in
/-- **The children of a node over pieces** of whose nodes something holds. -/
theorem assemble_spread (hr : j.RegionsSpread P regions) (hhigh : high ≤ j.finish)
    (hstrewn : Strewn P low high pieces) :
    Spread P low high (j.assemble regions opens low high pieces).children :=
  assembleFrom_spread hP hregular hr hhigh hstrewn (spread_nil P low)

include hP hregular in
/-- **The whole tree** over pieces of whose nodes something holds. -/
theorem assembleRoot_spread (hr : j.RegionsSpread P regions)
    (hstrewn : Strewn P 0 j.finish pieces) :
    ∀ t d, FoundIn [(j.assembleRoot regions pieces).1] t d → P t d := by
  have hfront : Spread P 0 0 (j.triviaOnto 0 []).reverse :=
    spread_triviaOnto hP (spread_nil P 0) 0
  have hchildren : Spread P 0 j.finish (j.assembleRoot regions pieces).1.children ∧
      (j.assembleRoot regions pieces).1.before? = none := by
    unfold assembleRoot
    dsimp only
    split
    · next hfinish =>
      rw [hfinish]
      exact ⟨hfront, rfl⟩
    · refine ⟨spread_triviaOnto hP ?_ j.finish, rfl⟩
      rw [List.reverse_append]
      exact hfront.append (assemble_spread hP hregular hr (Nat.le_refl _) hstrewn)
  intro t d hd
  cases hd with
  | here => exact hP _ _ hchildren.2
  | inside hd =>
    have hfound := hchildren.1.found t d hd
    rwa [Nat.zero_add] at hfound
  | next hd => exact absurd hd not_foundIn_nil

end ParseJob

end LayeredSyntax
