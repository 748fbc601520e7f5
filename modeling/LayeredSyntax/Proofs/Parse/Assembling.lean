/-
  PUTTING TREES TOGETHER — no token is lost, and none comes twice.

  Whatever is put together over some positions reads the stretch between these positions.  Every
  step of the assembly goes on from one position to a later one: it adds the trivia in front of what
  comes next, unless this is the very beginning, and then what comes next (`Reads.next`).

  1. PIECES fit between two positions when they ascend and each reads its own stretch (`Fits`).
     They may leave positions out.
  2. A gap is filled with what reads just the stretch left out (`fillGap_reads`), whether a region
     that was left behind fits there or not.
  3. **A node over pieces that fit reads the stretch from where they begin to where they end**
     (`assemble_reads`), and the root reads everything (`assembleRoot_reads`).
-/
import LayeredSyntax.Parse.Assembly
import LayeredSyntax.Proofs.Token.Streams
import LayeredSyntax.Proofs.Tree.Reading

namespace LayeredSyntax

namespace Table

variable {t : Table} {ns out : List Node} {tokens more : List Token}

theorem Reads.ne_nil (h : t.Reads ns tokens) (hne : tokens ≠ []) : ns ≠ [] := by
  rintro rfl
  cases h
  exact hne rfl

/-- What a node with children in front of others reads. -/
theorem Reads.of_inner {n : Node} (hne : n.children ≠ []) (h : t.Reads (n :: ns) tokens) :
    t.Reads (n.children ++ ns) tokens := by
  cases h with
  | token h => exact absurd h.children hne
  | missing => exact absurd rfl hne
  | inner _ hn _ hns => exact hn.append hns

/-- Every hidden node of a row has children. -/
theorem Reads.children_of_hides {n : Node} (hhides : t.hides n = true)
    (h : t.Reads (n :: ns) tokens) : n.children ≠ [] := by
  cases n with
  | rule =>
    cases h with
    | token h => exact h.elim
    | inner hne => exact hne
  | leaf | trivia | skipped | missing | error | root => cases hhides

/-- **Opening hidden nodes changes nothing of what is read.** -/
theorem Reads.showOnto (hout : t.Reads out.reverse more) (h : t.Reads ns tokens) :
    t.Reads (t.showOnto out ns).reverse (more ++ tokens) := by
  fun_induction Composite.showOnto t.toComposite out ns generalizing more tokens with
  | case1 out =>
    cases h
    rwa [List.append_nil]
  | case2 out n rest hhides ih => exact ih hout (h.of_inner (h.children_of_hides hhides))
  | case3 out n rest _ ih =>
    obtain ⟨front, back, rfl, hn, hrest⟩ :
        ∃ front back, tokens = front ++ back ∧ t.Reads [n] front ∧ t.Reads rest back := by
      cases h with
      | token h hns => exact ⟨[_], _, rfl, .single h, hns⟩
      | missing hns => exact ⟨[], _, rfl, .missing .nil, hns⟩
      | inner hne hn htrim hns => exact ⟨_, _, rfl, .node hne hn htrim, hns⟩
    rw [← List.append_assoc]
    refine ih ?_ hrest
    rw [List.reverse_cons]
    exact hout.append hn

/-- Something is shown wherever there was something. -/
theorem Reads.showOnto_ne_nil (h : t.Reads ns tokens) (hne : out ≠ [] ∨ ns ≠ []) :
    t.showOnto out ns ≠ [] := by
  fun_induction Composite.showOnto t.toComposite out ns generalizing tokens with
  | case1 out => exact hne.resolve_right fun h => h rfl
  | case2 out n rest hhides ih =>
    have hchildren := h.children_of_hides hhides
    exact ih (h.of_inner hchildren) (.inr (List.append_ne_nil_of_left_ne_nil hchildren _))
  | case3 out n rest _ ih =>
    cases h with
    | token _ hns => exact ih hns (.inl (List.cons_ne_nil _ _))
    | missing hns => exact ih hns (.inl (List.cons_ne_nil _ _))
    | inner _ _ _ hns => exact ih hns (.inl (List.cons_ne_nil _ _))

end Table

namespace ParseJob

variable {j : ParseJob} {p low high first stop : Nat} {out more : List Node} {regions : Regions}
  {pieces : List Label} {opens : Bool}

/-! ## From one position to a later one -/

theorem trimmed_stretch (h : j.tokens.Regular) (hle : stop ≤ j.finish) :
    Trimmed (j.tokens.stretch first stop) := by
  rcases Nat.lt_or_ge first stop with hlt | hge
  · have htoken : ∀ p x, p < j.finish → x ∈ j.tokens.get? p → x.isTrivia = false := by
      intro p x hp hx
      obtain ⟨x', hx', _, htrivia⟩ := h.token p hp
      obtain rfl : x = x' := Option.some.inj ((Option.mem_def.mp hx).symm.trans hx')
      exact htrivia
    refine ⟨fun x hx => ?_, fun x hx => ?_⟩
    · rw [h.head?_stretch hlt hle] at hx
      exact htoken _ x (by omega) hx
    · rw [h.getLast?_stretch hlt hle] at hx
      exact htoken _ x (by omega) hx
  · have hnil : j.tokens.stretch first stop = [] := if_neg (Nat.not_lt.mpr hge)
    rw [hnil]
    exact ⟨fun x hx => absurd hx (by simp), fun x hx => absurd hx (by simp)⟩

theorem reverse_triviaOnto (j : ParseJob) (p : Nat) (out : List Node) :
    (j.triviaOnto p out).reverse =
      out.reverse ++ (j.tokens.lead p).map fun x => .trivia x.kind x.size := by
  have hfold : ∀ (tokens : List Token) (out : List Node),
      (tokens.foldl (fun out x => .trivia x.kind x.size :: out) out).reverse =
        out.reverse ++ tokens.map fun x => .trivia x.kind x.size := by
    intro tokens
    induction tokens with
    | nil => exact fun out => (List.append_nil _).symm
    | cons x tokens ih =>
      intro out
      rw [List.foldl_cons, ih, List.reverse_cons, List.append_assoc]
      rfl
  unfold triviaOnto
  rw [hfold, TokenStream.triviaBefore_eq]

theorem reads_lead (h : j.tokens.Regular) (hp : p ≤ j.finish) :
    j.table.Reads ((j.tokens.lead p).map fun x => .trivia x.kind x.size) (j.tokens.lead p) :=
  .trivia fun _ hx => h.isTrivia_of_mem_lead hp hx

/-- **From one position on to a later one**: the trivia in front, unless this is the very beginning,
    and then what comes next. -/
theorem reads_next (h : j.tokens.Regular) (hlow : low ≤ p) (hlt : p < stop) (hle : stop ≤ j.finish)
    (hout : j.table.Reads out.reverse (j.tokens.stretch low p))
    (hmore : j.table.Reads more (j.tokens.stretch p stop)) :
    j.table.Reads ((if low < p then j.triviaOnto p out else out).reverse ++ more)
      (j.tokens.stretch low stop) := by
  split
  · next hin =>
    rw [reverse_triviaOnto, ← h.stretch_append hin hlt hle]
    exact (hout.append (reads_lead h (by omega))).append hmore
  · next hnot =>
    obtain rfl : low = p := by omega
    rw [TokenStream.stretch_self] at hout
    exact hout.append hmore

/-- A token that is skipped reads itself. -/
theorem reads_skipped (h : j.tokens.Regular) (hp : p < j.finish) :
    j.table.Reads [j.skippedNode p] (j.tokens.stretch p (p + 1)) := by
  obtain ⟨x, hx, _, htrivia⟩ := h.token p hp
  unfold skippedNode
  rw [h.stretch_succ hx hp, hx]
  exact .single ⟨htrivia, rfl, rfl⟩

/-! ## Gaps -/

/-- Whether the regions left behind read what they stand for. -/
def RegionsRead (j : ParseJob) (regions : Regions) : Prop :=
  ∀ r ∈ regions, r.first < r.stop → j.table.Reads [r.node] (j.tokens.stretch r.first r.stop)

theorem mem_of_at? {r : Region} (h : regions.at? p = some r) : r ∈ regions ∧ r.first = p := by
  have hfound : (r.first == p) = true := by simpa using List.find?_some h
  exact ⟨List.mem_of_find?_eq_some h, eq_of_beq hfound⟩

theorem contentOnto_reads (h : j.tokens.Regular) (hr : j.RegionsRead regions)
    (hfirst : first ≤ p) (hle : p ≤ stop) (hstop : stop ≤ j.finish)
    (hout : j.table.Reads out.reverse (j.tokens.stretch first p)) :
    j.table.Reads (j.contentOnto regions first stop p out).reverse
      (j.tokens.stretch first stop) := by
  fun_induction contentOnto j regions first stop p out with
  | case1 p out hlt out' r hat hfits ih =>
    obtain ⟨hmem, rfl⟩ := mem_of_at? hat
    refine ih (by omega) hfits.2 ?_
    rw [List.reverse_cons]
    exact reads_next h hfirst hfits.1 (by omega) hout (hr r hmem hfits.1)
  | case2 p out hlt out' r hat hnot ih =>
    refine ih (by omega) hlt ?_
    rw [List.reverse_cons]
    exact reads_next h hfirst (Nat.lt_succ_self p) (by omega) hout (reads_skipped h (by omega))
  | case3 p out hlt out' hat ih =>
    refine ih (by omega) hlt ?_
    rw [List.reverse_cons]
    exact reads_next h hfirst (Nat.lt_succ_self p) (by omega) hout (reads_skipped h (by omega))
  | case4 p out hnot =>
    obtain rfl : p = stop := by omega
    exact hout

/-- **What a gap is filled with** goes behind the trivia in front of it: the region that was left
    behind there, or else a new one over what was left out. -/
theorem exists_filling (j : ParseJob) (regions : Regions) (low first stop : Nat) :
    ∃ filling, ((∃ r ∈ regions, r.first = first ∧ r.stop = stop ∧ r.node = filling) ∨
        filling = .error (j.contentOnto regions first stop first []).reverse) ∧
      ∀ a : Assembled, (j.fillGap regions low first stop a).children =
        (if low < first then j.triviaOnto first a.reversed else a.reversed).reverse ++
          [filling] := by
  unfold fillGap Assembled.children
  dsimp only
  split
  · next r hfound =>
    obtain ⟨hat, hend⟩ := Option.filter_eq_some_iff.mp hfound
    obtain ⟨hmem, hfirst⟩ := mem_of_at? hat
    exact ⟨r.node, .inl ⟨r, hmem, hfirst, eq_of_beq hend, rfl⟩, fun a => List.reverse_cons⟩
  · exact ⟨_, .inr rfl, fun a => List.reverse_cons⟩

/-- **A gap is filled with what was left out.** -/
theorem fillGap_reads (h : j.tokens.Regular) (hr : j.RegionsRead regions) (hlow : low ≤ first)
    (hlt : first < stop) (hstop : stop ≤ j.finish) {a : Assembled}
    (ha : j.table.Reads a.children (j.tokens.stretch low first)) :
    j.table.Reads (j.fillGap regions low first stop a).children (j.tokens.stretch low stop) := by
  obtain ⟨filling, hfilling, hchildren⟩ := exists_filling j regions low first stop
  rw [hchildren]
  refine reads_next h hlow hlt hstop ha ?_
  obtain ⟨r, hmem, rfl, rfl, rfl⟩ | rfl := hfilling
  · exact hr r hmem hlt
  · have hcontent : j.table.Reads (j.contentOnto regions first stop first []).reverse
        (j.tokens.stretch first stop) := by
      refine contentOnto_reads h hr (Nat.le_refl _) (Nat.le_of_lt hlt) hstop ?_
      rw [TokenStream.stretch_self]
      exact .nil
    have hsome := h.stretch_ne_nil hlt hstop
    exact .node (hcontent.ne_nil hsome) hcontent (trimmed_stretch h hstop)

/-! ## Pieces -/

/-- **Pieces that fit between two positions.** -/
def Fits (j : ParseJob) (p high : Nat) : List Label → Prop
  | [] => p ≤ high
  | piece :: rest => p ≤ piece.first ∧ piece.first ≤ piece.stop ∧
      j.table.Reads [piece.node] (j.tokens.stretch piece.first piece.stop) ∧
      j.Fits piece.stop high rest

theorem Fits.le (hfits : j.Fits p high pieces) : p ≤ high := by
  induction pieces generalizing p with
  | nil => exact hfits
  | cons piece rest ih =>
    obtain ⟨hp, hpiece, _, hrest⟩ := hfits
    have := ih hrest
    omega

theorem Fits.mono {q : Nat} (hqp : q ≤ p) (hfits : j.Fits p high pieces) :
    j.Fits q high pieces := by
  cases pieces with
  | nil => exact Nat.le_trans hqp hfits
  | cons piece rest => exact ⟨Nat.le_trans hqp hfits.1, hfits.2⟩

theorem Fits.append {q : Nat} {front back : List Label} (hfront : j.Fits p q front)
    (hback : j.Fits q high back) : j.Fits p high (front ++ back) := by
  induction front generalizing p with
  | nil => exact hback.mono hfront
  | cons piece rest ih =>
    obtain ⟨hp, hpiece, hreads, hrest⟩ := hfront
    exact ⟨hp, hpiece, hreads, ih hrest⟩

/-- Tokens that are skipped fit where they are. -/
theorem fits_skippedPieces (h : j.tokens.Regular) (hle : first ≤ stop) (hstop : stop ≤ j.finish) :
    j.Fits first stop (j.skippedPieces first stop) := by
  unfold skippedPieces
  obtain ⟨n, rfl⟩ := Nat.exists_eq_add_of_le hle
  rw [Nat.add_sub_cancel_left]
  clear hle
  induction n generalizing first with
  | zero => exact Nat.le_refl _
  | succ n ih =>
    rw [List.range'_succ, List.map_cons]
    refine ⟨Nat.le_refl _, Nat.le_succ _, reads_skipped h (by omega), ?_⟩
    have hnext := @ih (first + 1) (by omega)
    rwa [Nat.add_assoc, Nat.add_comm 1 n] at hnext

/-- What is assembled up to a piece, with the gap in front of it. -/
theorem gapped_reads (h : j.tokens.Regular) (hr : j.RegionsRead regions) {p first : Nat}
    {a : Assembled} (hlow : low ≤ p) (hp : p ≤ first) (hfirst : first ≤ j.finish)
    (ha : j.table.Reads a.children (j.tokens.stretch low p)) :
    j.table.Reads (if p < first then j.fillGap regions low p first a else a).children
      (j.tokens.stretch low first) := by
  split
  · next hlt => exact fillGap_reads h hr hlow hlt hfirst ha
  · next hnot =>
    obtain rfl : p = first := Nat.le_antisymm hp (Nat.not_lt.mp hnot)
    exact ha

/-- The same with the trivia in front of the piece; what the piece reads goes on from there. -/
theorem led_reads (h : j.tokens.Regular) {first stop : Nat} {b : Assembled} (hlow : low ≤ first)
    (hpiece : first ≤ stop) (hstop : stop ≤ j.finish)
    (hb : j.table.Reads b.children (j.tokens.stretch low first)) :
    ∃ tokens, j.table.Reads (if (decide (first < stop) && decide (low < first)) = true then
        j.triviaOnto first b.reversed else b.reversed).reverse tokens ∧
      tokens ++ j.tokens.stretch first stop = j.tokens.stretch low stop := by
  rcases Nat.lt_or_eq_of_le hpiece with hlt | rfl
  · rcases Nat.lt_or_eq_of_le hlow with hin | rfl
    · rw [if_pos (by simp [hlt, hin]), reverse_triviaOnto]
      exact ⟨_, hb.append (reads_lead h (by omega)), h.stretch_append hin hlt hstop⟩
    · rw [if_neg (by simp)]
      refine ⟨_, hb, ?_⟩
      rw [TokenStream.stretch_self]
      rfl
  · rw [if_neg (by simp)]
    refine ⟨_, hb, ?_⟩
    rw [TokenStream.stretch_self, List.append_nil]

/-- **Assembling pieces goes on from the stretch that has been assembled to all of it.** -/
theorem assembleFrom_reads (h : j.tokens.Regular) (hr : j.RegionsRead regions)
    (hhigh : high ≤ j.finish) : ∀ {p : Nat} {a : Assembled}, low ≤ p → j.Fits p high pieces →
      j.table.Reads a.children (j.tokens.stretch low p) →
      j.table.Reads (j.assembleFrom regions opens low high p a pieces).children
        (j.tokens.stretch low high) := by
  induction pieces with
  | nil =>
    intro p a hlow hle ha
    unfold assembleFrom
    exact gapped_reads h hr hlow hle hhigh ha
  | cons piece rest ih =>
    intro p a hlow hfits ha
    obtain ⟨hp, hpiece, hreads, hrest⟩ := hfits
    have hstop := Nat.le_trans hrest.le hhigh
    have hmax : max (max p piece.first) piece.stop = piece.stop := by omega
    unfold assembleFrom
    dsimp only
    rw [hmax]
    refine ih (by omega) hrest ?_
    have hfront := gapped_reads h hr hlow hp (Nat.le_trans hpiece hstop) ha
    generalize (if p < piece.first then j.fillGap regions low p piece.first a else a) = b
      at hfront ⊢
    obtain ⟨tokens, hled, htokens⟩ := led_reads h (Nat.le_trans hlow hp) hpiece hstop hfront
    rw [← htokens]
    unfold Assembled.children
    dsimp only
    split
    · exact hled.showOnto hreads
    · rw [List.reverse_cons]
      exact hled.append hreads

/-- Something is assembled wherever there are pieces. -/
theorem assembleFrom_ne_nil : ∀ {p : Nat} {a : Assembled}, j.Fits p high pieces →
    a.reversed ≠ [] ∨ pieces ≠ [] →
      (j.assembleFrom regions opens low high p a pieces).reversed ≠ [] := by
  induction pieces with
  | nil =>
    intro p a _ hne
    unfold assembleFrom fillGap
    dsimp only
    split
    · split <;> exact List.cons_ne_nil _ _
    · exact hne.resolve_right fun h => h rfl
  | cons piece rest ih =>
    intro p a hfits _
    obtain ⟨hp, hpiece, hreads, hrest⟩ := hfits
    have hmax : max (max p piece.first) piece.stop = piece.stop := by omega
    unfold assembleFrom
    dsimp only
    rw [hmax]
    refine ih hrest (.inl ?_)
    dsimp only
    split
    · exact hreads.showOnto_ne_nil (.inr (List.cons_ne_nil _ _))
    · exact List.cons_ne_nil _ _

/-- **The children of a node read the stretch that the node is over.** -/
theorem assemble_reads (h : j.tokens.Regular) (hr : j.RegionsRead regions)
    (hhigh : high ≤ j.finish) (hfits : j.Fits low high pieces) :
    j.table.Reads (j.assemble regions opens low high pieces).children
      (j.tokens.stretch low high) := by
  refine assembleFrom_reads h hr hhigh (Nat.le_refl _) hfits ?_
  rw [TokenStream.stretch_self]
  exact .nil

theorem assemble_ne_nil (hfits : j.Fits low high pieces) (hne : pieces ≠ []) :
    (j.assemble regions opens low high pieces).children ≠ [] := by
  have hsome : (j.assembleFrom regions opens low high low ⟨[], 0⟩ pieces).reversed ≠ [] :=
    assembleFrom_ne_nil hfits (.inr hne)
  exact fun h => hsome (List.reverse_eq_nil_iff.mp h)

/-- **The root reads everything.** -/
theorem assembleRoot_reads (h : j.tokens.Regular) (hr : j.RegionsRead regions)
    (hfits : j.Fits 0 j.finish pieces) :
    j.table.Reads (j.assembleRoot regions pieces).1.children j.tokens.tokens.toList := by
  have hfront : j.table.Reads (j.triviaOnto 0 []).reverse (j.tokens.lead 0) := by
    rw [reverse_triviaOnto]
    exact reads_lead h (Nat.zero_le _)
  unfold assembleRoot
  dsimp only
  split
  · next hzero =>
    rw [← h.lead_of_empty hzero]
    exact hfront
  · next hpos =>
    rw [← h.whole (Nat.pos_of_ne_zero hpos)]
    show j.table.Reads (j.triviaOnto j.finish _).reverse _
    rw [reverse_triviaOnto, List.reverse_append]
    exact (hfront.append (assemble_reads h hr (Nat.le_refl _) hfits)).append
      (reads_lead h (Nat.le_refl _))

end ParseJob

end LayeredSyntax
