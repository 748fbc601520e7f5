/-
  CYCLES OF EMBEDDINGS — a cycle is reported just when there is one.

  `Embeds` is the relation that matters: both grammars are among those composed, of each name the
  first, and the one has a slot for the other.  A composition fails for a cycle exactly when a
  grammar reaches itself in this relation, and the path that is reported is such a cycle
  (`compose_cyclicEmbedding`).

  1. **The crux (`walkEmbeddings_yields`)**: a walk keeps two rows apart.  The path in front of it
     is a chain of grammars that are still being followed.  The grammars that are done with form a
     row in which every grammar embeds only grammars behind it (`Settled`), and so none of them is
     on a cycle.  A grammar of the path that comes up again closes a cycle; a grammar that is left
     without one is put in front of the row.
  2. No grammar is on a path twice, so the walk ends before its fuel does.
-/
import LayeredSyntax.Proofs.Composition.Faults

namespace LayeredSyntax

open Relation

/-! ## Embeddings -/

/-- A grammar declares a slot for another one. -/
def Declares (grammars : List Grammar) (a b : GrammarId) : Prop :=
  ∃ g, findGrammar? grammars a = some g ∧ ∃ slot ∈ g.slots, slot.grammar = b

/-- A grammar of a name is among those composed. -/
def Listed (grammars : List Grammar) (a : GrammarId) : Prop :=
  ∃ g, findGrammar? grammars a = some g

/-- **One grammar embeds another one**, both of them being composed. -/
def Embeds (grammars : List Grammar) (a b : GrammarId) : Prop :=
  Declares grammars a b ∧ Listed grammars b

/-- **A cycle of embeddings**, from a grammar back to it. -/
structure IsCycle (grammars : List Grammar) (path : List GrammarId) : Prop where
  /-- There is at least one step. -/
  two_le : 2 ≤ path.length
  /-- It ends where it starts. -/
  closed : path.getLast? = path.head?
  /-- Each grammar has a slot for the next one. -/
  chain : path.IsChain (Embeds grammars)

variable {grammars : List Grammar} {a b id : GrammarId} {path done : List GrammarId}

theorem Declares.listed (h : Declares grammars a b) : Listed grammars a := by
  obtain ⟨g, hg, _⟩ := h
  exact ⟨g, hg⟩

theorem mem_embedded {g : Grammar} : b ∈ g.embedded ↔ ∃ slot ∈ g.slots, slot.grammar = b := by
  unfold Grammar.embedded
  rw [mem_foldl_addNew]
  simp

/-- Of each name the first grammar is found, whether or not the others are still there. -/
theorem findGrammar?_distinctGrammars (grammars : List Grammar) (id : GrammarId) :
    findGrammar? (distinctGrammars grammars) id = findGrammar? grammars id := by
  unfold findGrammar?
  induction grammars using List.reverseRecOn with
  | nil => rfl
  | append_singleton gs g ih =>
    rw [distinctGrammars_append, List.find?_append, ← ih]
    split
    · next hg =>
      -- The new grammar is not found, as one of its name is in front of it.
      cases hfind : (distinctGrammars gs).find? (·.id == id) with
      | some h => rfl
      | none =>
        have hne : (g.id == id) = false := by
          rw [List.any_eq_true] at hg
          obtain ⟨h, hh, hid⟩ := hg
          have hnot := List.find?_eq_none.mp hfind h hh
          rw [beq_iff_eq] at hid
          rw [← hid]
          simpa using hnot
        simp [hne]
    · rw [List.find?_append]

/-- A grammar reaches itself along a cycle. -/
theorem IsCycle.transGen (h : IsCycle grammars path) : ∃ g, TransGen (Embeds grammars) g g := by
  obtain ⟨hlength, hclosed, hchain⟩ := h
  match path, hlength, hclosed, hchain with
  | x :: y :: rest, _, hclosed, hchain =>
    obtain ⟨hxy, hrest⟩ := List.isChain_cons_cons.mp hchain
    have hlast : (y :: rest).getLast (List.cons_ne_nil y rest) = x := by
      rw [List.getLast?_cons_cons,
        List.getLast?_eq_some_getLast (List.cons_ne_nil y rest)] at hclosed
      exact Option.some.inj hclosed
    exact ⟨x, .head' hxy (List.relationReflTransGen_of_exists_isChain_cons rest hrest hlast)⟩

/-! ## Grammars that are done with -/

/-- **A row in which every grammar embeds only grammars behind it.** -/
inductive Settled (grammars : List Grammar) : List GrammarId → Prop
  | nil : Settled grammars []
  | cons {id : GrammarId} {done : List GrammarId} (hfresh : id ∉ done)
      (hbehind : ∀ b, Embeds grammars id b → b ∈ done) (hdone : Settled grammars done) :
      Settled grammars (id :: done)

/-- What a grammar of the row embeds is in the row. -/
theorem Settled.closed (h : Settled grammars done) (ha : a ∈ done) (hab : Embeds grammars a b) :
    b ∈ done := by
  induction h with
  | nil => cases ha
  | cons _ hbehind _ ih =>
    rcases List.mem_cons.mp ha with rfl | ha
    · exact List.mem_cons_of_mem _ (hbehind b hab)
    · exact List.mem_cons_of_mem _ (ih ha)

theorem Settled.reaches (h : Settled grammars done) (ha : a ∈ done)
    (hab : ReflTransGen (Embeds grammars) a b) : b ∈ done := by
  induction hab with
  | refl => exact ha
  | tail _ hstep ih => exact h.closed ih hstep

/-- **No grammar of the row is on a cycle.** -/
theorem Settled.acyclic (h : Settled grammars done) (ha : a ∈ done) :
    ¬ TransGen (Embeds grammars) a a := by
  induction h with
  | nil => cases ha
  | @cons id done hfresh hbehind hdone ih =>
    rcases List.mem_cons.mp ha with rfl | ha
    · -- One step leads behind the grammar, and from there nothing leads back.
      intro hcycle
      obtain ⟨b, hab, hba⟩ := TransGen.head'_iff.mp hcycle
      exact hfresh (hdone.reaches (hbehind b hab) hba)
    · exact ih ha

/-! ## The walk -/

/-- **The path of a walk**: a chain of grammars that leads to the next one. -/
structure LeadsTo (grammars : List Grammar) (path : List GrammarId) (id : GrammarId) : Prop where
  chain : (path ++ [id]).IsChain (Declares grammars)
  listed : ∀ a ∈ path, Listed grammars a
  nodup : path.Nodup

theorem leadsTo_nil (grammars : List Grammar) (id : GrammarId) : LeadsTo grammars [] id :=
  ⟨.singleton id, fun _ ha => absurd ha List.not_mem_nil, List.nodup_nil⟩

/-- One step further, from a grammar that is not on the path. -/
theorem LeadsTo.step (h : LeadsTo grammars path a) (ha : a ∉ path) (hab : Declares grammars a b) :
    LeadsTo grammars (path ++ [a]) b := by
  refine ⟨?_, fun x hx => ?_, ?_⟩
  · rw [List.append_assoc, List.singleton_append, List.isChain_append_cons_cons]
    exact ⟨h.chain, hab, .singleton b⟩
  · rcases List.mem_append.mp hx with hx | hx
    · exact h.listed x hx
    · obtain rfl := List.mem_singleton.mp hx
      exact hab.listed
  · refine List.nodup_append.mpr ⟨h.nodup, List.nodup_singleton a, fun x hx y hy => ?_⟩
    obtain rfl := List.mem_singleton.mp hy
    rintro rfl
    exact ha hx

/-- A path is no longer than the row of grammars. -/
theorem LeadsTo.length_le (h : LeadsTo grammars path id) : path.length ≤ grammars.length := by
  have hsub : path ⊆ grammars.map (·.id) := by
    intro a ha
    obtain ⟨g, hg⟩ := h.listed a ha
    have hid : g.id = a := by simpa using List.find?_some hg
    exact hid ▸ List.mem_map_of_mem (List.mem_of_find?_eq_some hg)
  have hle := (h.nodup.subperm hsub).length_le
  rwa [List.length_map] at hle

/-- **A path that comes back to one of its grammars has a cycle at its end.** -/
theorem LeadsTo.isCycle (h : LeadsTo grammars path id) (hid : id ∈ path) :
    IsCycle grammars (path.dropWhile (· != id) ++ [id]) := by
  obtain ⟨front, back, rfl, hfront⟩ := List.eq_append_cons_of_mem hid
  have hdrop : (front ++ id :: back).dropWhile (· != id) = id :: back := by
    have hne : ∀ a ∈ front, (a != id) = true := by
      intro a ha
      rw [bne_iff_ne]
      rintro rfl
      exact hfront ha
    rw [List.dropWhile_append_of_pos hne]
    exact List.dropWhile_cons_of_neg (by simp)
  rw [hdrop]
  have hchain : (id :: back ++ [id]).IsChain (Declares grammars) := by
    have hwhole := h.chain
    rw [List.append_assoc] at hwhole
    exact hwhole.right_of_append
  have hlisted : ∀ a ∈ id :: back ++ [id], Listed grammars a := by
    intro a ha
    rcases List.mem_append.mp ha with ha | ha
    · exact h.listed a (List.mem_append_right front ha)
    · obtain rfl := List.mem_singleton.mp ha
      exact h.listed a hid
  have hclosed : (id :: back ++ [id]).getLast? = (id :: back ++ [id]).head? := by
    rw [List.getLast?_concat]
    rfl
  exact ⟨by simp, hclosed, hchain.imp_of_mem_imp fun a b _ hb hab => ⟨hab, hlisted b hb⟩⟩

/-- **What a walk comes to**: a longer row, with the grammars in it that were walked to. -/
structure Walked (grammars : List Grammar) (path done targets done' : List GrammarId) : Prop where
  settled : Settled grammars done'
  keeps : ∀ a ∈ done, a ∈ done'
  /-- The path is still being followed. -/
  free : ∀ a ∈ path, a ∉ done'
  mem : ∀ b ∈ targets, Listed grammars b → b ∈ done'

/-- Several grammars are walked to, one after the other. -/
theorem walked_of_foldlM {α : Type} (target : α → GrammarId) (xs : List α)
    (walk : List GrammarId → α → Except (List GrammarId) (List GrammarId))
    (hdone : Settled grammars done) (hfree : ∀ a ∈ path, a ∉ done)
    (hstep : ∀ x ∈ xs, ∀ done', Settled grammars done' → (∀ a ∈ path, a ∉ done') →
      Yields (IsCycle grammars) (Walked grammars path done' [target x]) (walk done' x)) :
    Yields (IsCycle grammars) (Walked grammars path done (xs.map target))
      (xs.foldlM walk done) := by
  refine Yields.foldlM
    (R := fun xs done' => Walked grammars path done (xs.map target) done') ?_ ?_
  · exact ⟨hdone, fun _ h => h, hfree, fun _ hb => absurd hb List.not_mem_nil⟩
  · intro front x rest done' hrow h
    have hx : x ∈ xs := hrow ▸ List.mem_append_right _ List.mem_cons_self
    refine (hstep x hx done' h.settled h.free).mono fun done'' h' => ?_
    refine ⟨h'.settled, fun a ha => h'.keeps a (h.keeps a ha), h'.free, fun b hb hlisted => ?_⟩
    rw [List.map_append, List.mem_append] at hb
    rcases hb with hb | hb
    · exact h'.keeps b (h.mem b hb hlisted)
    · exact h'.mem b hb hlisted

/-- **A grammar whose targets have been walked to is done with.** -/
theorem Walked.close {g : Grammar} {done' : List GrammarId}
    (h : Walked grammars (path ++ [id]) done (g.embedded.map fun b => b) done')
    (hg : findGrammar? grammars id = some g) (hfresh : id ∉ path) :
    Walked grammars path done [id] (id :: done') := by
  have hnot : id ∉ done' := h.free id (List.mem_append_right _ List.mem_cons_self)
  refine ⟨.cons hnot (fun b hb => ?_) h.settled,
    fun a ha => List.mem_cons_of_mem _ (h.keeps a ha), fun a ha hmem => ?_, fun b hb _ => ?_⟩
  · obtain ⟨⟨g', hg', hslot⟩, hlisted⟩ := hb
    obtain rfl : g = g' := Option.some.inj (hg.symm.trans hg')
    exact h.mem b (List.mem_map.mpr ⟨b, mem_embedded.mpr hslot, rfl⟩) hlisted
  · rcases List.mem_cons.mp hmem with rfl | hmem
    · exact hfresh ha
    · exact h.free a (List.mem_append_left _ ha) hmem
  · obtain rfl := List.mem_singleton.mp hb
    exact List.mem_cons_self

/-- **A walk finds a cycle or settles a grammar.** -/
theorem walkEmbeddings_yields (fuel : Nat) :
    ∀ {path done : List GrammarId} {id : GrammarId}, LeadsTo grammars path id →
      grammars.length < path.length + fuel → Settled grammars done → (∀ a ∈ path, a ∉ done) →
      Yields (IsCycle grammars) (Walked grammars path done [id])
        (walkEmbeddings grammars path done id fuel) := by
  induction fuel with
  | zero =>
    intro path done id hpath hfuel _ _
    have := hpath.length_le
    omega
  | succ fuel ih =>
    intro path done id hpath hfuel hdone hfree
    unfold walkEmbeddings
    split
    · next hid =>
      refine ⟨hdone, fun _ h => h, hfree, fun b hb _ => ?_⟩
      obtain rfl := List.mem_singleton.mp hb
      exact hid
    · next hid =>
      split
      · next hcycle => exact hpath.isCycle hcycle
      · next hfresh =>
        cases hg : findGrammar? grammars id with
        | none =>
          refine ⟨hdone, fun _ h => h, hfree, fun b hb hlisted => ?_⟩
          obtain rfl := List.mem_singleton.mp hb
          obtain ⟨g, hlisted⟩ := hlisted
          rw [hg] at hlisted
          cases hlisted
        | some g =>
          -- While its targets are walked to, the grammar itself is on the path.
          have hfree' : ∀ a ∈ path ++ [id], a ∉ done := by
            intro a ha
            rcases List.mem_append.mp ha with ha | ha
            · exact hfree a ha
            · obtain rfl := List.mem_singleton.mp ha
              exact hid
          have hfuel' : grammars.length < (path ++ [id]).length + fuel := by
            rw [List.length_append, List.length_singleton]
            omega
          have htargets := walked_of_foldlM (fun b => b) g.embedded
            (fun done target => walkEmbeddings grammars (path ++ [id]) done target fuel)
            hdone hfree' fun b hb done' hdone' hfree'' =>
              ih (hpath.step hfresh ⟨g, hg, mem_embedded.mp hb⟩) hfuel' hdone' hfree''
          exact htargets.bind fun done' h => h.close hg hfresh

/-- **The search finds a cycle, or there is none.** -/
theorem embeddingCycle?_spec (grammars : List Grammar) :
    match embeddingCycle? grammars with
    | some path => IsCycle grammars path
    | none => ∀ a, ¬ TransGen (Embeds grammars) a a := by
  have hfuel : grammars.length < ([] : List GrammarId).length + (grammars.length + 1) := by simp
  have hwalk := walked_of_foldlM Grammar.id grammars
    (fun done (g : Grammar) => walkEmbeddings grammars [] done g.id (grammars.length + 1))
    Settled.nil (fun _ ha => absurd ha List.not_mem_nil) fun g _ done' hdone' hfree =>
      walkEmbeddings_yields _ (leadsTo_nil grammars g.id) hfuel hdone' hfree
  unfold embeddingCycle?
  dsimp only
  generalize grammars.foldlM (fun done (g : Grammar) =>
    walkEmbeddings grammars [] done g.id (grammars.length + 1)) [] = r at hwalk ⊢
  cases r with
  | error path => exact hwalk
  | ok done =>
    -- Every grammar is done with, and what is done with is on no cycle.
    intro a hcycle
    obtain ⟨b, hab, _⟩ := TransGen.head'_iff.mp hcycle
    obtain ⟨g, hg⟩ := hab.1.listed
    have hid : g.id = a := by simpa using List.find?_some hg
    have hmem : a ∈ grammars.map Grammar.id :=
      hid ▸ List.mem_map_of_mem (List.mem_of_find?_eq_some hg)
    exact hwalk.settled.acyclic (hwalk.mem a hmem ⟨g, hg⟩) hcycle

/-! ## Composing -/

theorem embeds_distinctGrammars (grammars : List Grammar) :
    Embeds (distinctGrammars grammars) = Embeds grammars := by
  funext a b
  unfold Embeds Declares Listed
  rw [findGrammar?_distinctGrammars, findGrammar?_distinctGrammars]

/-- A composition fails for the cycle that the search finds. -/
theorem compose_eq_cyclicEmbedding_iff (grammars : List Grammar) (path : List GrammarId) :
    compose grammars = .error (.cyclicEmbedding path) ↔
      embeddingCycle? (distinctGrammars grammars) = some path := by
  constructor
  · intro h
    cases (compositeOf_yields grammars).fault (compositeOf_eq_error h) with
    | cycle hcycle => exact hcycle
    | own hown => exact hown.elim
  · intro h
    unfold compose compositeOf
    dsimp only
    rw [h]
    rfl

/-- **A composition fails for a cycle exactly when some grammar reaches itself**, and what it
    reports is a cycle. -/
theorem compose_cyclicEmbedding (grammars : List Grammar) :
    ((∃ path, compose grammars = .error (.cyclicEmbedding path)) ↔
      ∃ a, TransGen (Embeds grammars) a a) ∧
    ∀ path, compose grammars = .error (.cyclicEmbedding path) → IsCycle grammars path := by
  have hspec := embeddingCycle?_spec (distinctGrammars grammars)
  have hcycle : ∀ path, compose grammars = .error (.cyclicEmbedding path) →
      IsCycle grammars path := by
    intro path h
    rw [(compose_eq_cyclicEmbedding_iff grammars path).mp h] at hspec
    exact ⟨hspec.two_le, hspec.closed, embeds_distinctGrammars grammars ▸ hspec.chain⟩
  refine ⟨⟨fun ⟨path, h⟩ => (hcycle path h).transGen, fun ⟨a, ha⟩ => ?_⟩, hcycle⟩
  cases hsearch : embeddingCycle? (distinctGrammars grammars) with
  | some path => exact ⟨path, (compose_eq_cyclicEmbedding_iff grammars path).mpr hsearch⟩
  | none =>
    rw [hsearch] at hspec
    exact absurd (embeds_distinctGrammars grammars ▸ ha) (hspec a)

/-- A grammar of a name, with slots for others. -/
def Grammar.layer (name : String) (targets : List String) : Grammar :=
  ⟨⟨name⟩, "x", [⟨"x", [.plain [.terminal (.kind .identifier)]]⟩], [],
    targets.map fun target => ⟨target, ⟨target⟩, none⟩, [], [], []⟩

/-- **A cycle that is entered from outside**, with a slot that nothing fills and a grammar that is
    given twice. -/
theorem compose_cyclicEmbedding_entered :
    let grammars := [Grammar.layer "page" ["text", "rule"], .layer "text" [],
      .layer "rule" ["nowhere", "text", "body"], .layer "body" ["text", "rule"], .layer "rule" []]
    IsCycle grammars [⟨"rule"⟩, ⟨"body"⟩, ⟨"rule"⟩] ∧
      ∃ a, TransGen (Embeds grammars) a a := by
  have h : compose [Grammar.layer "page" ["text", "rule"], .layer "text" [],
      .layer "rule" ["nowhere", "text", "body"], .layer "body" ["text", "rule"],
      .layer "rule" []] = .error (.cyclicEmbedding [⟨"rule"⟩, ⟨"body"⟩, ⟨"rule"⟩]) := by cbv
  exact ⟨(compose_cyclicEmbedding _).2 _ h, (compose_cyclicEmbedding _).1.mp ⟨_, h⟩⟩

end LayeredSyntax
