/-
  SHAPES OF STACKS — what they are like, whatever is done in whatever order.

  A parse finishes what can be finished, reads tokens, makes symbols up and skips tokens.  From the
  beginning it comes to many states that way (`ParseJob.Reaches`).  **The stacks of all of them have
  the same shape** (`Progress.Shaped`):

  1. The heads stand side by side, in different states, and are filed under these.
  2. Every subtree fits the two nodes that it stands between: it begins where the lower one stands
     and ends where the upper one is covered up to, it is as long as the text in between, and it
     leads from the state of the one to the state of the other.
  3. Where a node stands further than it is covered, an error region is in between.
-/
import LayeredSyntax.Proofs.Parse.Reaching
import LayeredSyntax.Proofs.Session.CleanParses
import LayeredSyntax.Proofs.Token.Tiling

namespace LayeredSyntax

/-- **The states that a parse can come to** from a state of the table. -/
inductive ParseJob.Reaches [Limits] (j : ParseJob) (state : Nat) : Progress → Prop where
  | enter : Reaches j state (j.entered state)
  /-- Finish everything that can be finished. -/
  | finish {s : Progress} (h : Reaches j state s) : Reaches j state (s.reduceAll j)
  /-- Read the token at the position, if a head can. -/
  | read {s : Progress} (h : Reaches j state s) : Reaches j state (s.shift j).2
  /-- Make a symbol up. -/
  | insert {s : Progress} {i : Insertion} (h : Reaches j state s)
      (hi : i ∈ j.insertions s.stack s.position) : Reaches j state (s.insert j i)
  /-- Skip to a token at which the parse can be taken up. -/
  | skip {s s' : Progress} (h : Reaches j state s) (hskip : s.skip? j = some s') :
      Reaches j state s'

/-! ## The shape of stacks -/

/-- **How an edge fits the two nodes that it is between.** -/
structure Stack.Fitting (j : ParseJob) (s : Stack) (i : Nat) (e : Edge) : Prop where
  below_lt : e.below < i
  below_covered : (s.node e.below).covered ≤ (s.node e.below).position
  first_eq : (s.node e.below).position = e.label.first
  first_le : e.label.first ≤ e.label.stop
  stop_eq : e.label.stop = (s.node i).covered
  covered_le : (s.node i).covered ≤ (s.node i).position
  tokenCount : e.label.node.tokenCount = e.label.stop - e.label.first
  /-- The subtree is as long as the text from its first token to its last one. -/
  size : ∀ start, Tiles start j.tokens.tokens.toList → e.label.node.size =
    if e.label.first < e.label.stop then
      j.tokens.stopByte (e.label.stop - 1) - j.tokens.startByte e.label.first
    else 0
  /-- The state above is the one behind the symbol of the subtree. -/
  behind : ∃ symbol, e.label.node.symbol? = some symbol ∧
    j.stateBehind? (s.node e.below).state symbol = some (s.node i).state

/-- **The shape of the stacks of a parse.** -/
structure Progress.Shaped (j : ParseJob) (s : Progress) : Prop where
  heads_ne_nil : s.stack.heads ≠ []
  heads_top : ∃ covered, ∀ i ∈ s.stack.heads,
    (s.stack.node i).position = s.position ∧ (s.stack.node i).covered = covered
  heads_nodup : (s.stack.heads.map fun i => (s.stack.node i).state).Nodup
  /-- The heads are filed under their states, and nothing else is. -/
  byState : ∀ state i, s.stack.byState.lookup state = some i ↔
    i ∈ s.stack.heads ∧ (s.stack.node i).state = state
  edges : ∀ i, ∀ e ∈ (s.stack.node i).edges, s.stack.Fitting j i e
  /-- Where a node that counts is covered less far than it stands, an error region is in between. -/
  gaps : ∀ i, s.stack.Live i → (s.stack.node i).covered < (s.stack.node i).position →
    ∃ r children, s.regions.at? (s.stack.node i).covered = some r ∧
      r.stop = (s.stack.node i).position ∧ r.node = .error children

variable {j : ParseJob} {s : Progress} {state : Nat}

theorem ParseJob.Reaches.sound [Limits] (hj : j.Ready) (ht : j.table.Canonical)
    (h : j.Reaches state s) :
    s.Sound j := by
  induction h with
  | enter => exact Progress.entered_sound j state
  | finish _ ih => exact ih.reduceAll hj ht
  | read _ ih => exact ih.shift hj ht
  | insert _ hi ih => exact ih.insert hi
  | skip _ hskip ih => exact ih.skip hj hskip

/-- An edge whose subtree links the nodes fits them. -/
theorem Stack.Fresh.fitting {stack : Stack} {base p c : Nat} (hj : j.Ready)
    (hs : stack.Fresh base p c) (hlinks : stack.Edges j.Links) {i : Nat} {e : Edge}
    (he : e ∈ stack.edges i) : stack.Fitting j i e := by
  have hlink := hlinks i e he
  exact ⟨(hs.down i e he).1, hlink.below_covered, hlink.first_eq, hlink.reads.first_le,
    hlink.reads.stop_eq, hlink.above_covered, hlink.tokenCount hj, fun _ => hlink.size hj,
    hlink.symbol⟩

theorem Progress.Sound.shaped (hj : j.Ready) (hs : s.Sound j) : s.Shaped j := by
  obtain ⟨base, c, hfresh, _⟩ := hs.whole.stack
  refine ⟨hs.heads_ne_nil, ⟨c, fun i hi => ?_⟩, ?_, fun state i => ?_,
    fun i e he => hfresh.fitting hj hs.links he, hs.filled⟩
  · obtain ⟨hbase, hlt⟩ := hfresh.mem_heads.mp hi
    exact hfresh.top i hbase hlt
  · refine List.Nodup.map_on (fun i hi k hk heq => ?_) ?_
    · obtain ⟨hibase, hilt⟩ := hfresh.mem_heads.mp hi
      obtain ⟨hkbase, hklt⟩ := hfresh.mem_heads.mp hk
      exact hfresh.inj i k hibase hilt hkbase hklt heq
    · rw [hfresh.heads]
      exact List.nodup_range'
  · rw [hfresh.mem_heads, and_assoc]
    exact hfresh.index state i

/-- **Whatever a parse comes to, its stacks have their shape**, from whatever state of the table it
    begins in. -/
theorem ParseJob.shaped_of_reaches [Limits] {grammars : List Grammar} {table : Table}
    (grammar : GrammarId)
    (d : Document) (tokens : Array Token) (resync : ResyncSet) (reuse : Option ReuseIndex)
    (reports : Bool) (h : compose grammars = .ok table) :
    let j := ParseJob.prepare table grammar (.ofTokens d tokens) resync reuse reports
    ∀ state s, j.Reaches state s → s.Shaped j := by
  intro j state s hs
  have hregular := TokenStream.regular_ofTokens d tokens
  have hj : j.Ready := ParseJob.ready_prepare table grammar hregular resync reuse reports
  exact (hs.sound hj (compose_canonical h)).shaped hj

/-- In the middle of a row of words. -/
theorem ParseJob.shaped_of_reaches_rowsOfWords : ∃ t entry, compose [Grammar.rowsOfWords] = .ok t ∧
    t.entry? ⟨"rows"⟩ = some entry ∧
    let j := ParseJob.prepare t ⟨"rows"⟩ (.ofTokens (.ofText "a a") (tokenize .expr "a a")) ⟨[]⟩
      none true
    (((j.entered entry.state).shift j).2.reduceAll j).Shaped j := by
  obtain ⟨t, ht, _, hentry, _⟩ := compose_rowsOfWords
  obtain ⟨entry, hentry, _⟩ := Option.map_eq_some_iff.mp hentry
  exact ⟨t, entry, ht, hentry, ParseJob.shaped_of_reaches ⟨"rows"⟩ (.ofText "a a") _ ⟨[]⟩ none true
    ht _ _ (.finish (.read .enter))⟩

end LayeredSyntax
