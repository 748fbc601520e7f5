/-
  HELPERS — which hidden rules an expansion makes, and how they are named.

  Expanding a phrase threads a store of helpers through it.  Only the number of helpers made so far
  matters to what happens, so the sequences of a phrase (`Phrase.sequences`) and the helpers made for it
  (`Phrase.helpers`) are functions of that number, and the store only grows (`Phrase.expand_eq`).

  1. Each helper is named after its number, and **the number can be read off the name**
     (`Phrase.number_eq_of_helperName`): it is what stands behind the last character that is no digit.
  2. The helpers of a phrase take the next numbers, each one once (`Phrase.helpers_numbered`).

  **So no two helpers share a name** (`Phrase.Numbered.eq_of_name`).
-/
import LayeredSyntax.Grammar.Phrase
import Mathlib

namespace LayeredSyntax

namespace Phrase

/-! ## What an expansion makes -/

/-- How many helpers a phrase needs: one for each repetition in it. -/
def repeats : Phrase → Nat
  | .empty | .symbol _ | .never => 0
  | .opt a => a.repeats
  | .seq a b | .either a b => a.repeats + b.repeats
  | .many a => 1 + a.repeats
  | .list a b => 1 + a.repeats + b.repeats

/-- **The sequences of a phrase** when `n` helpers have been made before. -/
def sequences (owner : String) : Phrase → Nat → List (List Symbol)
  | .empty, _ => [[]]
  | .symbol s, _ => [[s]]
  | .seq a b, n => product (a.sequences owner n) (b.sequences owner (n + a.repeats))
  | .opt a, n => [] :: a.sequences owner n
  | .never, _ => []
  | .either a b, n => a.sequences owner n ++ b.sequences owner (n + a.repeats)
  | .many _, n | .list _ _, n => [[.rule (helperName owner (n + 1))]]

/-- **The helpers of a phrase**, the last one first. -/
def helpers (owner : String) : Phrase → Nat → List Rule
  | .empty, _ | .symbol _, _ | .never, _ => []
  | .opt a, n => a.helpers owner n
  | .seq a b, n | .either a b, n => b.helpers owner (n + a.repeats) ++ a.helpers owner n
  | .many a, n =>
    let name := helperName owner (n + 1)
    helperRule name (a.sequences name (n + 1)) [[]] :: a.helpers name (n + 1)
  | .list a b, n =>
    let name := helperName owner (n + 1)
    helperRule name (a.sequences name (n + 1)) (b.sequences name (n + 1 + a.repeats)) ::
      (b.helpers name (n + 1 + a.repeats) ++ a.helpers name (n + 1))

/-- **Only the number of helpers made so far matters** to an expansion. -/
theorem expand_eq (owner : String) (p : Phrase) (h : Helpers) :
    p.expand owner h = (p.sequences owner h.count,
      ⟨h.count + p.repeats, p.helpers owner h.count ++ h.rules⟩) := by
  induction p generalizing owner h with
  | empty | symbol | never => rfl
  | opt a ih => simp [expand, ih, sequences, helpers, repeats]
  | seq a b iha ihb | either a b iha ihb =>
    simp [expand, iha, ihb, sequences, helpers, repeats, Nat.add_assoc]
  | many a ih => simp [expand, ih, sequences, helpers, repeats, Nat.add_assoc]
  | list a b iha ihb =>
    simp [expand, iha, ihb, sequences, helpers, repeats, Nat.add_assoc]

/-! ## Numbers of helpers -/

/-- A name ends in its number, which stands behind a letter. -/
theorem toList_helperName (owner : String) (k : Nat) :
    ∃ front, (helperName owner k).toList = front ++ 't' :: Nat.toDigits 10 k := by
  refine ⟨'_' :: (owner.toList.dropWhile (· == '_')) ++ ['_', 'r', 'e', 'p', 'e', 'a'], ?_⟩
  have hopen : (toString "_").toList = ['_'] := rfl
  have hrepeat : (toString "_repeat").toList = ['_', 'r', 'e', 'p', 'e', 'a', 't'] := rfl
  have hstem (cs : List Char) : (toString (String.ofList cs)).toList = cs := String.toList_ofList
  simp [helperName, Nat.toString_eq_repr, Nat.toList_repr, hopen, hrepeat, hstem]

/-- **The number can be read off the name of a helper.** -/
theorem number_eq_of_helperName {owner other : String} {k l : Nat}
    (h : helperName owner k = helperName other l) : k = l := by
  -- It is what stands behind the last character that is no digit.
  have hread : ∀ owner k, (helperName owner k).toList.reverse.takeWhile Char.isDigit =
      (Nat.toDigits 10 k).reverse := by
    intro owner k
    obtain ⟨front, hfront⟩ := toList_helperName owner k
    have hdigits : ∀ c ∈ (Nat.toDigits 10 k).reverse, c.isDigit = true := fun c hc =>
      Nat.isDigit_of_mem_toDigits (by decide) (by decide) (List.mem_reverse.mp hc)
    rw [hfront, List.reverse_append, List.reverse_cons, List.append_assoc,
      List.takeWhile_append_of_pos hdigits, List.singleton_append,
      List.takeWhile_cons_of_neg (by decide), List.append_nil]
  have hdigits : Nat.toDigits 10 k = Nat.toDigits 10 l := by
    rw [← List.reverse_inj, ← hread owner, ← hread other, h]
  calc
    k = Nat.ofDigitChars 10 (Nat.toDigits 10 k) 0 := Nat.ofDigitChars_ten_toDigits.symm
    _ = Nat.ofDigitChars 10 (Nat.toDigits 10 l) 0 := by rw [hdigits]
    _ = l := Nat.ofDigitChars_ten_toDigits

/-- **Helpers with numbers behind `low` and up to `high`**, each number once. -/
structure Numbered (low high : Nat) (rules : List Rule) : Prop where
  named : ∀ rule ∈ rules, ∃ owner k, rule.name = helperName owner k ∧ low < k ∧ k ≤ high
  distinct : (rules.map (·.name)).Nodup

namespace Numbered

variable {low middle high : Nat} {rules back : List Rule} {rule other : Rule}

theorem nil : Numbered low high [] := ⟨nofun, List.nodup_nil⟩

/-- Later helpers stand in front of earlier ones. -/
theorem append (h : Numbered middle high rules) (hback : Numbered low middle back)
    (hlow : low ≤ middle) (hhigh : middle ≤ high) : Numbered low high (rules ++ back) := by
  refine ⟨fun rule hrule => ?_, ?_⟩
  · obtain hrule | hrule := List.mem_append.mp hrule
    · obtain ⟨owner, k, hname, hk, hk'⟩ := h.named rule hrule
      exact ⟨owner, k, hname, by omega, hk'⟩
    · obtain ⟨owner, k, hname, hk, hk'⟩ := hback.named rule hrule
      exact ⟨owner, k, hname, hk, by omega⟩
  · rw [List.map_append]
    refine h.distinct.append hback.distinct fun name hname hname' => ?_
    obtain ⟨rule, hrule, rfl⟩ := List.mem_map.mp hname
    obtain ⟨other, hother, hsame⟩ := List.mem_map.mp hname'
    obtain ⟨owner, k, hrule, hk, _⟩ := h.named rule hrule
    obtain ⟨owner', k', hother, _, hk'⟩ := hback.named other hother
    have := number_eq_of_helperName (hrule.symm.trans (hsame.symm.trans hother))
    omega

/-- A helper has a smaller number than those made inside of it. -/
theorem cons {owner : String} (hname : rule.name = helperName owner (low + 1))
    (h : Numbered (low + 1) high rules) (hle : low + 1 ≤ high) : Numbered low high (rule :: rules) := by
  refine ⟨fun other hother => ?_, ?_⟩
  · obtain rfl | hother := List.mem_cons.mp hother
    · exact ⟨owner, low + 1, hname, by omega, hle⟩
    · obtain ⟨owner', k, hname', hk, hk'⟩ := h.named other hother
      exact ⟨owner', k, hname', by omega, hk'⟩
  · rw [List.map_cons, List.nodup_cons]
    refine ⟨fun hmem => ?_, h.distinct⟩
    obtain ⟨other, hother, hsame⟩ := List.mem_map.mp hmem
    obtain ⟨owner', k, hname', hk, _⟩ := h.named other hother
    have := number_eq_of_helperName (hname.symm.trans (hsame.symm.trans hname'))
    omega

/-- **No two helpers share a name.** -/
theorem eq_of_name (h : Numbered low high rules) (hrule : rule ∈ rules) (hother : other ∈ rules)
    (hname : rule.name = other.name) : rule = other :=
  List.inj_on_of_nodup_map h.distinct hrule hother hname

end Numbered

/-- **The helpers of a phrase take the next numbers.** -/
theorem helpers_numbered (owner : String) (p : Phrase) (n : Nat) :
    Numbered n (n + p.repeats) (p.helpers owner n) := by
  induction p generalizing owner n with
  | empty | symbol | never => exact .nil
  | opt a ih => exact ih owner n
  | seq a b iha ihb | either a b iha ihb =>
    have hb := ihb owner (n + a.repeats)
    rw [Nat.add_assoc] at hb
    exact hb.append (iha owner n) (by omega) (by omega)
  | many a ih =>
    have ha := ih (helperName owner (n + 1)) (n + 1)
    rw [Nat.add_assoc] at ha
    exact .cons rfl ha (by simp only [repeats]; omega)
  | list a b iha ihb =>
    have ha := iha (helperName owner (n + 1)) (n + 1)
    have hb := ihb (helperName owner (n + 1)) (n + 1 + a.repeats)
    have hsum : n + 1 + a.repeats + b.repeats = n + (1 + a.repeats + b.repeats) := by omega
    rw [hsum] at hb
    exact .cons rfl (hb.append ha (by omega) (by omega)) (by simp only [repeats]; omega)

end Phrase

end LayeredSyntax
