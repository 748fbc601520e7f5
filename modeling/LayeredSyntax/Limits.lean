/-
  LIMITS — every resource bound of the library, as a parameter.

  A text can be arbitrarily long and arbitrarily broken, so each stage that could grow without end
  has a bound here: how much is read into tokens, how large one token may be, how often a parse is
  repaired, how much of an earlier tree is looked at when it is parsed again, how much of the
  journal is kept.  The stages take their bounds from the `Limits` that the library is built with;
  nothing else in the library states a number of this kind, and what is proved holds for every
  choice that a build allows.

  There are two profiles.  Where nothing else is said the library is built with the one for
  development, so this is what a program or a closed example runs with.
-/
namespace LayeredSyntax

/-- **The bounds of one build of the library**, in the ranges that a build allows. -/
class Limits where
  /-- The name of the profile that the bounds are read from. -/
  profile : String
  /-- Tokens read from one text; what is left over becomes a single error token. -/
  tokens : Nat
  /-- Characters of a name; a longer one is reported. -/
  nameLength : Nat
  /-- Bytes of a string literal; a larger one is reported. -/
  stringSize : Nat
  /-- Offsets of error tokens that the metrics remember. -/
  errorOffsets : Nat
  /-- Repairs of one parse; after them the rest of the text becomes one error region. -/
  repairs : Nat
  /-- Missing symbols that may be inserted at the end of the input. -/
  insertionsAtEnd : Nat
  /-- Symbols considered for one insertion. -/
  insertionCandidates : Nat
  /-- Diagnostics that a parser remembers across parses. -/
  history : Nat
  /-- Tokens read again in front of an edited line. -/
  relexBackoff : Nat
  /-- Subtrees kept per position when an earlier tree is searched for reusable parts. -/
  reuseCandidates : Nat
  /-- Events that a journal in memory keeps. -/
  journalEvents : Nat
  /-- Bytes of a journal text before it is cut. -/
  journalText : Nat
  tokens_range : 1 ≤ tokens ∧ tokens ≤ 50000000 := by decide
  tokens_production : profile = "production" → tokens ≤ 10000000 := by decide
  nameLength_range : 1 ≤ nameLength := by decide
  stringSize_range : 1 ≤ stringSize := by decide
  repairs_range : 1 ≤ repairs ∧ repairs ≤ 100000 := by decide
  insertionsAtEnd_range : 1 ≤ insertionsAtEnd ∧ insertionsAtEnd ≤ 10000 := by decide
  insertionCandidates_range : 1 ≤ insertionCandidates ∧ insertionCandidates ≤ 10000 := by decide
  relexBackoff_range : relexBackoff ≤ 64 := by decide
  journalEvents_range : 100 ≤ journalEvents ∧ journalEvents ≤ 1000000 := by decide
  journalText_range : 64 ≤ journalText := by decide

namespace Limits

/-- The bounds of a build for production. -/
@[reducible] def production : Limits where
  profile := "production"
  tokens := 1000000
  nameLength := 256
  stringSize := 524288
  errorOffsets := 500
  repairs := 1024
  insertionsAtEnd := 16
  insertionCandidates := 32
  history := 50
  relexBackoff := 1
  reuseCandidates := 32
  journalEvents := 5000
  journalText := 2048

/-- **The bounds of a build for development**, in force where nothing else is said. -/
instance development : Limits where
  profile := "development"
  tokens := 2000000
  nameLength := 512
  stringSize := 1048576
  errorOffsets := 1000
  repairs := 2048
  insertionsAtEnd := 32
  insertionCandidates := 48
  history := 100
  relexBackoff := 1
  reuseCandidates := 64
  journalEvents := 10000
  journalText := 4096

/-- Where the bounds come from, as the diagnostics report it. -/
def origin [Limits] : String := s!"Generated from config/{profile}.toml"

end Limits

end LayeredSyntax
