/-
  THE EXPRESSION GRAMMAR — operands and operators.

  It reads single expressions, and fills every operand of the command grammar.  Three points of it
  need a decision:

  1. A minus or plus sign can stand in front of an operand or between two.  The alternatives in
     front are on a level of their own that binds tighter than all others.
  2. Behind the operators of pattern matching stands no expression: the tokens have already made one
     token of the pattern.
  3. The arguments of a call may be left out between commas.  The list is written as a rule that
     begins with itself, and so has only one reading.
-/
import LayeredSyntax.Grammar.Phrase

namespace LayeredSyntax.ExpressionGrammar

open Phrase

/-! ## Operators -/

/-- The operators between two operands, the loosest first, and the level of signs. -/
def levels : List Level := [
    ⟨"or", .left, ["!", "||", "'!"]⟩,
    ⟨"and", .left, ["&", "&&", "'&"]⟩,
    ⟨"comparison", .left, ["=", "'=", "<", ">", "<=", ">=", "'<", "'>", "[", "'[", "]", "']", "]]",
      "']]", "?", "'?"]⟩,
    ⟨"concatenation", .left, ["_"]⟩,
    ⟨"additive", .left, ["+", "-"]⟩,
    ⟨"multiplicative", .left, ["*", "/", "\\", "#"]⟩,
    ⟨"exponent", .right, ["**"]⟩,
    ⟨"unary", .right, []⟩]

/-- Operators that a pattern follows. -/
def patternOperators : List String := ["?", "'?"]

/-- Two operands around an operator. -/
def binaryShape (operator : String) : Shape :=
  let operand := if patternOperators.contains operator then "_pattern_operand" else "_expression"
  .joined [ref "_expression", sym operator, ref operand]

/-- Two operands around any operator. -/
def binaryShapes : List Shape := (levels.flatMap (·.operators)).map binaryShape

/-- Subscripts, which can be left out. -/
def subscripts : Phrase := maybe [sym "(", ref "_subscripts", sym ")"]

/-! ## Rules -/

/-- Expressions. -/
def expressionRules : List RuleDraft := [
    .choice "_expression" [ref "_primary", ref "binary_expression", ref "unary_expression"],
    ⟨"binary_expression", binaryShapes⟩,
    ⟨"unary_expression", ["-", "+", "'"].map fun op => .onLevel "unary" [sym op, ref "_expression"]⟩,
    .choice "_pattern_operand" [kind .pattern, ref "indirection"],
    .choice "_primary" [kind .number, kind .string, kind .sqlField, kind .instanceVariable,
      kind .systemVariable, ref "lvn", ref "gvn", ref "ssvn", ref "system_function", ref "macro",
      ref "extrinsic_function", ref "class_method_call", ref "class_parameter_ref",
      ref "superclass_method_call", ref "relative_dot_method", ref "relative_dot_property",
      ref "relative_dot_parameter", ref "oref_method_call", ref "oref_property",
      ref "oref_parameter", ref "indirection", ref "parenthetical_expression",
      ref "json_object_literal", ref "json_array_literal"]]

/-- Variables. -/
def variableRules : List RuleDraft := [
    .plain "lvn" [[kind .identifier, subscripts]],
    .plain "gvn" [[sym "^", maybe [sym "||"], kind .identifier, subscripts],
      [sym "^", sym "(", ref "_subscripts", sym ")"]],
    .plain "ssvn" [[sym "^$", kind .identifier, subscripts]],
    .choice "glvn" [ref "lvn", ref "gvn", ref "ssvn"],
    .plain "_subscripts" [[list1 [ref "_expression"] (sym ",")]]]

/-- Calls and their arguments. -/
def callRules : List RuleDraft := [
    .plain "system_function" [[kind .systemFunction, sym "(", maybe [ref "_argument_list"],
        sym ")"]],
    .plain "macro" [[kind .macroWord, maybe [ref "method_args"]]],
    .plain "extrinsic_function" [[sym "$$", ref "_label_ref", maybe [ref "method_args"]]],
    .plain "_label_ref" [[kind .identifier], [kind .identifier, sym "^", kind .identifier],
      [sym "^", kind .identifier]],
    .plain "method_args" [[sym "(", maybe [ref "_argument_list"], sym ")"]],
    .plain "_argument_list" [[ref "_argument"], [ref "_argument_list", sym ",", ref "_argument"],
      [ref "_argument_list", sym ","], [sym ",", maybe [ref "_argument"]]],
    .choice "_argument" [ref "_expression", ref "by_ref_argument", ref "variadic_argument",
      ref "case_argument", ref "case_default"],
    .plain "by_ref_argument" [[sym ".", kind .identifier]],
    .plain "variadic_argument" [[kind .identifier, sym "..."]],
    .plain "case_argument" [[ref "_expression", sym ":", ref "_expression"]],
    .plain "case_default" [[sym ":", ref "_expression"]]]

/-- Classes and objects. -/
def objectRules : List RuleDraft := [
    .plain "class_name" [[list1 [kind .identifier] (sym ".")]],
    .plain "_class_ref" [[sym "##class", sym "(", ref "class_name", sym ")"]],
    .plain "class_method_call" [[ref "_class_ref", sym ".", ref "_member_name", ref "method_args"]],
    .plain "class_parameter_ref" [[ref "_class_ref", sym ".", sym "#", kind .identifier]],
    .plain "superclass_method_call" [[sym "##super", ref "method_args"]],
    .plain "relative_dot_method" [[sym "..", ref "_member_name", ref "method_args"]],
    .plain "relative_dot_property" [[sym "..", ref "_member_name"]],
    .plain "relative_dot_parameter" [[sym "..", sym "#", kind .identifier]],
    .choice "_member_name" [kind .identifier, kind .string],
    .choice "_chainable" [ref "lvn", kind .systemVariable, kind .instanceVariable, ref "macro",
      ref "system_function", ref "class_method_call", ref "superclass_method_call",
      ref "relative_dot_method", ref "relative_dot_property", ref "oref_method_call",
      ref "oref_property", ref "parenthetical_expression"],
    .plain "oref_method_call" [[ref "_chainable", sym ".", ref "_member_name", ref "method_args"]],
    .plain "oref_property" [[ref "_chainable", sym ".", ref "_member_name"]],
    .plain "oref_parameter" [[ref "_chainable", sym ".", sym "#", kind .identifier]]]

/-- Other operands. -/
def atomRules : List RuleDraft := [
    .plain "indirection" [[sym "@", ref "_indirect_target"],
      [sym "@", ref "_indirect_target", sym "@", sym "(", ref "_subscripts", sym ")"]],
    .choice "_indirect_target" [ref "lvn", ref "gvn", kind .string, ref "relative_dot_property",
      ref "parenthetical_expression"],
    .plain "parenthetical_expression" [[sym "(", ref "_expression", sym ")"]],
    .plain "json_object_literal" [[leftBrace, rightBrace],
      [leftBrace, list1 [ref "json_pair"] (sym ","), rightBrace]],
    .plain "json_pair" [[kind .string, sym ":", ref "_expression"]],
    .plain "json_array_literal" [[sym "[", sym "]"],
      [sym "[", list1 [ref "_expression"] (sym ","), sym "]"]]]

/-- What can be assigned to. -/
def targetRules : List RuleDraft := [
    .choice "_assignable" [ref "lvn", ref "gvn", kind .instanceVariable, kind .systemVariable,
      kind .sqlField, ref "system_function", ref "oref_property", ref "relative_dot_property",
      ref "indirection", ref "macro"]]

/-- **The expression grammar.** -/
def draft : GrammarDraft where
  id := .expr
  start := "_expression"
  exports := ["lvn", "glvn", "method_args", "macro", "class_name", "_assignable"]
  slots := []
  levels := levels
  localLevels := []
  resync := [.sym ",", .sym ")"]
  rules := expressionRules ++ variableRules ++ callRules ++ objectRules ++ atomRules ++ targetRules

end LayeredSyntax.ExpressionGrammar
