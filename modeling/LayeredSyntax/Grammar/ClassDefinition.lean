/-
  THE GRAMMAR OF CLASS DEFINITIONS — classes, their members and the keywords of both.

  What the braces of a member hold was decided when the tokens were read: commands, an expression,
  or one token of another language.  The grammar offers all three, and the readings that do not fit
  the tokens end at their first token.
-/
import LayeredSyntax.Grammar.Phrase

namespace LayeredSyntax.ClassGrammar

open Phrase

/-- The words with which members begin. -/
def memberWords : List String :=
  ["classmethod", "clientmethod", "foreignkey", "index", "method", "parameter", "projection",
    "property", "query", "relationship", "storage", "trigger", "xdata"]

/-- Keywords of a member, which can be left out. -/
def keywords : Phrase := maybe [ref "keyword_list"]

/-- One name, or several in parentheses. -/
def names : Phrase :=
  oneOf [[kind .identifier], [sym "(", list1 [kind .identifier] (sym ","), sym ")"]]

/-! ## Rules -/

/-- Documents and classes. -/
def documentRules : List RuleDraft := [
    .plain "_document" [[many1 [ref "_top_item"]]],
    .choice "_top_item" [ref "include_clause", ref "import_clause", ref "class_definition"],
    .plain "include_clause" [[word "include", names], [word "includegenerator", names]],
    .plain "import_clause" [[word "import", names]],
    .plain "class_definition" [[word "class", kind .identifier, maybe [ref "class_extends"],
        keywords, ref "class_body"]],
    .plain "class_extends" [[word "extends", names]],
    .plain "class_body" [[leftBrace, maybe [many1 [ref "_member"]], rightBrace]]]

/-- Keywords of classes and members. -/
def keywordRules : List RuleDraft := [
    .plain "keyword_list" [[sym "[", sym "]"],
      [sym "[", list1 [ref "keyword"] (sym ","), sym "]"]],
    .plain "keyword" [[kind .identifier], [word "not", kind .identifier],
      [kind .identifier, sym "=", ref "_keyword_value"]],
    .choice "_keyword_value" [kind .identifier, kind .string, kind .number, ref "signed_number",
      ref "keyword_value_list", ref "braced_expression", ref "code_snippet"],
    .plain "braced_expression" [[leftBrace, rightBrace],
      [leftBrace, embed "method_expression", rightBrace]],
    .plain "code_snippet" [[leftBrace, embed "method_code", rightBrace]],
    .plain "signed_number" [[oneOf [[sym "-"], [sym "+"]], kind .number]],
    .plain "keyword_value_list" [[sym "(", sym ")"],
      [sym "(", list1 [ref "_keyword_value"] (sym ","), sym ")"]]]

/-- Types. -/
def typeRules : List RuleDraft := [
    .plain "typename" [[kind .identifier],
      [kind .identifier, sym "(", list1 [ref "type_parameter"] (sym ","), sym ")"],
      [kind .identifier, word "of", kind .identifier]],
    .plain "type_parameter" [[kind .identifier, sym "=", ref "_keyword_value"]],
    .plain "return_type" [[word "as", ref "typename"]]]

/-- Members. -/
def memberRules : List RuleDraft := [
    .choice "_member" [ref "method", ref "property", ref "parameter", ref "relationship",
      ref "foreignkey", ref "index", ref "projection", ref "query", ref "trigger", ref "xdata",
      ref "storage"],
    .plain "method" [[oneOf [[word "method"], [word "classmethod"], [word "clientmethod"]],
        ref "_member_name", ref "arguments", maybe [ref "return_type"], keywords,
        ref "method_body"]],
    .choice "_member_name" [kind .identifier, kind .string],
    .plain "arguments" [[sym "(", sym ")"], [sym "(", list1 [ref "argument"] (sym ","), sym ")"]],
    .plain "argument" [[maybe [oneOf [[word "byref"], [word "output"]]], kind .identifier,
        maybe [sym "..."], maybe [word "as", ref "typename"],
        maybe [sym "=", ref "_default_value"]]],
    .choice "_default_value" [kind .string, kind .number, ref "signed_number", kind .identifier,
      ref "braced_expression"],
    .plain "method_body" [[leftBrace, rightBrace], [leftBrace, embed "method_code", rightBrace],
      [leftBrace, embed "method_expression", rightBrace], [leftBrace, kind .rawText, rightBrace]],
    .plain "raw_body" [[leftBrace, rightBrace], [leftBrace, kind .rawText, rightBrace]],
    .plain "property" [[word "property", kind .identifier, maybe [word "as", ref "typename"],
        keywords, sym ";"]],
    .plain "parameter" [[word "parameter", kind .identifier, maybe [word "as", kind .identifier],
        keywords, maybe [sym "=", ref "_keyword_value"], sym ";"]],
    .plain "relationship" [[word "relationship", kind .identifier, word "as", ref "typename",
        keywords, sym ";"]],
    .plain "foreignkey" [[word "foreignkey", kind .identifier, sym "(",
        list1 [kind .identifier] (sym ","), sym ")", word "references", kind .identifier, sym "(",
        maybe [kind .identifier], sym ")", keywords, sym ";"]],
    .plain "index" [[word "index", kind .identifier, word "on", names, keywords, sym ";"]],
    .plain "projection" [[word "projection", kind .identifier, word "as", ref "typename",
        keywords, sym ";"]],
    .plain "query" [[word "query", kind .identifier, ref "arguments", word "as", ref "typename",
        keywords, ref "raw_body"]],
    .plain "trigger" [[word "trigger", kind .identifier, keywords, ref "method_body"]],
    .plain "xdata" [[word "xdata", kind .identifier, keywords, ref "raw_body"]],
    .plain "storage" [[word "storage", kind .identifier, keywords, ref "raw_body"]]]

/-- **The grammar of class definitions.** -/
def draft : GrammarDraft where
  id := .udl
  start := "_document"
  exports := []
  slots := [⟨"method_code", .core, none⟩, ⟨"method_expression", .expr, none⟩]
  levels := []
  localLevels := []
  resync := memberWords.map Terminal.keyword ++ [.sym "\x7d"]
  rules := documentRules ++ keywordRules ++ typeRules ++ memberRules

end LayeredSyntax.ClassGrammar
