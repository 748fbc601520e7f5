/-
  THE COMMAND GRAMMAR — lines of labels, commands and directives.

  Every operand is a slot that the expression grammar fills.  The places where two readings begin
  alike are left to the parse:

  1. The argument of `do` can be a routine or an expression over the same tokens.  The routine is
     written first, and so it is what remains.
  2. `else` is a command of its own and also the second half of an `if`.  The reading that does not
     meet its brace ends.
  3. The line end behind a closing brace can end the command or come before its continuation.  Both
     readings go on until the next command tells.
  4. The target of an assignment is never a comparison, so the equals sign is read in one way only.
-/
import LayeredSyntax.Grammar.Phrase

namespace LayeredSyntax.CommandGrammar

open Phrase

/-- A condition behind a command word, which can be left out. -/
def condition : Phrase := maybe [ref "postconditional"]

/-- An expression. -/
def expression : Phrase := embed "expression"

/-- Expressions between commas. -/
def expressions : Phrase := list1 [expression] (sym ",")

/-- A command with a condition, and with arguments that can be left out. -/
def simple (rule command : String) (arguments : List Phrase) : RuleDraft :=
  .plain rule [[cmd command, condition] ++ arguments.map fun a => maybe [a]]

/-! ## Rules -/

/-- Lines. -/
def lineRules : List RuleDraft := [
    .plain "_body" [[many1 [ref "_line_item"]]],
    .choice "_line_item" [kind .newline, ref "statement", ref "dotted_statement", ref "tag",
      ref "tag_with_params", ref "procedure", ref "_preprocessor"],
    .plain "statement" [[ref "_command"]],
    .plain "dotted_statement" [[many1 [sym "."], ref "statement"]],
    .plain "block" [[leftBrace, maybe [ref "_body"], rightBrace]],
    .plain "_newlines" [[many1 [kind .newline]]],
    .plain "postconditional" [[sym ":", expression]]]

/-- Labels. -/
def labelRules : List RuleDraft := [
    .plain "tag" [[kind .label]],
    .plain "tag_with_params" [[kind .label, sym "(", maybe [ref "_formal_list"], sym ")"]],
    .plain "procedure" [[kind .label, sym "(", maybe [ref "_formal_list"], sym ")",
        maybe [ref "public_variables"], maybe [ref "_procedure_access"], ref "block"]],
    .plain "_formal_list" [[list1 [ref "formal_parameter"] (sym ",")]],
    .plain "formal_parameter" [[kind .identifier], [kind .identifier, sym "=", expression],
      [kind .identifier, sym "..."]],
    .plain "public_variables" [[sym "[", maybe [list1 [kind .identifier] (sym ",")], sym "]"]],
    .choice "_procedure_access" [word "public", word "private", word "methodimpl"]]

/-- All commands. -/
def commandRules : List RuleDraft := [
    .choice "_command" [ref "command_set", ref "command_write", ref "command_do",
      ref "command_do_while", ref "command_if", ref "command_else", ref "command_for",
      ref "command_while", ref "command_kill", ref "command_lock", ref "command_read",
      ref "command_open", ref "command_use", ref "command_close", ref "command_new",
      ref "command_quit", ref "command_return", ref "command_goto", ref "command_halt",
      ref "command_hang", ref "command_job", ref "command_merge", ref "command_xecute",
      ref "command_view", ref "command_break", ref "command_throw", ref "command_try",
      ref "command_tstart", ref "command_tcommit", ref "command_trollback",
      ref "command_continue", ref "command_zwrite", ref "command_zkill", ref "command_znspace",
      ref "command_ztrap", ref "command_zsu", ref "command_zbreak", ref "command_z",
      ref "macro_statement", ref "embedded_sql", ref "embedded_html", ref "embedded_js",
      ref "embedded_xml"]]

/-- Assignments. -/
def setRules : List RuleDraft := [
    .plain "command_set" [[cmd "set", condition, list1 [ref "set_argument"] (sym ",")]],
    .plain "set_argument" [[embed "assignable", sym "=", expression],
      [sym "(", list1 [embed "assignable"] (sym ","), sym ")", sym "=", expression]]]

/-- Writing, and the controls of its format. -/
def writeRules : List RuleDraft := [
    simple "command_write" "write" [list1 [ref "_write_argument"] (sym ",")],
    .plain "_write_argument" [[expression], [ref "write_format"],
      [ref "write_format", expression], [ref "write_tab"], [ref "write_char"],
      [ref "write_mnemonic"]],
    .plain "write_format" [[many1 [oneOf [[sym "!"], [sym "#"]]]]],
    .plain "write_tab" [[sym "?", expression]],
    .plain "write_char" [[sym "*", expression]],
    .plain "write_mnemonic" [[sym "/", kind .identifier, maybe [embed "method_args"]]]]

/-- Calling routines. -/
def doRules : List RuleDraft := [
    simple "command_do" "do" [list1 [ref "do_argument"] (sym ",")],
    .plain "do_argument" [[ref "routine_ref", condition],
      [ref "routine_ref", embed "method_args", condition], [expression, condition]],
    .plain "command_do_while" [[cmd "do", ref "block", cmd "while", expressions]],
    .plain "routine_ref" [[kind .identifier, maybe [sym "+", kind .number],
        maybe [sym "^", kind .identifier]], [sym "^", kind .identifier]]]

/-- Conditions. -/
def ifRules : List RuleDraft := [
    .plain "command_if" [[cmd "if"], [cmd "if", expressions],
      [cmd "if", expressions, ref "block", maybe [many1 [ref "_elseif_part"]],
        maybe [maybe [ref "_newlines"], ref "else_block"]]],
    .plain "_elseif_part" [[maybe [ref "_newlines"], ref "elseif_block"]],
    .plain "elseif_block" [[cmd "elseif", expressions, ref "block"]],
    .plain "else_block" [[cmd "else", ref "block"]],
    .plain "command_else" [[cmd "oldelse", condition]]]

/-- Loops. -/
def loopRules : List RuleDraft := [
    .plain "command_for" [[cmd "for", maybe [ref "for_parameter"]],
      [cmd "for", maybe [ref "for_parameter"], ref "block"]],
    .plain "for_parameter" [[embed "lvn", sym "=", list1 [ref "for_range"] (sym ",")]],
    .plain "for_range" [[expression, maybe [sym ":", expression, maybe [sym ":", expression]]]],
    .plain "command_while" [[cmd "while", expressions, ref "block"]]]

/-- Variables and locks. -/
def variableRules : List RuleDraft := [
    simple "command_kill" "kill" [list1 [ref "_kill_argument"] (sym ",")],
    .choice "_kill_argument" [embed "glvn", ref "exclusive_list"],
    .plain "exclusive_list" [[sym "(", list1 [embed "lvn"] (sym ","), sym ")"]],
    simple "command_new" "new" [list1 [ref "_new_argument"] (sym ",")],
    .choice "_new_argument" [kind .identifier, kind .systemVariable, ref "exclusive_list"],
    simple "command_lock" "lock" [list1 [ref "lock_argument"] (sym ",")],
    .plain "lock_argument" [[maybe [oneOf [[sym "+"], [sym "-"]]], ref "_lock_target",
        maybe [sym "#", kind .string], maybe [sym ":", expression]]],
    .plain "_lock_target" [[embed "glvn"], [sym "(", list1 [embed "glvn"] (sym ","), sym ")"]],
    .plain "command_merge" [[cmd "merge", condition, list1 [ref "merge_argument"] (sym ",")]],
    .plain "merge_argument" [[embed "glvn", sym "=", embed "glvn"]]]

/-- Devices. -/
def deviceRules : List RuleDraft := [
    .plain "command_read" [[cmd "read", condition, list1 [ref "_read_argument"] (sym ",")]],
    .choice "_read_argument" [kind .string, ref "write_format", ref "write_tab",
      ref "read_target"],
    .plain "read_target" [[maybe [sym "*"], embed "glvn", maybe [sym "#", expression],
        maybe [sym ":", expression]]],
    .plain "command_open" [[cmd "open", condition, list1 [ref "io_argument"] (sym ",")]],
    .plain "command_use" [[cmd "use", condition, list1 [ref "io_argument"] (sym ",")]],
    .plain "command_close" [[cmd "close", condition, list1 [ref "io_argument"] (sym ",")]],
    .plain "io_argument" [[expression, maybe [ref "_io_tail"]]],
    .plain "_io_tail" [[sym ":"], [sym ":", ref "_io_parameter"], [ref "_io_tail", sym ":"],
      [ref "_io_tail", sym ":", ref "_io_parameter"]],
    .choice "_io_parameter" [expression, ref "io_parameter_list"],
    .plain "io_parameter_list" [[sym "(", list1 [ref "_io_parameter_item"] (sym ":"), sym ")"]],
    .choice "_io_parameter_item" [expression, ref "io_keyword"],
    .plain "io_keyword" [[sym "/", kind .identifier, maybe [sym "=", expression]]]]

/-- The flow of control. -/
def flowRules : List RuleDraft := [
    simple "command_quit" "quit" [expression],
    simple "command_return" "return" [expression],
    simple "command_goto" "goto" [list1 [ref "goto_argument"] (sym ",")],
    .plain "goto_argument" [[ref "routine_ref", condition]],
    simple "command_halt" "halt" [],
    .plain "command_hang" [[cmd "hang", condition, expressions]],
    .plain "command_job" [[cmd "job", condition, list1 [ref "job_argument"] (sym ",")]],
    .plain "job_argument" [[ref "routine_ref", maybe [embed "method_args"],
        maybe [ref "_io_tail"]], [expression, maybe [ref "_io_tail"]]],
    .plain "command_xecute" [[cmd "xecute", condition, list1 [ref "xecute_argument"] (sym ",")]],
    .plain "xecute_argument" [[expression, condition]],
    .plain "command_view" [[cmd "view", condition, list1 [ref "view_argument"] (sym ",")]],
    .plain "view_argument" [[list1 [expression] (sym ":")]],
    simple "command_break" "break" [expression],
    simple "command_throw" "throw" [expression],
    simple "command_continue" "continue" []]

/-- Faults. -/
def tryRules : List RuleDraft := [
    .plain "command_try" [[cmd "try", ref "block", maybe [ref "_newlines"], ref "catch_block"]],
    .plain "catch_block" [[cmd "catch", ref "block"],
      [cmd "catch", kind .identifier, ref "block"],
      [cmd "catch", sym "(", kind .identifier, sym ")", ref "block"]]]

/-- Transactions. -/
def transactionRules : List RuleDraft := [
    simple "command_tstart" "tstart" [expression],
    simple "command_tcommit" "tcommit" [],
    simple "command_trollback" "trollback" [expression]]

/-- Commands of the system. -/
def zRules : List RuleDraft := [
    simple "command_zwrite" "zwrite" [expressions],
    .plain "command_zkill" [[cmd "zkill", condition, list1 [embed "glvn"] (sym ",")]],
    .plain "command_znspace" [[cmd "znspace", condition, expression]],
    simple "command_ztrap" "ztrap" [expression],
    simple "command_zsu" "zsu" [expressions],
    simple "command_zbreak" "zbreak" [expressions],
    simple "command_z" "zz" [expressions],
    .plain "macro_statement" [[embed "macro"]]]

/-- A directive that defines a macro. -/
def definition (rule directive : String) : RuleDraft :=
  .plain rule
    [[hash directive, kind .identifier, maybe [ref "macro_parameters"], maybe [kind .rawText]]]

/-- Directives. -/
def directiveRules : List RuleDraft := [
    .choice "_preprocessor" [ref "pound_define", ref "pound_def1arg", ref "pound_undef",
      ref "pound_if", ref "pound_ifdef", ref "pound_ifndef", ref "pound_elseif", ref "pound_else",
      ref "pound_endif", ref "pound_include", ref "pound_import", ref "pound_dim",
      ref "pound_sqlcompile", ref "pound_execute"],
    definition "pound_define" "#define",
    definition "pound_def1arg" "#def1arg",
    .plain "macro_parameters" [[sym "(", maybe [list1 [kind .identifier] (sym ",")], sym ")"]],
    .plain "pound_undef" [[hash "#undef", kind .identifier]],
    .plain "pound_if" [[hash "#if", expression]],
    .plain "pound_ifdef" [[hash "#ifdef", kind .identifier]],
    .plain "pound_ifndef" [[hash "#ifndef", kind .identifier]],
    .plain "pound_elseif" [[hash "#elseif", expression]],
    .plain "pound_else" [[hash "#else"]],
    .plain "pound_endif" [[hash "#endif"]],
    .plain "pound_execute" [[hash "#execute"]],
    .plain "pound_include" [[hash "#include", kind .identifier]],
    .plain "pound_import" [[hash "#import", list1 [embed "class_name"] (sym ",")]],
    .plain "pound_dim" [[hash "#dim", list1 [kind .identifier] (sym ","),
        maybe [word "as", embed "class_name"], maybe [sym "=", expression]]],
    .plain "pound_sqlcompile" [[hash "#sqlcompile", kind .identifier, sym "=", expression]]]

/-- A region of another language. -/
def region (openers : List String) (closer : String) : List (List Phrase) :=
  openers.map fun opener => [sym opener, maybe [kind .rawText], sym closer]

/-- Regions of other languages. -/
def regionRules : List RuleDraft := [
    .plain "embedded_sql" (region ["&sql(", "##sql("] ")"),
    .plain "embedded_html" (region ["&html<"] ">"),
    .plain "embedded_js" (region ["&js<"] ">"),
    .plain "embedded_xml" (region ["&xml<"] ">")]

/-- **The command grammar.** -/
def draft : GrammarDraft where
  id := .core
  start := "_body"
  exports := []
  slots := [⟨"expression", .expr, none⟩, ⟨"assignable", .expr, some "_assignable"⟩,
    ⟨"lvn", .expr, some "lvn"⟩, ⟨"glvn", .expr, some "glvn"⟩,
    ⟨"method_args", .expr, some "method_args"⟩, ⟨"macro", .expr, some "macro"⟩,
    ⟨"class_name", .expr, some "class_name"⟩]
  levels := []
  localLevels := []
  resync := [.kind .newline, .kind .command, .kind .label, .kind .directive, .sym "\x7d"]
  rules :=
    lineRules ++ labelRules ++ commandRules ++ setRules ++ writeRules ++ doRules ++ ifRules ++
    loopRules ++ variableRules ++ deviceRules ++ flowRules ++ tryRules ++ transactionRules ++
    zRules ++ directiveRules ++ regionRules

end LayeredSyntax.CommandGrammar
