/-
  WORDS — the vocabulary of the language: commands, functions, variables, directives and the
  keywords of class members.

  Every question is asked of a word in lower case, since case never matters.  A command has a
  canonical name and some spellings, and spellings overlap: one letter can stand for two commands,
  and the grammar decides between them.  Commands that begin with `zz` are defined by users and are
  recognised by that alone.
-/
import LayeredSyntax.Lexicon.Mode

namespace LayeredSyntax

/-! ## Commands -/

/-- A command of the language. -/
structure CommandWord where
  /-- The name that grammars use. -/
  name : String
  /-- How it may be written. -/
  forms : List String
  /-- Whether a block in braces may follow it. -/
  block : Bool
deriving DecidableEq, Inhabited, Repr

/-- The commands, with the short forms in front. -/
def commandWords : List CommandWord := [
    ⟨"set", ["s", "set"], false⟩,
    ⟨"write", ["w", "write"], false⟩,
    ⟨"do", ["d", "do"], true⟩,
    ⟨"for", ["f", "for"], true⟩,
    ⟨"while", ["while"], true⟩,
    ⟨"kill", ["k", "kill"], false⟩,
    ⟨"lock", ["l", "lock"], false⟩,
    ⟨"read", ["r", "read"], false⟩,
    ⟨"open", ["o", "open"], false⟩,
    ⟨"close", ["c", "close"], false⟩,
    ⟨"use", ["u", "use"], false⟩,
    ⟨"new", ["n", "new"], false⟩,
    ⟨"if", ["i", "if"], true⟩,
    ⟨"elseif", ["elseif"], true⟩,
    ⟨"else", ["else"], true⟩,
    ⟨"oldelse", ["e", "else"], false⟩,
    ⟨"throw", ["throw"], false⟩,
    ⟨"try", ["try"], true⟩,
    ⟨"catch", ["catch"], true⟩,
    ⟨"job", ["j", "job"], false⟩,
    ⟨"break", ["b", "break"], false⟩,
    ⟨"merge", ["m", "merge"], false⟩,
    ⟨"return", ["ret", "return"], false⟩,
    ⟨"quit", ["q", "quit"], false⟩,
    ⟨"goto", ["g", "goto"], false⟩,
    ⟨"halt", ["h", "halt"], false⟩,
    ⟨"hang", ["h", "hang"], false⟩,
    ⟨"continue", ["continue"], false⟩,
    ⟨"tcommit", ["tc", "tcommit"], false⟩,
    ⟨"trollback", ["tro", "trollback"], false⟩,
    ⟨"tstart", ["ts", "tstart"], false⟩,
    ⟨"xecute", ["x", "xecute"], false⟩,
    ⟨"view", ["v", "view"], false⟩,
    ⟨"zbreak", ["zb", "zbreak"], false⟩,
    ⟨"zkill", ["zkill"], false⟩,
    ⟨"znspace", ["zn", "znspace"], false⟩,
    ⟨"zsu", ["zsu"], false⟩,
    ⟨"ztrap", ["zt", "ztrap"], false⟩,
    ⟨"zwrite", ["zw", "zwrite"], false⟩]

/-- The name under which grammars take every user-defined command. -/
def userCommandName : String := "zz"

/-- User-defined commands begin with `zz` and go on with letters and digits. -/
def isUserCommand (word : String) : Bool :=
  match word.toList with
  | 'z' :: 'z' :: rest => !rest.isEmpty && rest.all Char.isAlphanum
  | _ => false

/-- The command of a canonical name. -/
def commandWord? (name : String) : Option CommandWord := commandWords.find? (·.name == name)

/-- Whether a word is the spelling of a command. -/
def isCommandWord (word : String) : Bool :=
  isUserCommand word || commandWords.any (·.forms.contains word)

/-- Whether a word is a spelling of the command `name`. -/
def spellsCommand (name word : String) : Bool :=
  if name == userCommandName then isUserCommand word
  else (commandWord? name).any (·.forms.contains word)

/-- Whether a word spells some command that takes a block. -/
def isBlockCommand (word : String) : Bool :=
  commandWords.any fun c => c.block && c.forms.contains word

/-! ## Functions and variables of the system -/

/-- Names that stand between a dollar sign and a parenthesis, with their short forms. -/
def systemFunctions : List String := [
    "a", "ascii", "bit", "bitcount", "bitfind", "bitlogic", "c", "case", "char", "classmethod",
    "classname", "compile", "d", "data", "decimal", "double", "e", "extract", "f", "factor",
    "find", "fn", "fnumber", "g", "get", "i", "in", "increment", "inumber", "isobject",
    "isvaliddouble", "isvalidnum", "isvector", "j", "justify", "l", "lb", "ld", "length", "lf",
    "lfs", "lg", "li", "list", "listbuild", "listdata", "listfind", "listfromstring", "listget",
    "listlength", "listnext", "listsame", "listtostring", "listupdate", "listvalid", "ll",
    "locate", "ls", "lts", "lu", "lv", "match", "method", "na", "name", "nc", "nconvert",
    "normalize", "now", "num", "number", "o", "order", "p", "parameter", "piece", "prefetchoff",
    "prefetchon", "preprocess", "property", "q", "ql", "qlength", "qs", "qsubscript", "query",
    "r", "random", "re", "replace", "reverse", "s", "sc", "sconvert", "select", "seq",
    "sequence", "sortbegin", "sortend", "st", "stack", "t", "text", "tr", "translate", "v", "vd",
    "ve", "vector", "vectordefined", "vectorop", "view", "vop", "wa", "wascii", "wc", "wchar",
    "we", "wextract", "wf", "wfind", "wiswide", "wl", "wlength", "wre", "wreverse", "xecute",
    "zabs", "zarccos", "zarcsin", "zarctan", "zb", "zbitand", "zbitcount", "zbitfind", "zbitget",
    "zbitlen", "zbitnot", "zbitor", "zbitset", "zbitstr", "zbitxor", "zboolean", "zc",
    "zconvert", "zcos", "zcot", "zcrc", "zcsc", "zcvt", "zcyc", "zd", "zda", "zdascii", "zdate",
    "zdateh", "zdatetime", "zdatetimeh", "zdc", "zdchar", "zdh", "zdt", "zdth", "zexp", "zf",
    "zh", "zhex", "ziswide", "zla", "zlascii", "zlc", "zlchar", "zln", "zlog", "zname",
    "zobjclass", "zobjclassmethod", "zobjproperty", "zposition", "zpower", "zqa", "zqascii",
    "zqc", "zqchar", "zse", "zsearch", "zsec", "zseek", "zsin", "zsqr", "zstrip", "zt", "ztan",
    "zth", "ztime", "ztimeh", "zu", "zutil", "zv", "zversion", "zwa", "zwascii", "zwbpack",
    "zwbunpack", "zwc", "zwchar", "zwidth", "zwpack", "zwunpack", "zzenkaku"]

/-- Names that stand alone behind a dollar sign, with their short forms. -/
def systemVariables : List String := [
    "d", "device", "ec", "ecode", "es", "estack", "et", "etrap", "h", "halt", "horolog", "i",
    "io", "j", "job", "k", "key", "namespace", "p", "principal", "q", "quit", "roles", "s", "st",
    "stack", "storage", "sy", "system", "t", "test", "this", "throwobj", "tl", "tlevel",
    "username", "x", "y", "za", "zb", "zc", "zchild", "ze", "zeof", "zeos", "zerror", "zh",
    "zhorolog", "zi", "zio", "zj", "zjob", "zm", "zmode", "zn", "zname", "znspace", "zo",
    "zorder", "zp", "zparent", "zpi", "zpos", "zposition", "zr", "zreference", "zs", "zstorage",
    "zt", "ztimestamp", "ztimezone", "ztrap", "zts", "ztz", "zv", "zversion"]

/-- Whether a word names a function of the system. -/
def isSystemFunction (word : String) : Bool := systemFunctions.contains word

/-- Whether a word names a variable of the system. -/
def isSystemVariable (word : String) : Bool := systemVariables.contains word

/-! ## Directives -/

/-- The words that can follow a number sign. -/
def directiveWords : List String := [
    "def1arg", "define", "dim", "else", "elseif", "endif", "execute", "if", "ifdef", "ifndef",
    "import", "include", "sqlcompile", "undef"]

/-- Whether a word is a directive. -/
def isDirective (word : String) : Bool := directiveWords.contains word

/-- Directives that the name of a macro follows. -/
def takesMacroName (word : String) : Bool := ["define", "def1arg", "undef"].contains word

/-- Directives that no expression follows. -/
def isBareDirective (word : String) : Bool := ["else", "endif", "execute"].contains word

/-! ## Class members -/

/-- What the braces of a class member hold, if the word is the keyword of a member. -/
def memberBody? (word : String) : Option BodyKind :=
  if ["method", "classmethod", "clientmethod", "trigger"].contains word then some .code
  else if ["xdata", "storage", "query"].contains word then some .raw
  else if ["property", "parameter", "relationship", "foreignkey", "index",
      "projection"].contains word then
    some .absent
  else none

/-- What the braces behind a keyword of a member's keyword list hold. -/
def keywordValueBody? (word : String) : Option BodyKind :=
  if ["initialexpression", "condition"].contains word then some .expr
  else if word == "sqlcomputecode" then some .code
  else none

/-- Languages of a method whose body is read as commands. -/
def isNativeLanguage (word : String) : Bool :=
  ["objectscript", "cache", "ispl"].contains word

/-! ## Running the program -/

example : spellsCommand "halt" "h" = true ∧ spellsCommand "hang" "h" = true := by decide +kernel
example : isCommandWord "zzdump" = true ∧ isCommandWord "zz" = false := by decide +kernel

end LayeredSyntax
