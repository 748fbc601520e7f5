/-
  QUOTED TEXT — two ways of writing a text between double quotes.

  Both write one escape per character that cannot stand as it is, so each is a character map:

  1. `quoted` — for dumps that people read: line ends and tabs by their letters, every other
     unprintable character by its code point between braces.
  2. `jsonString` — for journal lines that programs read: the escapes of JSON, with four
     hexadecimal digits for the controls that have no letter.
-/
import LayeredSyntax.Text.Classes

namespace LayeredSyntax

/-- The hexadecimal digits of a number, lower case. -/
def hexDigits (n : Nat) : String := String.ofList (Nat.toDigits 16 n)

/-- `text` with zeros in front up to `size` characters. -/
def zeroPadded (size : Nat) (text : String) : String :=
  String.ofList (List.replicate (size - text.length) '0') ++ text

/-- One character of a quoted dump. -/
def quotedChar (c : Char) : String :=
  if c == '"' then "\\\""
  else if c == '\\' then "\\\\"
  else if c == '\n' then "\\n"
  else if c == '\r' then "\\r"
  else if c == '\t' then "\\t"
  else if c.toNat == 0 then "\\0"
  else if isUnprintable c then "\\u\x7b" ++ hexDigits c.toNat ++ "\x7d"
  else c.toString

/-- A text as a dump shows it. -/
def quoted (text : String) : String :=
  text.foldl (fun out c => out ++ quotedChar c) "\"" ++ "\""

/-- One character of a JSON string. -/
def jsonChar (c : Char) : String :=
  if c == '"' then "\\\""
  else if c == '\\' then "\\\\"
  else if c == '\n' then "\\n"
  else if c == '\r' then "\\r"
  else if c == '\t' then "\\t"
  else if c.toNat == 8 then "\\b"
  else if c.toNat == 12 then "\\f"
  else if c.toNat < 0x20 then "\\u" ++ zeroPadded 4 (hexDigits c.toNat)
  else c.toString

/-- A text as a JSON string. -/
def jsonString (text : String) : String :=
  text.foldl (fun out c => out ++ jsonChar c) "\"" ++ "\""

end LayeredSyntax
