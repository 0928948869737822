/-
# Quoted text

`Text.quote` writes a text between double quotes so that every character can be seen.  The common
controls, the quote and the backslash have short escapes, other hidden characters are written by
their code point in braces, and all else stands for itself.
-/
import PackedTree.Text.Hidden

namespace PackedTree.Text

/-- The lower-case hexadecimal digits of a number, without leading zeros. -/
def hex (n : Nat) : String := String.ofList (Nat.toDigits 16 n)

/-- One character inside quotes. -/
def quoteChar (c : Char) : String :=
  if c = '\x00' then "\\0"
  else if c = '\t' then "\\t"
  else if c = '\n' then "\\n"
  else if c = '\r' then "\\r"
  else if c = '"' then "\\\""
  else if c = '\\' then "\\\\"
  else if isHidden c then "\\u\x7b" ++ hex c.toNat ++ "\x7d"
  else c.toString

/-- **Quoted text**, character by character. -/
def quote (s : String) : String :=
  "\"" ++ s.toList.foldl (fun written c => written ++ quoteChar c) "" ++ "\""

end PackedTree.Text
