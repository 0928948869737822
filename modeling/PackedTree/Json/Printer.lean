/-
# Writing JSON

Two forms of one document: `Json.compact` on a line without blanks, and `Json.pretty` with an
entry on each line and two blanks of indentation for each level.
-/
import PackedTree.Decimal.Layout
import PackedTree.Json.Document

namespace PackedTree.Json

/-- Doubles are positional from `1e-5` to below `1e16`, and a tie goes to the even digit. -/
def realLayout : Decimal.Layout :=
  { leastPositional := -5, greatestPositional := 15, plusSign := true, tie := .even }

def Number.render : Number → String
  | .natural n => toString n
  | .negative n => "-" ++ toString n
  | .real x => x.render realLayout

/-- One character of a string: the quote, the backslash and the controls are escaped, and all
else stands for itself. -/
def escapeChar (c : Char) : List Char :=
  if c = '"' then ['\\', '"']
  else if c = '\\' then ['\\', '\\']
  else if c = '\x08' then ['\\', 'b']
  else if c = '\x0c' then ['\\', 'f']
  else if c = '\n' then ['\\', 'n']
  else if c = '\r' then ['\\', 'r']
  else if c = '\t' then ['\\', 't']
  else if c < ' ' then
    ['\\', 'u', '0', '0', Nat.digitChar (c.toNat / 16), Nat.digitChar (c.toNat % 16)]
  else [c]

/-- A string in quotes. -/
def quote (s : String) : List Char := '"' :: (s.toList.flatMap escapeChar ++ ['"'])

/-- Texts with a separator between neighbours. -/
def separated (separator : List Char) : List (List Char) → List Char
  | [] => []
  | [text] => text
  | text :: more => text ++ separator ++ separated separator more

mutual

/-- **A document on one line**, without blanks. -/
def compactChars : Json → List Char
  | .null => "null".toList
  | .bool b => (if b then "true" else "false").toList
  | .number n => n.render.toList
  | .string s => quote s
  | .array items => '[' :: (separated [','] (compactItems items) ++ [']'])
  | .object members => '\x7b' :: (separated [','] (compactMembers members) ++ ['\x7d'])

def compactItems : List Json → List (List Char)
  | [] => []
  | item :: rest => compactChars item :: compactItems rest

def compactMembers : List (String × Json) → List (List Char)
  | [] => []
  | (name, value) :: rest => (quote name ++ ':' :: compactChars value) :: compactMembers rest

end

def compact (document : Json) : String := String.ofList (compactChars document)

/-- A line break and the indentation of a level. -/
def newLine (level : Nat) : List Char := '\n' :: List.replicate (2 * level) ' '

mutual

/-- **A document over several lines**, inside `level` lists and objects. -/
def prettyChars (level : Nat) : Json → List Char
  | .null => "null".toList
  | .bool b => (if b then "true" else "false").toList
  | .number n => n.render.toList
  | .string s => quote s
  | .array [] => ['[', ']']
  | .array (item :: rest) =>
    '[' :: (newLine (level + 1) ++
      separated (',' :: newLine (level + 1))
        (prettyChars (level + 1) item :: prettyItems (level + 1) rest) ++ newLine level ++ [']'])
  | .object [] => ['\x7b', '\x7d']
  | .object ((name, value) :: rest) =>
    '\x7b' :: (newLine (level + 1) ++
      separated (',' :: newLine (level + 1))
        ((quote name ++ ':' :: ' ' :: prettyChars (level + 1) value) ::
          prettyMembers (level + 1) rest) ++ newLine level ++ ['\x7d'])

def prettyItems (level : Nat) : List Json → List (List Char)
  | [] => []
  | item :: rest => prettyChars level item :: prettyItems level rest

def prettyMembers (level : Nat) : List (String × Json) → List (List Char)
  | [] => []
  | (name, value) :: rest =>
    (quote name ++ ':' :: ' ' :: prettyChars level value) :: prettyMembers level rest

end

def pretty (document : Json) : String := String.ofList (prettyChars 0 document)

end PackedTree.Json
