/-
# Reading a JSON text

`Json.parse` reads a whole text as one document.  Lists and objects nest to a limited depth, and
the depth still allowed drives the recursion.  The readers of separators are shared with the
reader of configurations.
-/
import PackedTree.Json.Token
import PackedTree.Named

namespace PackedTree.Json

/-! ## 1. Separators -/

/-- What follows in a list or an object: another entry, or the end. -/
inductive Next where
  | entry (rest : Input)
  | done (rest : Input)

/-- The next entry of a list, or its end.  The entry's text starts at its first character. -/
def nextItem (isFirst : Bool) (cs : Input) : Except SyntaxError Next :=
  match skipBlanks cs with
  | [] => .error .unfinishedList
  | ']' :: rest => .ok (.done rest)
  | c :: rest =>
    if isFirst then .ok (.entry (c :: rest))
    else if c = ',' then
      match skipBlanks rest with
      | [] => .error .unfinishedValue
      | ']' :: _ => .error .trailingComma
      | more => .ok (.entry more)
    else .error .missingListEnd

/-- The name of a member must be a string; its text starts after the quote. -/
def memberName (cs : Input) : Except SyntaxError Next :=
  match cs with
  | [] => .error .unfinishedValue
  | '"' :: rest => .ok (.entry rest)
  | '\x7d' :: _ => .error .trailingComma
  | _ => .error .nameNotString

/-- The next member of an object, or its end. -/
def nextMember (isFirst : Bool) (cs : Input) : Except SyntaxError Next :=
  match skipBlanks cs with
  | [] => .error .unfinishedObject
  | '\x7d' :: rest => .ok (.done rest)
  | c :: rest =>
    if isFirst then memberName (c :: rest)
    else if c = ',' then memberName (skipBlanks rest)
    else .error .missingObjectEnd

/-- The colon between a name and its value. -/
def colon (cs : Input) : Except SyntaxError Input :=
  match skipBlanks cs with
  | [] => .error .unfinishedObject
  | ':' :: rest => .ok rest
  | _ => .error .missingColon

/-! ## 2. Lists and objects, given a reader of values -/

/-- The items of a list after its bracket.  `room` bounds their number; the length of the text
is enough, because an item takes a character. -/
def readItems (value : Input → Result Json) (room : Nat) (read : List Json) (cs : Input) :
    Result (List Json) :=
  match room with
  | 0 => .error .unfinishedList
  | room + 1 =>
    match nextItem read.isEmpty cs with
    | .error e => .error e
    | .ok (.done rest) => .ok (read.reverse, rest)
    | .ok (.entry text) =>
      match value text with
      | .error e => .error e
      | .ok (item, rest) => readItems value room (item :: read) rest

/-- The members of an object after its brace, within `room` as for a list. -/
def readMembers (value : Input → Result Json) (room : Nat) (isFirst : Bool)
    (read : List (String × Json)) (cs : Input) : Result (List (String × Json)) :=
  match room with
  | 0 => .error .unfinishedObject
  | room + 1 =>
    match nextMember isFirst cs with
    | .error e => .error e
    | .ok (.done rest) => .ok (read, rest)
    | .ok (.entry text) =>
      match readString "" text with
      | .error e => .error e
      | .ok (name, rest) =>
        match colon rest with
        | .error e => .error e
        | .ok text =>
          match value text with
          | .error e => .error e
          | .ok (v, rest) => readMembers value room false (Named.set name v read) rest

/-! ## 3. Values -/

/-- A value that is not a list or an object, from its first character. -/
def readScalar (c : Char) (rest : Input) : Result Json :=
  if c = 'n' then (word "ull".toList rest).map fun rest => (.null, rest)
  else if c = 't' then (word "rue".toList rest).map fun rest => (.bool true, rest)
  else if c = 'f' then (word "alse".toList rest).map fun rest => (.bool false, rest)
  else if c = '"' then (readString "" rest).map fun (s, rest) => (.string s, rest)
  else if c = '-' then (readNumber true rest).map fun (n, rest) => (.number n, rest)
  else if (digit? c).isSome then
    (readNumber false (c :: rest)).map fun (n, rest) => (.number n, rest)
  else .error .missingValue

/-- **A value**, in which lists and objects nest at most `depth` deep. -/
def readValue : (depth : Nat) → Input → Result Json
  | depth, cs =>
    match skipBlanks cs with
    | [] => .error .unfinishedValue
    | '[' :: rest =>
      match depth with
      | 0 => .error .tooDeep
      | depth + 1 =>
        (readItems (readValue depth) (rest.length + 1) [] rest).map
          fun (is, rest) => (.array is, rest)
    | '\x7b' :: rest =>
      match depth with
      | 0 => .error .tooDeep
      | depth + 1 =>
        (readMembers (readValue depth) (rest.length + 1) true [] rest).map
          fun (ms, rest) => (.object ms, rest)
    | c :: rest => readScalar c rest

/-- How deep lists and objects may nest. -/
def depthLimit : Nat := 127

/-- Nothing but blanks may follow a document. -/
def finish (cs : Input) : Except SyntaxError Unit :=
  if (skipBlanks cs).isEmpty then .ok () else .error .trailingText

/-- **Reads a text as one document.** -/
def parse (text : String) : Except SyntaxError Json :=
  match readValue depthLimit text.toList with
  | .error e => .error e
  | .ok (document, rest) => (finish rest).map fun _ => document

end PackedTree.Json
