/-
# Reading a configuration

A configuration document is a JSON object with any of the fields, or a list of their values in
order, of which the last ones may be left out.  What is left out takes its default.  The text is
read in one go, so the first fault counts, be it one of JSON or one of a field.
-/
import PackedTree.Config
import PackedTree.Json.Printer
import PackedTree.Json.Reader
import PackedTree.Text.Quoted

namespace PackedTree.Config

open PackedTree.Json (Input SyntaxError)

/-! ## 1. Faults -/

/-- A value that is not of the expected kind. -/
inductive Found where
  | null
  | bool (b : Bool)
  | number (n : Json.Number)
  | string (s : String)
  | list
  | object
deriving DecidableEq, Repr

def Found.show : Found → String
  | null => "null"
  | bool b => "boolean `" ++ (if b then "true" else "false") ++ "`"
  | number (.real x) => "floating point `" ++ Json.Number.render (.real x) ++ "`"
  | number n => "integer `" ++ n.render ++ "`"
  | string s => "string " ++ Text.quote s
  | list => "sequence"
  | object => "map"

def Found.ofJson : Json → Found
  | .null => null
  | .bool b => bool b
  | .number n => number n
  | .string s => string s
  | .array _ => list
  | .object _ => object

/-- The fields of a configuration, in order. -/
inductive Field where
  | intEncoding
  | ordered
  | dedup
  | progressInterval
  | maxSize
deriving DecidableEq, Repr

namespace Field

def all : List Field := [intEncoding, ordered, dedup, progressInterval, maxSize]

def name : Field → String
  | intEncoding => "int_encoding"
  | ordered => "ordered"
  | dedup => "dedup"
  | progressInterval => "progress_interval"
  | maxSize => "max_size"

def ofName? (s : String) : Option Field := all.find? (·.name = s)

end Field

/-- The first fault of a configuration document. -/
inductive ReadError where
  | malformed (e : SyntaxError)
  | wrongType (found : Found) (expected : String)
  | wrongValue (found : Found) (expected : String)
  | unknownField (name : String)
  | unknownVariant (name : String)
  | duplicateField (field : Field)
deriving DecidableEq, Repr

/-- A name between backquotes. -/
def backquoted (s : String) : String := "`" ++ s ++ "`"

/-- The wording of a fault. -/
def ReadError.message : ReadError → String
  | malformed e => e.message
  | wrongType found expected => "invalid type: " ++ found.show ++ ", expected " ++ expected
  | wrongValue found expected => "invalid value: " ++ found.show ++ ", expected " ++ expected
  | unknownField name =>
    "unknown field " ++ backquoted name ++ ", expected one of " ++
      ", ".intercalate (Field.all.map fun f => backquoted f.name)
  | unknownVariant name =>
    "unknown variant " ++ backquoted name ++ ", expected " ++
      backquoted IntEncoding.varint.name ++ " or " ++ backquoted IntEncoding.fixed32.name
  | duplicateField field => "duplicate field " ++ backquoted field.name

/-- A value with the text after it, or a fault. -/
abbrev Result (α : Type) := Except ReadError (α × Input)

/-- A reader of JSON among the readers of fields. -/
def lift {α : Type} : Except SyntaxError α → Except ReadError α := Except.mapError .malformed

/-! ## 2. Values of fields -/

/-- Reads a scalar and accepts it, or says what was expected.  A list or an object is refused at
its first character. -/
def readScalar {α : Type} (expected : String) (accept : Json → Except ReadError α)
    (cs : Input) : Result α :=
  match Json.skipBlanks cs with
  | [] => .error (.malformed .unfinishedValue)
  | '[' :: _ => .error (.wrongType .list expected)
  | '\x7b' :: _ => .error (.wrongType .object expected)
  | c :: rest =>
    match Json.readScalar c rest with
    | .error e => .error (.malformed e)
    | .ok (scalar, rest) => (accept scalar).map fun a => (a, rest)

def readBool : Input → Result Bool :=
  let expected := "a boolean"
  readScalar expected fun
    | .bool b => .ok b
    | other => .error (.wrongType (.ofJson other) expected)

/-- Reads a natural below a bound. -/
def readNatural (bound : Nat) (expected : String) : Input → Result Nat :=
  readScalar expected fun
    | .number (.natural n) =>
      if n < bound then .ok n else .error (.wrongValue (.number (.natural n)) expected)
    | .number (.negative n) => .error (.wrongValue (.number (.negative n)) expected)
    | other => .error (.wrongType (.ofJson other) expected)

def readNull : Input → Result Unit :=
  let expected := "unit"
  readScalar expected fun
    | .null => .ok ()
    | other => .error (.wrongType (.ofJson other) expected)

/-- Reads null as no limit, and a natural of 64 bits as a limit. -/
def readLimit (cs : Input) : Result (Option Nat) :=
  match Json.skipBlanks cs with
  | 'n' :: rest => (lift (Json.word "ull".toList rest)).map fun rest => (none, rest)
  | rest => (readNatural UInt64.size "usize" rest).map fun (n, rest) => (some n, rest)

/-- The encoding of a name whose opening quote was read. -/
def readVariant (cs : Input) : Result IntEncoding :=
  match lift (Json.readString "" cs) with
  | .error e => .error e
  | .ok (name, rest) =>
    match [IntEncoding.varint, .fixed32].find? (·.name = name) with
    | some encoding => .ok (encoding, rest)
    | none => .error (.unknownVariant name)

/-- Reads the name of an encoding in an object, which must be the only member and have the value
null.  An object without a member lacks a value. -/
def readVariantObject (cs : Input) : Except ReadError (IntEncoding × Input) := do
  let (encoding, rest) ←
    match ← lift (Json.nextMember true cs) with
    | .entry text => readVariant text
    | .done _ => throw (.malformed .missingValue)
  let rest ← lift (Json.colon rest)
  let ((), rest) ← readNull rest
  match Json.skipBlanks rest with
  | [] => throw (.malformed .unfinishedObject)
  | '\x7d' :: rest => return (encoding, rest)
  | _ => throw (.malformed .missingValue)

/-- Reads an encoding: its name, or an object of its name. -/
def readEncoding (cs : Input) : Result IntEncoding :=
  match Json.skipBlanks cs with
  | [] => .error (.malformed .unfinishedValue)
  | '"' :: rest => readVariant rest
  | '\x7b' :: rest => readVariantObject rest
  | _ => .error (.malformed .missingValue)

/-- **Reads a field** into a configuration. -/
def readField (config : Config) (cs : Input) : Field → Result Config
  | .intEncoding => (readEncoding cs).map fun (v, rest) => ({ config with intEncoding := v }, rest)
  | .ordered => (readBool cs).map fun (v, rest) => ({ config with ordered := v }, rest)
  | .dedup => (readBool cs).map fun (v, rest) => ({ config with dedup := v }, rest)
  | .progressInterval =>
    (readNatural UInt32.size "u32" cs).map fun (v, rest) =>
      ({ config with progressInterval := v }, rest)
  | .maxSize => (readLimit cs).map fun (v, rest) => ({ config with maxSize := v }, rest)

/-! ## 3. Documents -/

/-- Reads the members of an object.  `unread` holds the fields without a value yet; a second value
of a field is refused. -/
def readMembers (config : Config) (unread : List Field) (isFirst : Bool) (cs : Input) :
    Result Config :=
  match lift (Json.nextMember isFirst cs) with
  | .error e => .error e
  | .ok (.done rest) => .ok (config, rest)
  | .ok (.entry text) =>
    match lift (Json.readString "" text) with
    | .error e => .error e
    | .ok (name, rest) =>
      match Field.ofName? name with
      | none => .error (.unknownField name)
      | some field =>
        if field ∈ unread then
          match lift (Json.colon rest) with
          | .error e => .error e
          | .ok rest =>
            match readField config rest field with
            | .error e => .error e
            | .ok (config, rest) => readMembers config (unread.erase field) false rest
        else .error (.duplicateField field)
termination_by unread.length
decreasing_by
  have := List.length_pos_of_mem ‹field ∈ unread›
  rw [List.length_erase_of_mem ‹field ∈ unread›]
  omega

/-- The end of a list whose items are all read. -/
def closeList (cs : Input) : Except ReadError Input :=
  match Json.skipBlanks cs with
  | [] => .error (.malformed .unfinishedList)
  | ']' :: rest => .ok rest
  | ',' :: rest =>
    match Json.skipBlanks rest with
    | ']' :: _ => .error (.malformed .trailingComma)
    | _ => .error (.malformed .trailingText)
  | _ => .error (.malformed .trailingText)

/-- Reads the items of a list as the given fields. -/
def readItems (config : Config) (isFirst : Bool) (cs : Input) : List Field → Result Config
  | [] => (closeList cs).map fun rest => (config, rest)
  | field :: fields =>
    match lift (Json.nextItem isFirst cs) with
    | .error e => .error e
    | .ok (.done rest) => .ok (config, rest)
    | .ok (.entry text) =>
      match readField config text field with
      | .error e => .error e
      | .ok (config, rest) => readItems config false rest fields

/-- Reads a configuration at the start of a text. -/
def readDocument (cs : Input) : Result Config :=
  match Json.skipBlanks cs with
  | '[' :: rest => readItems {} true rest Field.all
  | '\x7b' :: rest => readMembers {} Field.all true rest
  | rest =>
    let expected := "struct EncoderConfig"
    readScalar expected (fun other => .error (.wrongType (.ofJson other) expected)) rest

/-- **Reads a text as one configuration.** -/
def parse (text : String) : Except ReadError Config :=
  match readDocument text.toList with
  | .error e => .error e
  | .ok (config, rest) => (lift (Json.finish rest)).map fun _ => config

end PackedTree.Config
