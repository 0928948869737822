/-
# Reading the arguments

Arguments are read from left to right.  An option given as an argument of its own waits for its
value, and a value is checked when the next parameter begins or the arguments end; so of two
faults the later one can win, if it is an argument that no parameter fits.
-/
import PackedTree.Command.Parameter
import PackedTree.Config
import PackedTree.Text.Plain

namespace PackedTree.Command

/-! ## 1. Requests and refusals -/

/-- Changes that flags make to a configuration. -/
structure Overrides where
  fixedWidth : Bool := false
  noDedup : Bool := false
  unordered : Bool := false
  maxSize : Option Nat := none
deriving DecidableEq, Repr

def Overrides.apply (o : Overrides) (config : Config) : Config where
  intEncoding := if o.fixedWidth then .fixed32 else config.intEncoding
  ordered := config.ordered && !o.unordered
  dedup := config.dedup && !o.noDedup
  progressInterval := config.progressInterval
  maxSize := o.maxSize.or config.maxSize

/-- A command to run. -/
structure Request where
  verb : Verb
  input : String
  config : Option String := none
  overrides : Overrides := {}
  /-- Where the artifact goes, if not to the standard output. -/
  output : Option String := none
  /-- Print the counters. -/
  stats : Bool := false
  verbosity : Nat := 0
deriving DecidableEq, Repr

/-- Why a size is none. -/
inductive SizeFault where
  | empty
  | notDigit
  | tooLarge
deriving DecidableEq, Repr

/-- What is wrong with the arguments. -/
inductive UsageError where
  | unknownArgument (text : String)
  | unknownVerb (text : String)
  | missingValue (p : Parameter)
  | repeated (p : Parameter)
  | surplusValue (p : Parameter) (value : String)
  | badSize (p : Parameter) (value : String) (fault : SizeFault)
  | missingParameters (ps : List Parameter)
  | missingVerb
deriving DecidableEq, Repr

/-- An end of the reading without a command to run. -/
inductive Stop where
  | wrong (e : UsageError)
  | help (scope : Scope)
  | version
  /-- Nothing was asked for. -/
  | nothing
deriving DecidableEq, Repr

def SizeFault.message : SizeFault → String
  | empty => "cannot parse integer from empty string"
  | notDigit => "invalid digit found in string"
  | tooLarge => "number too large to fit in target type"

/-- A text between single quotes.  What a user typed cannot steer the terminal from there. -/
def quoted (s : String) : String := "'" ++ Text.plain s ++ "'"

/-- The wording of a fault. -/
def UsageError.message : UsageError → String
  | unknownArgument text => "unexpected argument " ++ quoted text ++ " found"
  | unknownVerb text => "unrecognized subcommand " ++ quoted text
  | missingValue p => "a value is required for " ++ quoted p.label ++ " but none was supplied"
  | repeated p => "the argument " ++ quoted p.label ++ " cannot be used multiple times"
  | surplusValue p value =>
    "unexpected value " ++ quoted value ++ " for " ++ quoted p.label ++
      " found; no more were expected"
  | badSize p value fault =>
    "invalid value " ++ quoted value ++ " for " ++ quoted p.label ++ ": " ++ fault.message
  | missingParameters ps =>
    "the following required arguments were not provided:" ++
      String.join (ps.map fun p => "\n  " ++ p.label)
  | missingVerb => quoted programName ++ " requires a subcommand but one was not provided"

/-! ## 2. Values -/

/-- The bound on sizes. -/
def sizeBound : Nat := UInt64.size

/-- Reads digits after a value; the first fault counts. -/
def readDigits (value : Nat) : List Char → Except SizeFault Nat
  | [] => .ok value
  | c :: cs =>
    if c.isDigit then
      let next := value * 10 + (c.toNat - '0'.toNat)
      if next < sizeBound then readDigits next cs else .error .tooLarge
    else .error .notDigit

/-- Reads a size: digits, after at most one plus sign. -/
def readSize (text : String) : Except SizeFault Nat :=
  match text.toList with
  | [] => .error .empty
  | ['+'] => .error .notDigit
  | '+' :: cs => readDigits 0 cs
  | cs => readDigits 0 cs

/-- What has been given so far. -/
structure Settings where
  input : Option String := none
  output : Option String := none
  config : Option String := none
  maxSize : Option Nat := none
  flags : List Parameter := []
  verbosity : Nat := 0
deriving DecidableEq, Repr

namespace Settings

/-- The value of a path, which must not be empty or given before. -/
def path (p : Parameter) (current : Option String) (value : String) : Except Stop String :=
  if current.isSome then .error (.wrong (.repeated p))
  else if value.isEmpty then .error (.wrong (.missingValue p))
  else .ok value

/-- Gives a parameter its value. -/
def put (s : Settings) (p : Parameter) (value : String) : Except Stop Settings :=
  match p with
  | .input => (path p s.input value).map fun v => { s with input := some v }
  | .output => (path p s.output value).map fun v => { s with output := some v }
  | .config => (path p s.config value).map fun v => { s with config := some v }
  | .maxSize =>
    if s.maxSize.isSome then .error (.wrong (.repeated p))
    else
      match readSize value with
      | .ok n => .ok { s with maxSize := some n }
      | .error fault => .error (.wrong (.badSize p value fault))
  | p => .error (.wrong (.surplusValue p value))

/-- Sets a flag.  Only the one for verbosity may be set again. -/
def set (s : Settings) (scope : Scope) (p : Parameter) : Except Stop Settings :=
  match p with
  | .help => .error (.help scope)
  | .version => .error .version
  | .verbose => .ok { s with verbosity := s.verbosity + 1 }
  | p =>
    if p ∈ s.flags then .error (.wrong (.repeated p))
    else .ok { s with flags := p :: s.flags }

end Settings

/-! ## 3. One argument -/

/-- The reading of a scope's arguments. -/
structure Scan where
  scope : Scope
  settings : Settings := {}
  /-- The parameter that was begun last, with its value if that was read. -/
  pending : Option (Parameter × Option String) := none
  /-- The input has been read. -/
  hasInput : Bool := false

/-- The forms of an argument. -/
inductive Form where
  | long (name : String) (value : Option String)
  | letters (cs : List Char)
  | plain
deriving DecidableEq, Repr

/-- The form of an argument.  A single dash is a plain one. -/
def Form.ofText (text : String) : Form :=
  match text.toList with
  | '-' :: '-' :: cs =>
    let name := String.ofList (cs.takeWhile (· ≠ '='))
    match cs.dropWhile (· ≠ '=') with
    | [] => .long name none
    | _ :: value => .long name (some (String.ofList value))
  | '-' :: c :: cs => .letters (c :: cs)
  | _ => .plain

namespace Scan

/-- Ends the parameter begun last. -/
def settle (s : Scan) : Except Stop Scan :=
  match s.pending with
  | none => .ok s
  | some (p, none) => .error (.wrong (.missingValue p))
  | some (p, some value) =>
    (s.settings.put p value).map fun settings => { s with settings, pending := none }

/-- Begins a parameter whose value is a later argument. -/
def await (s : Scan) (p : Parameter) : Except Stop Scan :=
  s.settle.map fun s => { s with pending := some (p, none) }

/-- Gives a parameter a value from the same argument. -/
def attach (s : Scan) (p : Parameter) (value : String) : Except Stop Scan := do
  let s ← s.settle
  let settings ← s.settings.put p value
  return { s with settings }

/-- Sets a flag. -/
def flag (s : Scan) (p : Parameter) : Except Stop Scan := do
  let s ← s.settle
  let settings ← s.settings.set s.scope p
  return { s with settings }

/-- Reads an argument of two dashes and a name. -/
def long (s : Scan) (name : String) (value : Option String) : Except Stop Scan :=
  match s.scope.ofLongName? name, value with
  | none, _ => .error (.wrong (.unknownArgument ("--" ++ name)))
  | some p, none => if p.takesValue then s.await p else s.flag p
  | some p, some value =>
    if p.takesValue then s.attach p value else .error (.wrong (.surplusValue p value))

/-- Reads an argument of one dash and letters.  The letter of an option makes what follows in the
argument its value, after an equals sign or without. -/
def letters (s : Scan) : List Char → Except Stop Scan
  | [] => .ok s
  | c :: cs =>
    match s.scope.ofLetter? c with
    | none => .error (.wrong (.unknownArgument ("-" ++ c.toString)))
    | some p =>
      if p.takesValue then
        match cs with
        | [] => s.await p
        | '=' :: value => s.attach p (String.ofList value)
        | value => s.attach p (String.ofList value)
      else
        match s.flag p with
        | .error stop => .error stop
        | .ok s => s.letters cs

/-- Reads a plain argument of a verb as its input. -/
def plain (s : Scan) (text : String) : Except Stop Scan :=
  if s.hasInput then .error (.wrong (.unknownArgument text))
  else s.settle.map fun s => { s with pending := some (.input, some text), hasInput := true }

/-- Reads an argument of a verb.  A plain one is the value of an option that waits for it, if
there is one. -/
def argument (s : Scan) (text : String) : Except Stop Scan :=
  match Form.ofText text with
  | .long name value => s.long name value
  | .letters cs => s.letters cs
  | .plain =>
    match s.pending with
    | some (p, none) => .ok { s with pending := some (p, some text) }
    | _ => s.plain text

/-! ## 4. All arguments -/

/-- Reads the arguments of a verb.  After two dashes all are plain. -/
def arguments (s : Scan) : List String → Except Stop Scan
  | [] => s.settle
  | text :: rest => do
    if text = "--" then
      let s ← rest.foldlM plain s
      s.settle
    else
      let s ← s.argument text
      s.arguments rest

end Scan

/-- The request of a verb with its settings.  The verbosity given after the verb wins. -/
def Settings.request (s : Settings) (verb : Verb) (verbosity : Nat) : Except Stop Request :=
  match s.input with
  | none => .error (.wrong (.missingParameters [.input]))
  | some input =>
    .ok {
      verb, input
      config := s.config
      output := s.output
      overrides := {
        fixedWidth := s.flags.contains .fixedWidth
        noDedup := s.flags.contains .noDedup
        unordered := s.flags.contains .unordered
        maxSize := s.maxSize }
      stats := s.flags.contains .stats
      verbosity := if s.verbosity = 0 then verbosity else s.verbosity }

/-- The verb that asks for help. -/
def helpVerb : String := "help"

/-- The scope whose help some arguments ask for. -/
def helpScope : List String → Except Stop Scope
  | [] => .ok .program
  | name :: rest =>
    match Verb.ofName? name, rest with
    | some verb, [] => .ok (.verb verb)
    | none, [] => if name = helpVerb then .ok .program else .error (.wrong (.unknownVerb name))
    | none, next :: _ =>
      .error (.wrong (.unknownVerb (if name = helpVerb then next else name)))
    | some _, next :: _ => .error (.wrong (.unknownVerb next))

/-- The answer to arguments without a verb. -/
def withoutVerb (verbosity : Nat) : Stop := if verbosity = 0 then .nothing else .wrong .missingVerb

/-- An argument that stands for a verb and is none.  After two dashes a verb is out of place. -/
def notVerb (text : String) (afterDashes : Bool) : Stop :=
  if afterDashes ∧ ((Verb.ofName? text).isSome ∨ text = helpVerb) then
    .wrong (.unknownArgument text)
  else .wrong (.unknownVerb text)

/-- Reads the arguments before a verb, and hands over to it. -/
def readProgram (s : Scan) : List String → Except Stop Request
  | [] => .error (withoutVerb s.settings.verbosity)
  | text :: rest =>
    match Verb.ofName? text with
    | some verb => do
      let scan ← Scan.arguments { scope := .verb verb } rest
      scan.settings.request verb s.settings.verbosity
    | none =>
      if text = helpVerb then
        match helpScope rest with
        | .ok scope => .error (.help scope)
        | .error stop => .error stop
      else if text = "--" then
        match rest with
        | [] => .error (withoutVerb s.settings.verbosity)
        | next :: _ => .error (notVerb next true)
      else
        match Form.ofText text with
        | .long name value =>
          match s.long name value with
          | .ok s => readProgram s rest
          | .error stop => .error stop
        | .letters cs =>
          match s.letters cs with
          | .ok s => readProgram s rest
          | .error stop => .error stop
        | .plain => .error (notVerb text false)

/-- **Reads the arguments** of the program. -/
def readArguments (arguments : List String) : Except Stop Request :=
  readProgram { scope := .program } arguments

end PackedTree.Command
