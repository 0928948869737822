/-
# Parameters of the command line

The program has two verbs.  Each verb, and the program itself, accepts some parameters: an input
without a name, options that take a value, and flags that do not.
-/

namespace PackedTree.Command

/-- What the program can be told to do. -/
inductive Verb where
  | encode
  | dump
deriving DecidableEq, Repr

/-- The part of a command line in which a parameter stands: before the verb, or after it. -/
inductive Scope where
  | program
  | verb (v : Verb)
deriving DecidableEq, Repr

inductive Parameter where
  | input
  | output
  | config
  | fixedWidth
  | noDedup
  | unordered
  | maxSize
  | stats
  | verbose
  | help
  | version
deriving DecidableEq, Repr

/-- The program's name for itself. -/
def programName : String := "astpack"

def Verb.all : List Verb := [.encode, .dump]

def Verb.name : Verb → String
  | encode => "encode"
  | dump => "dump"

def Verb.ofName? (s : String) : Option Verb := Verb.all.find? (·.name = s)

/-- The parameters that a scope accepts, in the order of its help. -/
def Scope.parameters : Scope → List Parameter
  | program => [.verbose, .help, .version]
  | verb .encode =>
    [.input, .output, .config, .fixedWidth, .noDedup, .unordered, .maxSize, .stats, .verbose, .help]
  | verb .dump => [.input, .config, .noDedup, .unordered, .verbose, .help]

namespace Parameter

/-- The name after two dashes. -/
def longName? : Parameter → Option String
  | input => none
  | output => some "output"
  | config => some "config"
  | fixedWidth => some "fixed-width"
  | noDedup => some "no-dedup"
  | unordered => some "unordered"
  | maxSize => some "max-size"
  | stats => some "stats"
  | verbose => some "verbose"
  | help => some "help"
  | version => some "version"

/-- The letter after one dash. -/
def letter? : Parameter → Option Char
  | output => some 'o'
  | verbose => some 'v'
  | help => some 'h'
  | version => some 'V'
  | _ => none

/-- What stands for the value in messages. -/
def placeholder? : Parameter → Option String
  | input => some "<INPUT>"
  | output => some "<FILE>"
  | config => some "<FILE>"
  | maxSize => some "<BYTES>"
  | _ => none

def takesValue (p : Parameter) : Bool := p.placeholder?.isSome

/-- The parameter as messages show it. -/
def label (p : Parameter) : String :=
  match p.longName?, p.placeholder? with
  | some name, some value => "--" ++ name ++ " " ++ value
  | some name, none => "--" ++ name ++ (if p = verbose then "..." else "")
  | none, some value => value
  | none, none => ""

end Parameter

namespace Scope

/-- The parameter of a scope with a long name. -/
def ofLongName? (scope : Scope) (name : String) : Option Parameter :=
  scope.parameters.find? (·.longName? = some name)

/-- The parameter of a scope with a letter. -/
def ofLetter? (scope : Scope) (c : Char) : Option Parameter :=
  scope.parameters.find? (·.letter? = some c)

end Scope

end PackedTree.Command
