/-
# Help texts
-/
import PackedTree.Command.Parameter

namespace PackedTree.Command

/-- What the program is for. -/
def programSummary : String := "Compact, deduplicating binary encoding of syntax trees"

def Verb.summary : Verb → String
  | encode => "Encode a JSON tree into a binary artifact"
  | dump => "Show the string, shape, object and array tables"

def Parameter.summary : Parameter → String
  | input => "JSON tree file (- for stdin)"
  | output => "Write the artifact to FILE instead of stdout"
  | config => "JSON encoder config; flags override its values"
  | fixedWidth => "Write varuint32 slots as fixed 4-byte integers"
  | noDedup => "Keep structurally identical objects as separate entries"
  | unordered => "Do not sort tables by discovery order (output is not reproducible)"
  | maxSize => "Fail if the artifact would exceed BYTES"
  | stats => "Print encode statistics as JSON to stderr"
  | verbose => "Verbosity level (-v info, -vv debug, -vvv trace)"
  | help => "Print help"
  | version => "Print version"

/-- A text with blanks after it, up to a width. -/
def padded (s : String) (width : Nat) : String :=
  s ++ String.ofList (List.replicate (width - s.length) ' ')

/-- Two columns with two blanks before each; the first one is as wide as its widest text. -/
def columns (rows : List (String × String)) : List String :=
  let width := rows.foldl (fun w row => max w row.1.length) 0
  rows.map fun (left, right) => "  " ++ padded left width ++ "  " ++ right

/-- A parameter's letter and label. -/
def Parameter.heading (p : Parameter) : String :=
  match p.letter?, p.longName? with
  | some c, _ => "-" ++ c.toString ++ ", " ++ p.label
  | none, some _ => "    " ++ p.label
  | none, none => p.label

/-- The line that shows how a scope is used. -/
def Scope.usage : Scope → String
  | program => "Usage: " ++ programName ++ " [OPTIONS] <COMMAND>"
  | verb v => "Usage: " ++ programName ++ " " ++ v.name ++ " [OPTIONS] " ++ Parameter.input.label

/-- The help of a scope. -/
def Scope.guide (scope : Scope) : List String :=
  let verbs :=
    match scope with
    | program =>
      ["", "Commands:"] ++
        columns ((Verb.all.map fun v => (v.name, v.summary)) ++
          [("help", "Print this message or the help of the given subcommand(s)")])
    | verb _ =>
      ["", "Arguments:"] ++ columns [(Parameter.input.label, Parameter.input.summary)]
  let options := scope.parameters.filter (·.longName?.isSome)
  [match scope with | program => programSummary | verb v => v.summary, "", scope.usage] ++ verbs ++
    ["", "Options:"] ++ columns (options.map fun p => (p.heading, p.summary))

end PackedTree.Command
