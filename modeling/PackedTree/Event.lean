/-
# Log events

The stages of a run report events.  An event has a level and a line of text, in which measured
values follow the message as `name=value`.
-/
import PackedTree.Decimal.Layout
import PackedTree.Wire.Writer

namespace PackedTree

/-- How much attention an event asks for. -/
inductive Level where
  | info
  | debug
deriving DecidableEq, Repr

def Level.name : Level → String
  | info => "INFO"
  | debug => "DEBUG"

/-- Something a stage has done. -/
inductive Event where
  /-- The discovery has visited so many nodes. -/
  | scanned (nodes : Nat)
  | discovered (nodes strings shapes objects arrays : Nat)
  /-- So many objects of a number of objects were merged. -/
  | merged (count objects : Nat)
  | written (tagBytes : Nat) (varintSizes : VarintSizes) (bytes : Nat)
  | loaded (path : String) (bytes : Nat)
  | encoded (input : String) (bytes objects removed : Nat)
deriving DecidableEq, Repr

namespace Event

def level : Event → Level
  | scanned .. => .info
  | discovered .. => .debug
  | merged .. => .info
  | written .. => .debug
  | loaded .. => .debug
  | encoded .. => .info

/-- A list of counts in brackets. -/
def counts (ns : List Nat) : String := "[" ++ ", ".intercalate (ns.map toString) ++ "]"

def text : Event → String
  | scanned nodes => "scanned " ++ toString nodes ++ " nodes"
  | discovered nodes strings shapes objects arrays =>
    "discovery finished nodes=" ++ toString nodes ++ " strings=" ++ toString strings ++
      " shapes=" ++ toString shapes ++ " objects=" ++ toString objects ++
      " arrays=" ++ toString arrays
  | merged count objects =>
    "deduped " ++ toString count ++ " object(s) (" ++
      (Binary64.percent count objects).renderTenths ++ "%)"
  | written tagBytes varintSizes bytes =>
    "artifact written tag_bytes=" ++ toString tagBytes ++ " varint_sizes=" ++
      counts varintSizes.toList ++ " bytes=" ++ toString bytes
  | loaded path bytes => "input loaded path=" ++ path ++ " bytes=" ++ toString bytes
  | encoded input bytes objects removed =>
    "encoded input=" ++ input ++ " bytes=" ++ toString bytes ++ " objects=" ++
      toString objects ++ " merged=" ++ toString removed

/-- The level and the text. -/
def line (e : Event) : String := e.level.name ++ " " ++ e.text

end Event

end PackedTree
