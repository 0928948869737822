/-
# Passes

A pass is a stage of an encoding.  It gives a result or the cause that ends the encoding, and in
both cases leaves the counters it has filled and the events it has reported.
-/
import PackedTree.EncodeError
import PackedTree.Event
import PackedTree.Stats

namespace PackedTree

/-- What the passes leave beside their results. -/
structure Progress where
  stats : Stats := {}
  log : Array Event := #[]

/-- A stage of an encoding. -/
abbrev Pass := EStateM EncodeError Progress

namespace Pass

def report (e : Event) : Pass Unit := modify fun p => { p with log := p.log.push e }

def count (f : Stats → Stats) : Pass Unit := modify fun p => { p with stats := f p.stats }

/-- A result that leaves nothing beside it. -/
def ofExcept {α : Type} : Except EncodeError α → Pass α
  | .ok a => pure a
  | .error e => throw e

/-- The result of a pass, with its progress from the given one on. -/
def outcome {α : Type} (pass : Pass α) (progress : Progress := {}) :
    Except EncodeError α × Progress :=
  match pass progress with
  | .ok a progress => (.ok a, progress)
  | .error e progress => (.error e, progress)

end Pass

end PackedTree
