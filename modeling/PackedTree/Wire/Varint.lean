/-
# Integers of variable width

A 32-bit integer is written in groups of seven bits, the least significant first, and every byte
but the last has its high bit set.  `Varint.encode` takes the fewest groups.  `Varint.decode?`
reads at most five and refuses a fifth that passes 32 bits; it does not insist on the fewest.
-/

namespace PackedTree.Varint

/-- The groups of a natural, the least significant first. -/
def groups (n : Nat) : List UInt8 :=
  if n < 128 then [UInt8.ofNat n] else UInt8.ofNat (n % 128 + 128) :: groups (n / 128)

/-- **The bytes of an integer.** -/
def encode (v : UInt32) : List UInt8 := groups v.toNat

/-- The most bytes an integer takes. -/
def maxSize : Nat := 5

/-- How many bytes an integer takes: a byte for every seven bits begun, and one for zero. -/
def size (v : UInt32) : Nat := if v = 0 then 1 else (v.toNat.log2 + 7) / 7

/-- Reads at most `room` groups: the value and the number of bytes.  The last group that has
room may hold four bits only. -/
def decodeGroups : (room : Nat) → List UInt8 → Option (Nat × Nat)
  | 0, _ => none
  | _ + 1, [] => none
  | room + 1, b :: rest =>
    let group := b.toNat % 128
    if room = 0 ∧ 0x0f < group then none
    else if b.toNat < 128 then some (group, 1)
    else
      match decodeGroups room rest with
      | some (value, used) => some (group + 128 * value, used + 1)
      | none => none

/-- **Reads an integer** from the start of some bytes: its value and how many bytes it took. -/
def decode? (bytes : List UInt8) : Option (UInt32 × Nat) :=
  (decodeGroups maxSize bytes).map fun (value, used) => (UInt32.ofNat value, used)

end PackedTree.Varint
