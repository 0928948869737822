/-
# The parts of a JSON text

Readers of blanks, fixed words, strings and numbers.  Each takes the text that is left and gives
a value with the text after it, or the first fault.

A number is read in two rounded steps: its digits as an integer, as far as they fit 64 bits, then
multiplied or divided by a rounded power of ten.  Digits that do not fit count only by their
place.  For most texts this is the nearest double, for a few it is a neighbour of it.
-/
import PackedTree.Decimal.Shortest
import PackedTree.Json.Document
import PackedTree.Json.SyntaxError

namespace PackedTree.Json

/-- The text left to read. -/
abbrev Input := List Char

/-- A value with the text after it, or a fault. -/
abbrev Result (α : Type) := Except SyntaxError (α × Input)

/-! ## 1. Blanks and fixed words -/

def isBlank (c : Char) : Bool := c = ' ' ∨ c = '\n' ∨ c = '\t' ∨ c = '\r'

def skipBlanks : Input → Input
  | [] => []
  | c :: cs => if isBlank c then skipBlanks cs else c :: cs

/-- The rest of a fixed word whose first letter has been seen. -/
def word : (letters : List Char) → Input → Except SyntaxError Input
  | [], cs => .ok cs
  | _ :: _, [] => .error .unfinishedValue
  | l :: ls, c :: cs => if l = c then word ls cs else .error .misspeltWord

/-! ## 2. Strings -/

def hexDigit? (c : Char) : Option Nat :=
  if '0' ≤ c ∧ c ≤ '9' then some (c.toNat - '0'.toNat)
  else if 'a' ≤ c ∧ c ≤ 'f' then some (c.toNat - 'a'.toNat + 10)
  else if 'A' ≤ c ∧ c ≤ 'F' then some (c.toNat - 'A'.toNat + 10)
  else none

/-- The bytes that some characters take. -/
def byteLength : List Char → Nat
  | [] => 0
  | c :: cs => c.utf8Size + byteLength cs

/-- Four hexadecimal digits.  Where they are not, fewer than four bytes left mean that the text
has ended. -/
def hexUnit (cs : Input) : Result Nat :=
  match cs with
  | a :: b :: c :: d :: rest =>
    match hexDigit? a, hexDigit? b, hexDigit? c, hexDigit? d with
    | some a, some b, some c, some d => .ok (((a * 16 + b) * 16 + c) * 16 + d, rest)
    | _, _, _, _ => .error .invalidEscape
  | short => if byteLength short < 4 then .error .unfinishedString else .error .invalidEscape

def isHighSurrogate (unit : Nat) : Bool := 0xd800 ≤ unit ∧ unit ≤ 0xdbff

def isLowSurrogate (unit : Nat) : Bool := 0xdc00 ≤ unit ∧ unit ≤ 0xdfff

/-- The second half of a surrogate pair, which must follow at once as an escape of its own. -/
def lowSurrogate (cs : Input) : Result Nat :=
  match cs with
  | [] => .error .unfinishedString
  | '\\' :: [] => .error .unfinishedString
  | '\\' :: 'u' :: rest =>
    match hexUnit rest with
    | .ok (unit, rest) => if isLowSurrogate unit then .ok (unit, rest) else .error .loneSurrogate
    | .error e => .error e
  | _ => .error .unpairedSurrogate

/-- The character of a hexadecimal escape. -/
def hexEscape (cs : Input) : Result Char :=
  match hexUnit cs with
  | .error e => .error e
  | .ok (unit, rest) =>
    if isLowSurrogate unit then .error .loneSurrogate
    else if isHighSurrogate unit then
      match lowSurrogate rest with
      | .ok (low, rest) =>
        .ok (Char.ofNat (0x10000 + (unit - 0xd800) * 0x400 + (low - 0xdc00)), rest)
      | .error e => .error e
    else .ok (Char.ofNat unit, rest)

/-- The character of an escape, after its backslash. -/
def escape (cs : Input) : Result Char :=
  match cs with
  | [] => .error .unfinishedString
  | '"' :: rest => .ok ('"', rest)
  | '\\' :: rest => .ok ('\\', rest)
  | '/' :: rest => .ok ('/', rest)
  | 'b' :: rest => .ok ('\x08', rest)
  | 'f' :: rest => .ok ('\x0c', rest)
  | 'n' :: rest => .ok ('\n', rest)
  | 'r' :: rest => .ok ('\r', rest)
  | 't' :: rest => .ok ('\t', rest)
  | 'u' :: rest => hexEscape rest
  | _ :: _ => .error .invalidEscape

/-- A reader of escapes leaves less text than it got. -/
theorem hexUnit_shorter {cs rest : Input} {n : Nat} (h : hexUnit cs = .ok (n, rest)) :
    rest.length < cs.length := by
  unfold hexUnit at h
  split at h
  · split at h
    · simp only [Except.ok.injEq, Prod.mk.injEq] at h
      obtain ⟨-, rfl⟩ := h
      simp only [List.length_cons]
      omega
    · simp at h
  · split at h <;> simp at h

theorem lowSurrogate_shorter {cs rest : Input} {n : Nat} (h : lowSurrogate cs = .ok (n, rest)) :
    rest.length < cs.length := by
  unfold lowSurrogate at h
  split at h
  · simp at h
  · simp at h
  · split at h
    · rename_i hu
      have := hexUnit_shorter hu
      split at h
      · simp only [Except.ok.injEq, Prod.mk.injEq] at h
        obtain ⟨-, rfl⟩ := h
        simp only [List.length_cons]
        omega
      · simp at h
    · simp at h
  · simp at h

theorem hexEscape_shorter {cs rest : Input} {c : Char} (h : hexEscape cs = .ok (c, rest)) :
    rest.length < cs.length := by
  unfold hexEscape at h
  split at h
  · simp at h
  · rename_i hu
    have h1 := hexUnit_shorter hu
    split at h
    · simp at h
    · split at h
      · split at h
        · rename_i hl
          have h2 := lowSurrogate_shorter hl
          simp only [Except.ok.injEq, Prod.mk.injEq] at h
          obtain ⟨-, rfl⟩ := h
          omega
        · simp at h
      · simp only [Except.ok.injEq, Prod.mk.injEq] at h
        obtain ⟨-, rfl⟩ := h
        exact h1

theorem escape_shorter {cs rest : Input} {c : Char} (h : escape cs = .ok (c, rest)) :
    rest.length < cs.length := by
  unfold escape at h
  split at h
  case h_10 => have := hexEscape_shorter h; simp only [List.length_cons]; omega
  all_goals first
    | (simp at h; done)
    | (simp only [Except.ok.injEq, Prod.mk.injEq] at h
       obtain ⟨-, rfl⟩ := h
       simp)

/-- **A string after its opening quote.**  `read` holds the characters so far. -/
def readString (read : String) (cs : Input) : Result String :=
  match cs with
  | [] => .error .unfinishedString
  | '"' :: rest => .ok (read, rest)
  | '\\' :: rest =>
    match _h : escape rest with
    | .ok (c, rest') => readString (read.push c) rest'
    | .error e => .error e
  | c :: rest => if c < ' ' then .error .controlCharacter else readString (read.push c) rest
termination_by cs.length
decreasing_by
  · have := escape_shorter _h; simp only [List.length_cons]; omega
  · simp

/-! ## 3. Numbers -/

def digit? (c : Char) : Option Nat :=
  if '0' ≤ c ∧ c ≤ '9' then some (c.toNat - '0'.toNat) else none

/-- Appends digits to an integer as long as the result stays below `bound`: the integer, the
count of digits taken and the text after them. -/
def takeDigits (bound value taken : Nat) : Input → Nat × Nat × Input
  | [] => (value, taken, [])
  | c :: cs =>
    match digit? c with
    | some d =>
      if value * 10 + d < bound then takeDigits bound (value * 10 + d) (taken + 1) cs
      else (value, taken, c :: cs)
    | none => (value, taken, c :: cs)

/-- Passes over digits, counting them. -/
def dropDigits (dropped : Nat) : Input → Nat × Input
  | [] => (dropped, [])
  | c :: cs =>
    match digit? c with
    | some _ => dropDigits (dropped + 1) cs
    | none => (dropped, c :: cs)

/-- The greatest power of ten that a double can hold. -/
def greatestPower : Nat := 308

/-- A magnitude times a power of ten.  Powers below the range are divided out in two steps;
results above it are refused. -/
def scale (x : Binary64) (power : Int) : Except SyntaxError Binary64 :=
  if power.natAbs ≤ greatestPower then
    if 0 ≤ power then
      let y := x.mul (.ofNat (Decimal.powerOfTen power.natAbs))
      if y = .infinity then .error .numberOutOfRange else .ok y
    else .ok (x.div (.ofNat (Decimal.powerOfTen power.natAbs)))
  else if x = .zero then .ok x
  else if 0 ≤ power then .error .numberOutOfRange
  else scale (x.div (.ofNat (Decimal.powerOfTen greatestPower))) (power + greatestPower)
termination_by (-power).toNat
decreasing_by simp only [greatestPower] at *; omega

/-- Gives a magnitude its sign. -/
def signed (isNegative : Bool) (x : Binary64) : Binary64 := if isNegative then x.negative else x

/-- The double for the digits `value` at a power of ten. -/
def decimal (isNegative : Bool) (value : Nat) (power : Int) (rest : Input) : Result Number :=
  match scale (.ofNat value) power with
  | .ok x => .ok (.real (signed isNegative x), rest)
  | .error e => .error e

/-- The bound on the digits of an exponent. -/
def exponentBound : Nat := 0x80000000

/-- The exponent of a number, after its letter.  An exponent beyond the bound leaves a zero, or
if it is positive and the digits are not zero, a fault. -/
def exponentPart (isNegative : Bool) (value : Nat) (power : Int) (cs : Input) : Result Number :=
  let (down, cs) := match cs with
    | '+' :: rest => (false, rest)
    | '-' :: rest => (true, rest)
    | rest => (false, rest)
  match cs with
  | [] => .error .unfinishedValue
  | c :: cs =>
    match digit? c with
    | none => .error .invalidNumber
    | some d =>
      let (exponent, _, rest) := takeDigits exponentBound d 0 cs
      let (surplus, rest) := dropDigits 0 rest
      if surplus = 0 then
        decimal isNegative value (if down then power - exponent else power + exponent) rest
      else if value ≠ 0 ∧ !down then .error .numberOutOfRange
      else .ok (.real (signed isNegative .zero), rest)

/-- The bound on the digits of a number. -/
def digitBound : Nat := UInt64.size

/-- What follows the digits of a number: an exponent, or anything else. -/
def afterDigits (isNegative : Bool) (value : Nat) (power : Int) (cs : Input) : Result Number :=
  match cs with
  | 'e' :: rest => exponentPart isNegative value power rest
  | 'E' :: rest => exponentPart isNegative value power rest
  | rest => decimal isNegative value power rest

/-- The fraction of a number, after its point.  Without a digit it is a fault. -/
def fractionPart (isNegative : Bool) (value : Nat) (power : Int) (cs : Input) : Result Number :=
  let (value, taken, rest) := takeDigits digitBound value 0 cs
  let (surplus, rest) := dropDigits 0 rest
  if taken = 0 ∧ surplus = 0 then
    if rest.isEmpty then .error .unfinishedValue else .error .invalidNumber
  else afterDigits isNegative value (power - taken) rest

/-- A number without fraction or exponent: an integer if it fits 64 bits, and a double if not.
Negative zero is a double. -/
def integer (isNegative : Bool) (value : Nat) : Number :=
  if !isNegative then .natural value
  else if value = 0 ∨ 0x8000000000000000 < value then .real (Binary64.ofNat value).negative
  else .negative value

/-- **A number after its sign.** -/
def readNumber (isNegative : Bool) (cs : Input) : Result Number :=
  match cs with
  | [] => .error .unfinishedValue
  | c :: cs =>
    match digit? c with
    | none => .error .invalidNumber
    | some d =>
      let (value, _, rest) := if d = 0 then (0, 0, cs) else takeDigits digitBound d 0 cs
      let (surplus, rest) := dropDigits 0 rest
      if d = 0 ∧ surplus ≠ 0 then .error .invalidNumber
      else
        match rest with
        | '.' :: rest => fractionPart isNegative value surplus rest
        | 'e' :: rest => exponentPart isNegative value surplus rest
        | 'E' :: rest => exponentPart isNegative value surplus rest
        | rest =>
          if surplus = 0 then .ok (integer isNegative value, rest)
          else decimal isNegative value surplus rest

end PackedTree.Json
