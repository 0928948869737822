/-
# Numbers of documents

* `Number.IsDouble`: the double of a number, said without rounding.  It is the nearest to an integer.
* `Number.isDouble_iff`: it is the one that the number is converted to.
* `fits_of_readNumber`: the integers that are read have 64 bits.
-/
import PackedTree.Json.Token
import PackedTree.Proofs.Binary64.Nearest

namespace PackedTree.Json

/-! ## 1. The double of a number -/

/-- **The double of a number**: the nearest to an integer; a double is its own. -/
inductive Number.IsDouble : Number → Binary64 → Prop where
  | natural {n : Nat} {x : Binary64} (h : x.Nearest n) : IsDouble (.natural n) x
  | negative {n : Nat} {x : Binary64} (h : x.Nearest (-n)) : IsDouble (.negative n) x
  | real (x : Binary64) : IsDouble (.real x) x

/-- **The integers of numbers have 64 bits**, with or without a sign. -/
def Number.Fits : Number → Prop
  | .natural n => n < 2 ^ 64
  | .negative n => 0 < n ∧ n ≤ 2 ^ 63
  | .real _ => True

/-- **A number has one double.** -/
theorem Number.IsDouble.unique {n : Number} {x y : Binary64} (hx : n.IsDouble x)
    (hy : n.IsDouble y) : x = y := by
  cases hx with
  | natural h =>
    cases hy with
    | natural h' => exact h.unique h'
  | negative h =>
    cases hy with
    | negative h' => exact h.unique h'
  | real x =>
    cases hy
    rfl

/-- **It is what the number is converted to.** -/
theorem Number.isDouble_toBinary64 {n : Number} (h : n.Fits) : n.IsDouble n.toBinary64 := by
  cases n with
  | natural n => exact .natural (Binary64.nearest_ofNat h)
  | negative n =>
    obtain ⟨hpos, hle⟩ := h
    have hnearest := Binary64.nearest_ofNat (Nat.lt_of_le_of_lt hle (by decide))
    exact .negative (hnearest.negative (by exact_mod_cast hpos))
  | real x => exact .real x

theorem Number.isDouble_iff {n : Number} (h : n.Fits) {x : Binary64} :
    n.IsDouble x ↔ x = n.toBinary64 :=
  ⟨fun hx => hx.unique (isDouble_toBinary64 h), fun hx => hx ▸ isDouble_toBinary64 h⟩

/-! ## 2. Numbers that are read -/

theorem digit?_lt {c : Char} {d : Nat} (h : digit? c = some d) : d < 10 := by
  unfold digit? at h
  split at h
  · rename_i hc
    cases h
    have hle : c.toNat ≤ '9'.toNat := hc.2
    exact Nat.lt_succ_of_le (Nat.sub_le_sub_right hle _)
  · cases h

/-- Digits are taken as long as the bound is kept. -/
theorem takeDigits_lt {bound : Nat} : ∀ {value : Nat} (taken : Nat) (cs : Input), value < bound →
    (takeDigits bound value taken cs).1 < bound
  | _, _, [], h => h
  | value, taken, c :: cs, h => by
    unfold takeDigits
    split
    · split
      · rename_i hless
        exact takeDigits_lt _ cs hless
      · exact h
    · exact h

/-- An integer that is kept has 64 bits. -/
theorem fits_integer (isNegative : Bool) {value : Nat} (h : value < digitBound) :
    (integer isNegative value).Fits := by
  unfold integer
  split_ifs with hsign hrange
  · exact h
  · exact trivial
  · exact ⟨by omega, by omega⟩

/-- With a power of ten a number is a double. -/
theorem fits_of_decimal {isNegative : Bool} {value : Nat} {power : Int} {cs rest : Input}
    {n : Number} (h : decimal isNegative value power cs = .ok (n, rest)) : n.Fits := by
  unfold decimal at h
  split at h
  · cases h
    exact trivial
  · cases h

theorem fits_of_exponentPart {isNegative : Bool} {value : Nat} {power : Int} {cs rest : Input}
    {n : Number} (h : exponentPart isNegative value power cs = .ok (n, rest)) : n.Fits := by
  unfold exponentPart at h
  split at h
  split at h
  · cases h
  · split at h
    · cases h
    · dsimp only at h
      split at h
      · exact fits_of_decimal h
      · split at h
        · cases h
        · cases h
          exact trivial

theorem fits_of_afterDigits {isNegative : Bool} {value : Nat} {power : Int} {cs rest : Input}
    {n : Number} (h : afterDigits isNegative value power cs = .ok (n, rest)) : n.Fits := by
  unfold afterDigits at h
  split at h
  · exact fits_of_exponentPart h
  · exact fits_of_exponentPart h
  · exact fits_of_decimal h

theorem fits_of_fractionPart {isNegative : Bool} {value : Nat} {power : Int} {cs rest : Input}
    {n : Number} (h : fractionPart isNegative value power cs = .ok (n, rest)) : n.Fits := by
  unfold fractionPart at h
  dsimp only at h
  split at h
  · split at h <;> cases h
  · exact fits_of_afterDigits h

/-- **The integers that are read have 64 bits.** -/
theorem fits_of_readNumber {isNegative : Bool} {cs rest : Input} {n : Number}
    (h : readNumber isNegative cs = .ok (n, rest)) : n.Fits := by
  unfold readNumber at h
  split at h
  · cases h
  · rename_i c cs
    split at h
    · cases h
    · rename_i d hd
      have hvalue : (if d = 0 then (0, 0, cs) else takeDigits digitBound d 0 cs).1 < digitBound := by
        split
        · exact (by decide : 0 < digitBound)
        · exact takeDigits_lt 0 cs (Nat.lt_of_lt_of_le (digit?_lt hd) (by decide))
      generalize (if d = 0 then (0, 0, cs) else takeDigits digitBound d 0 cs) = digits at h hvalue
      dsimp only at h
      split at h
      · cases h
      · split at h
        · exact fits_of_fractionPart h
        · exact fits_of_exponentPart h
        · exact fits_of_exponentPart h
        · split at h
          · cases h
            exact fits_integer isNegative hvalue
          · exact fits_of_decimal h

end PackedTree.Json
