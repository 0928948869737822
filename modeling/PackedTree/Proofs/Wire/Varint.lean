/-
# The integers of variable width

What the bytes of an integer are, and which bytes are read as one.

* `Varint.size_le_iff`: an integer takes as many bytes as it has digits to the base 128.
* `Varint.Spells`: the first bytes are the digits of a natural, each but the last marked as one that
  goes on.
* `Varint.decode?_eq_some_iff`: an integer is read exactly where at most five bytes spell it.
* `Varint.encode_eq_take_iff`: of the bytes that spell an integer, those that do not end in a
  needless zero are the ones that are written.
* `Varint.codec`: all of this for any integer and any bytes.

Reading does not insist on the fewest bytes, so an integer may be read from bytes that are never
written.
-/
import Mathlib.Data.Nat.Digits.Defs
import Mathlib.Order.Bounds.Defs
import PackedTree.Proofs.Wire.Reader

namespace PackedTree.Varint

/-! ## 1. How many bytes an integer takes -/

/-- A natural has at most so many groups if that many digits to the base 128 are enough for it. -/
theorem length_groups_le_iff (k n : Nat) : (groups n).length ≤ k ↔ 1 ≤ k ∧ n < 128 ^ k := by
  induction k generalizing n with
  | zero =>
    rw [groups]
    split <;> simp
  | succ k ih =>
    have hpow : 128 ^ (k + 1) = 128 ^ k * 128 := pow_succ 128 k
    have hpos : 0 < 128 ^ k := Nat.pow_pos (by omega)
    rw [groups]
    split
    · rename_i hlt
      simp only [List.length_singleton]
      omega
    · rename_i hge
      have hrest : n / 128 < 128 ^ k ↔ n < 128 ^ k * 128 := Nat.div_lt_iff_lt_mul (by omega)
      rw [List.length_cons, Nat.succ_le_succ_iff, ih, hrest, hpow]
      constructor
      · rintro ⟨-, h⟩
        exact ⟨Nat.succ_pos k, h⟩
      · rintro ⟨-, h⟩
        refine ⟨?_, h⟩
        -- one digit is not enough, so there is room for another
        cases k with
        | zero => omega
        | succ k => exact Nat.succ_pos k

/-- **The size of an integer is the least number of digits to the base 128.** -/
theorem size_le_iff (v : UInt32) (k : Nat) : size v ≤ k ↔ 1 ≤ k ∧ v.toNat < 128 ^ k := by
  have hpow : (128 : Nat) ^ k = 2 ^ (7 * k) := Nat.pow_mul 2 7 k ▸ rfl
  unfold size
  by_cases hv : v = 0
  · have hpos : 0 < 128 ^ k := Nat.pow_pos (by omega)
    subst hv
    rw [if_pos rfl]
    exact ⟨fun h => ⟨h, hpos⟩, And.left⟩
  · have hne : v.toNat ≠ 0 := fun h => hv (UInt32.toNat_inj.mp h)
    rw [if_neg hv, hpow, ← Nat.log2_lt hne]
    omega

/-- The size is the number of bytes that are written. -/
theorem length_encode (v : UInt32) : (encode v).length = size v := by
  have h (k : Nat) : (encode v).length ≤ k ↔ size v ≤ k :=
    (length_groups_le_iff k v.toNat).trans (size_le_iff v k).symm
  exact Nat.le_antisymm ((h _).mpr (Nat.le_refl _)) ((h _).mp (Nat.le_refl _))

/-- A smaller integer is not longer. -/
theorem size_mono {v v' : UInt32} (h : v ≤ v') : size v ≤ size v' := by
  obtain ⟨hpos, hlt⟩ := (size_le_iff v' _).mp (Nat.le_refl _)
  exact (size_le_iff v _).mpr ⟨hpos, Nat.lt_of_le_of_lt (UInt32.le_iff_toNat_le.mp h) hlt⟩

/-! ## 2. Bytes that spell a natural -/

/-- **The first `used` bytes spell a natural.**  All of them but the last go on, the last does not,
and without their high bits they are its digits to the base 128, the least significant first. -/
structure Spells (bytes : List UInt8) (n used : Nat) : Prop where
  used_pos : 1 ≤ used
  used_le : used ≤ bytes.length
  goesOn : ∀ i b, i + 1 < used → bytes[i]? = some b → 128 ≤ b.toNat
  ends : ∀ b, bytes[used - 1]? = some b → b.toNat < 128
  digits : Nat.ofDigits 128 ((bytes.take used).map fun b => b.toNat % 128) = n

variable {bytes rest : List UInt8} {b : UInt8} {n used : Nat}

theorem not_spells_nil : ¬Spells [] n used := fun h =>
  absurd (Nat.le_trans h.used_pos h.used_le) (Nat.not_succ_le_zero 0)

/-- A byte that does not go on spells itself. -/
theorem spells_one_iff : Spells (b :: rest) n 1 ↔ b.toNat < 128 ∧ n = b.toNat := by
  constructor
  · intro h
    have hlt : b.toNat < 128 := h.ends b rfl
    refine ⟨hlt, ?_⟩
    rw [← h.digits]
    simp [Nat.mod_eq_of_lt hlt]
  · rintro ⟨hlt, rfl⟩
    refine ⟨Nat.le_refl 1, Nat.succ_pos _, fun i _ hi _ => absurd hi (by omega), ?_, ?_⟩
    · intro b' hb
      rwa [← Option.some.inj hb]
    · simp [Nat.mod_eq_of_lt hlt]

/-- A byte that goes on is the least digit of what it spells with the bytes after it. -/
theorem spells_succ_iff : Spells (b :: rest) n (used + 2) ↔
    128 ≤ b.toNat ∧ ∃ m, n = b.toNat % 128 + 128 * m ∧ Spells rest m (used + 1) := by
  constructor
  · intro h
    refine ⟨h.goesOn 0 b (by omega) rfl, _, ?_, Nat.succ_pos used,
      Nat.le_of_succ_le_succ h.used_le, ?_, h.ends, rfl⟩
    · rw [← h.digits, List.take_succ_cons, List.map_cons, Nat.ofDigits_cons]
    · intro i c hi hc
      exact h.goesOn (i + 1) c (by omega) hc
  · rintro ⟨hb, m, rfl, h⟩
    refine ⟨Nat.succ_pos _, Nat.succ_le_succ h.used_le, ?_, h.ends, ?_⟩
    · intro i c hi hc
      cases i with
      | zero => rwa [← Option.some.inj hc]
      | succ i => exact h.goesOn i c (by omega) hc
    · rw [List.take_succ_cons, List.map_cons, Nat.ofDigits_cons, h.digits]

/-- **What a byte spells with those after it**: itself, or as many more digits as follow. -/
theorem spells_cons_iff : Spells (b :: rest) n used ↔
    (b.toNat < 128 ∧ n = b.toNat ∧ used = 1) ∨
    (128 ≤ b.toNat ∧ ∃ m k, Spells rest m k ∧ n = b.toNat % 128 + 128 * m ∧ used = k + 1) := by
  constructor
  · intro h
    obtain ⟨k, rfl⟩ := Nat.exists_eq_add_one.mpr h.used_pos
    cases k with
    | zero =>
      obtain ⟨hb, hn⟩ := spells_one_iff.mp h
      exact .inl ⟨hb, hn, rfl⟩
    | succ k =>
      obtain ⟨hb, m, hn, hrest⟩ := spells_succ_iff.mp h
      exact .inr ⟨hb, m, k + 1, hrest, hn, rfl⟩
  · rintro (⟨hb, hn, rfl⟩ | ⟨hb, m, k, hrest, hn, rfl⟩)
    · exact spells_one_iff.mpr ⟨hb, hn⟩
    · obtain ⟨k, rfl⟩ := Nat.exists_eq_add_one.mpr hrest.used_pos
      exact spells_succ_iff.mpr ⟨hb, m, hn, hrest⟩

/-- Only bytes whose last one is zero spell zero. -/
theorem Spells.last_of_zero (h : Spells bytes 0 used) : bytes[used - 1]? = some 0 := by
  induction bytes generalizing used with
  | nil => exact absurd h not_spells_nil
  | cons b rest ih =>
    rcases spells_cons_iff.mp h with ⟨-, hb, rfl⟩ | ⟨-, m, k, hrest, hm, rfl⟩
    · exact congrArg some (UInt8.toNat_inj.mp hb.symm)
    · obtain rfl : m = 0 := by omega
      obtain ⟨k, rfl⟩ := Nat.exists_eq_add_one.mpr hrest.used_pos
      exact ih hrest

/-! ## 3. What is read -/

/-- The last group that has room holds four bits. -/
theorem decodeGroups_one_iff : decodeGroups 1 (b :: rest) = some (n, used) ↔
    b.toNat < 16 ∧ n = b.toNat ∧ used = 1 := by
  unfold decodeGroups
  grind [decodeGroups]

/-- Any group before it ends the integer, or adds its digit to what is read after it. -/
theorem decodeGroups_cons_iff {room : Nat} :
    decodeGroups (room + 2) (b :: rest) = some (n, used) ↔
      (b.toNat < 128 ∧ n = b.toNat ∧ used = 1) ∨
      (128 ≤ b.toNat ∧ ∃ m k, decodeGroups (room + 1) rest = some (m, k) ∧
        n = b.toNat % 128 + 128 * m ∧ used = k + 1) := by
  rw [decodeGroups, if_neg (by omega)]
  by_cases hb : b.toNat < 128
  · rw [if_pos hb, Nat.mod_eq_of_lt hb]
    grind
  · rw [if_neg hb]
    cases decodeGroups (room + 1) rest with
    | none => simp [hb]
    | some read => grind

/-- **Groups are read exactly where they are spelled.**  The last group that has room holds four
bits, so what is read with room for `room + 1` of them is below `16 * 128 ^ room`. -/
theorem decodeGroups_eq_some_iff (room : Nat) : decodeGroups (room + 1) bytes = some (n, used) ↔
    used ≤ room + 1 ∧ n < 16 * 128 ^ room ∧ Spells bytes n used := by
  induction room generalizing bytes n used with
  | zero =>
    cases bytes with
    | nil => simp [decodeGroups, not_spells_nil]
    | cons b rest =>
      rw [decodeGroups_one_iff, spells_cons_iff]
      constructor
      · rintro ⟨hb, rfl, rfl⟩
        exact ⟨Nat.le_refl 1, by omega, .inl ⟨by omega, rfl, rfl⟩⟩
      · rintro ⟨hused, hn, ⟨-, rfl, rfl⟩ | ⟨-, m, k, hrest, -, rfl⟩⟩
        · exact ⟨by omega, rfl, rfl⟩
        · exact absurd hrest.used_pos (by omega)
  | succ room ih =>
    have hpow : 16 * 128 ^ (room + 1) = 128 * (16 * 128 ^ room) := by
      rw [Nat.pow_succ]
      omega
    cases bytes with
    | nil => simp [decodeGroups, not_spells_nil]
    | cons b rest =>
      rw [decodeGroups_cons_iff, spells_cons_iff, hpow]
      constructor
      · rintro (⟨hb, rfl, rfl⟩ | ⟨hb, m, k, hread, rfl, rfl⟩)
        · have hpos : 0 < 128 ^ room := Nat.pow_pos (by omega)
          exact ⟨by omega, by omega, .inl ⟨hb, rfl, rfl⟩⟩
        · obtain ⟨hk, hm, hrest⟩ := ih.mp hread
          exact ⟨by omega, by omega, .inr ⟨hb, m, k, hrest, rfl, rfl⟩⟩
      · rintro ⟨hused, hn, ⟨hb, rfl, rfl⟩ | ⟨hb, m, k, hrest, rfl, rfl⟩⟩
        · exact .inl ⟨hb, rfl, rfl⟩
        · exact .inr ⟨hb, m, k, ih.mpr ⟨by omega, by omega, hrest⟩, rfl, rfl⟩

/-- **An integer is read exactly where at most five bytes spell it.**  What they spell has to fit 32
bits. -/
theorem decode?_eq_some_iff {v : UInt32} :
    decode? bytes = some (v, used) ↔ used ≤ maxSize ∧ Spells bytes v.toNat used := by
  have hsize : 16 * 128 ^ 4 = UInt32.size := by decide
  have hgroups (n k : Nat) : decodeGroups maxSize bytes = some (n, k) ↔
      k ≤ maxSize ∧ n < UInt32.size ∧ Spells bytes n k := by
    rw [← hsize]
    exact decodeGroups_eq_some_iff 4
  unfold decode?
  rw [Option.map_eq_some_iff]
  constructor
  · rintro ⟨⟨n, k⟩, hdecode, h⟩
    obtain ⟨hk, hn, hspells⟩ := (hgroups n k).mp hdecode
    rw [Prod.mk.injEq] at h
    obtain ⟨rfl, rfl⟩ := h
    have hvalue : (UInt32.ofNat n).toNat = n := UInt32.toNat_ofNat_of_lt hn
    exact ⟨hk, hvalue.symm ▸ hspells⟩
  · rintro ⟨hused, hspells⟩
    refine ⟨(v.toNat, used), (hgroups _ _).mpr ⟨hused, v.toNat_lt, hspells⟩, ?_⟩
    exact congrArg (·, used) UInt32.ofNat_toNat

/-! ## 4. What is written again -/

/-- **The bytes that spell a natural are its groups** exactly if they are one, or do not end in
zero. -/
theorem Spells.groups_eq_take_iff (h : Spells bytes n used) :
    groups n = bytes.take used ↔ used = 1 ∨ bytes[used - 1]? ≠ some 0 := by
  induction bytes generalizing n used with
  | nil => exact absurd h not_spells_nil
  | cons b rest ih =>
    rcases spells_cons_iff.mp h with ⟨hb, rfl, rfl⟩ | ⟨hb, m, k, hrest, rfl, rfl⟩
    · rw [groups, if_pos hb]
      simp
    · have hpos := hrest.used_pos
      have hlast : (b :: rest)[k + 1 - 1]? = rest[k - 1]? := by
        rw [Nat.add_sub_cancel, List.getElem?_cons, if_neg (by omega)]
      rw [hlast, List.take_succ_cons, groups]
      by_cases hm : m = 0
      · -- a needless zero: the groups of a small natural are one byte, and these are more
        subst hm
        have hlength : (rest.take k).length = k := List.length_take_of_le hrest.used_le
        rw [if_pos (by omega), hrest.last_of_zero]
        constructor
        · intro heq
          rw [← (List.cons.inj heq).2, List.length_nil] at hlength
          omega
        · rintro (hone | hne)
          · omega
          · exact absurd rfl hne
      · have hdigit : UInt8.ofNat ((b.toNat % 128 + 128 * m) % 128 + 128) = b := by
          apply UInt8.toNat_inj.mp
          rw [UInt8.toNat_ofNat']
          have := b.toNat_lt
          omega
        have hmore : (b.toNat % 128 + 128 * m) / 128 = m := by omega
        have hone (hk : k = 1) : rest[k - 1]? ≠ some 0 := by
          subst hk
          intro hzero
          cases rest with
          | nil => exact not_spells_nil hrest
          | cons c rest =>
            obtain rfl : c = 0 := Option.some.inj hzero
            exact hm (spells_one_iff.mp hrest).2
        rw [if_neg (by omega), hdigit, hmore, List.cons.injEq, ih hrest]
        constructor
        · rintro ⟨-, hk | hne⟩
          · exact .inr (hone hk)
          · exact .inr hne
        · rintro (hk | hne)
          · omega
          · exact ⟨rfl, .inr hne⟩

theorem encode_eq_take_iff {v : UInt32} (h : decode? bytes = some (v, used)) :
    encode v = bytes.take used ↔ used = 1 ∨ bytes[used - 1]? ≠ some 0 :=
  (decode?_eq_some_iff.mp h).2.groups_eq_take_iff

/-! ## 5. The codec -/

/-- **Integers of variable width, written and read.**

An integer is read back whatever follows it, and takes the fewest digits to the base 128, so a
smaller one is not longer.  An integer is read from bytes exactly if at most five of them spell it,
and writing it gives these bytes again exactly if they are one or the last is not zero. -/
theorem codec (v : UInt32) (bytes : List UInt8) (used : Nat) :
    decode? (encode v ++ bytes) = some (v, size v) ∧
      (encode v).length = size v ∧
      IsLeast {k | 1 ≤ k ∧ v.toNat < 128 ^ k} (size v) ∧
      (∀ v' ≤ v, size v' ≤ size v) ∧
      (decode? bytes = some (v, used) ↔ used ≤ maxSize ∧ Spells bytes v.toNat used) ∧
      (decode? bytes = some (v, used) →
        (encode v = bytes.take used ↔ used = 1 ∨ bytes[used - 1]? ≠ some 0)) := by
  refine ⟨?_, length_encode v, ⟨(size_le_iff v _).mp (Nat.le_refl _), fun k hk => ?_⟩,
    fun v' h => size_mono h, decode?_eq_some_iff, encode_eq_take_iff⟩
  · rw [decode?_encode_append, length_encode]
  · exact (size_le_iff v k).mpr hk

/-- Three bytes are read as 1, which is written in one. -/
theorem codec_padded : decode? [0x81, 0x80, 0x00, 0xff] = some (1, 3) ∧
    Spells [0x81, 0x80, 0x00, 0xff] 1 3 ∧ encode 1 ≠ [0x81, 0x80, 0x00] := by
  have hread : decode? [0x81, 0x80, 0x00, 0xff] = some (1, 3) := by decide
  obtain ⟨-, -, -, -, hspells, hagain⟩ := codec 1 [0x81, 0x80, 0x00, 0xff] 3
  refine ⟨hread, (hspells.mp hread).2, fun heq => ?_⟩
  rcases (hagain hread).mp heq with hone | hlast
  · exact absurd hone (by decide)
  · exact hlast rfl

end PackedTree.Varint
