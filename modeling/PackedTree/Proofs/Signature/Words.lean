/-
# The words of a signature

A signature is a line of words with blanks between them.  It can be taken apart again, because no
word has a blank (`line_injective`), and a word tells which token it is (`Token.text_eq`), with
one exception: a scalar whose key starts with the digit `c` is written like a cycle.  `Clash` is
that exception.
-/
import Mathlib.Data.List.Forall2
import PackedTree.Catalog.Signature

namespace PackedTree

/-! ## 1. Hexadecimal numerals -/

theorem mem_hexDigits_digitChar {n : Nat} (h : n < 16) :
    n.digitChar ∈ "0123456789abcdef".toList := by
  revert n
  decide

theorem digitChar_inj {n m : Nat} (hn : n < 16) (hm : m < 16)
    (h : n.digitChar = m.digitChar) : n = m := by
  have hall : ∀ n < 16, ∀ m < 16, n.digitChar = m.digitChar → n = m := by decide
  exact hall n hn m hm h

theorem mem_hexDigits_of_mem_toDigits {c : Char} (n : Nat) (h : c ∈ Nat.toDigits 16 n) :
    c ∈ "0123456789abcdef".toList := by
  rw [Nat.toDigits_eq_if (by decide)] at h
  split at h
  · rename_i hn
    rw [List.mem_singleton.mp h]
    exact mem_hexDigits_digitChar hn
  · rcases List.mem_append.mp h with h | h
    · exact mem_hexDigits_of_mem_toDigits (n / 16) h
    · rw [List.mem_singleton.mp h]
      exact mem_hexDigits_digitChar (Nat.mod_lt _ (by decide))

theorem toDigits_inj (n m : Nat) (h : Nat.toDigits 16 n = Nat.toDigits 16 m) : n = m := by
  rw [Nat.toDigits_eq_if (by decide), Nat.toDigits_eq_if (n := m) (by decide)] at h
  split at h <;> split at h
  · rename_i hn hm
    exact digitChar_inj hn hm (List.singleton_inj.mp h)
  · have := congrArg List.length h
    simp [Nat.toDigits_ne_nil] at this
  · have := congrArg List.length h
    simp [Nat.toDigits_ne_nil] at this
  · rename_i hn hm
    obtain ⟨hq, hr⟩ := List.append_inj' h rfl
    have h1 := toDigits_inj (n / 16) (m / 16) hq
    have h2 := digitChar_inj (Nat.mod_lt n (by decide)) (Nat.mod_lt m (by decide))
      (List.singleton_inj.mp hr)
    omega

namespace Text

theorem toList_hex (n : Nat) : (hex n).toList = Nat.toDigits 16 n := String.toList_ofList

theorem hex_inj {n m : Nat} (h : hex n = hex m) : n = m := by
  apply toDigits_inj
  rw [← toList_hex, ← toList_hex, h]

theorem mem_hexDigits_of_mem_hex {c : Char} {n : Nat} (h : c ∈ (hex n).toList) :
    c ∈ "0123456789abcdef".toList := by
  rw [toList_hex] at h
  exact mem_hexDigits_of_mem_toDigits n h

/-- A numeral has a first digit. -/
theorem exists_hex_eq_cons (n : Nat) :
    ∃ c cs, (hex n).toList = c :: cs ∧ c ∈ "0123456789abcdef".toList := by
  cases h : (hex n).toList with
  | nil =>
    rw [toList_hex] at h
    exact absurd h Nat.toDigits_ne_nil
  | cons c cs =>
    exact ⟨c, cs, rfl, mem_hexDigits_of_mem_hex (n := n) (by rw [h]; exact List.mem_cons_self)⟩

end Text

/-! ## 2. Words and lines -/

/-- A word has no blank. -/
def IsWord (w : String) : Prop := ' ' ∉ w.toList

theorem isWord_hex (n : Nat) : IsWord (Text.hex n) := by
  intro h
  exact absurd (Text.mem_hexDigits_of_mem_hex h) (by decide)

theorem IsWord.append {v w : String} (hv : IsWord v) (hw : IsWord w) : IsWord (v ++ w) := by
  unfold IsWord
  rw [String.toList_append, List.mem_append]
  exact fun h => h.elim hv hw

theorem Token.isWord_text (t : Token) : IsWord t.text := by
  cases t with
  | null => simp [Token.text, IsWord]
  | scalar key => exact isWord_hex key.toNat
  | cycle key => exact IsWord.append (by simp [IsWord]) (isWord_hex key.toNat)
  | child key =>
    exact ((show IsWord "[#" by simp [IsWord]).append (isWord_hex key.toNat)).append
      (by simp [IsWord])

/-- **A line of words can be taken apart.** -/
theorem line_injective {v w : String} {vs ws : List String}
    (hvs : ∀ x ∈ v :: vs, IsWord x) (hws : ∀ x ∈ w :: ws, IsWord x)
    (h : " ".intercalate (v :: vs) = " ".intercalate (w :: ws)) : v = w ∧ vs = ws := by
  have hv := String.toList_split_intercalate (c := ' ') hvs
  have hw := String.toList_split_intercalate (c := ' ') hws
  rw [if_neg (List.cons_ne_nil _ _)] at hv hw
  have he : v :: vs = w :: ws := by
    rw [← hv, ← hw]
    exact congrArg (fun s : String => (s.split ' ').toList.map (·.copy)) h
  exact List.cons.inj he

/-! ## 3. Words of tokens -/

/-- **The one clash between tokens**: the key of a scalar reads like the mark and the key of a
cycle. -/
def Clash (scalar cycle : UInt32) : Prop :=
  Text.hex scalar.toNat = "c" ++ Text.hex cycle.toNat

/-- A word tells its token, up to a clash. -/
theorem Token.text_eq {t u : Token} (h : t.text = u.text) :
    t = u ∨ (∃ n m, t = .scalar n ∧ u = .cycle m ∧ Clash n m) ∨
      (∃ n m, t = .cycle m ∧ u = .scalar n ∧ Clash n m) := by
  have hl := congrArg String.toList h
  have hkey {n m : UInt32} (h : Text.hex n.toNat = Text.hex m.toNat) : n = m :=
    UInt32.toNat_inj.mp (Text.hex_inj h)
  have hcons (n : Nat) {c : Char} {cs : List Char} (he : (Text.hex n).toList = c :: cs) :
      c ∈ "0123456789abcdef".toList := by
    obtain ⟨c', cs', hn, hc⟩ := Text.exists_hex_eq_cons n
    rw [he, List.cons.injEq] at hn
    exact hn.1 ▸ hc
  cases t with
  | null =>
    cases u with
    | null => exact .inl rfl
    | scalar m => exact absurd (hcons m.toNat hl.symm) (by decide)
    | cycle m => simp [Token.text] at hl
    | child m => simp [Token.text] at hl
  | scalar n =>
    cases u with
    | null => exact absurd (hcons n.toNat hl) (by decide)
    | scalar m => exact .inl (congrArg _ (hkey h))
    | cycle m => exact .inr (.inl ⟨n, m, rfl, rfl, h⟩)
    | child m =>
      simp only [Token.text, String.toList_append] at hl
      exact absurd (hcons n.toNat hl) (by decide)
  | cycle n =>
    cases u with
    | null => simp [Token.text] at hl
    | scalar m => exact .inr (.inr ⟨m, n, rfl, rfl, h.symm⟩)
    | cycle m =>
      simp only [Token.text, String.toList_append] at hl
      refine .inl (congrArg _ (hkey (String.toList_injective ?_)))
      exact List.append_cancel_left hl
    | child m => simp [Token.text] at hl
  | child n =>
    cases u with
    | null => simp [Token.text] at hl
    | scalar m =>
      simp only [Token.text, String.toList_append] at hl
      exact absurd (hcons m.toNat hl.symm) (by decide)
    | cycle m => simp [Token.text] at hl
    | child m =>
      simp only [Token.text, String.toList_append] at hl
      refine .inl (congrArg _ (hkey (String.toList_injective ?_)))
      exact List.append_cancel_left (List.append_cancel_right hl)

/-! ## 4. Words of headers -/

/-- The first word of a signature: the index of an object's shape, or the length of an array. -/
inductive Header where
  | shape (index : Nat)
  | length (n : Nat)
deriving DecidableEq

def Header.text : Header → String
  | shape index => "k" ++ Text.hex index
  | length n => "a" ++ Text.hex n

theorem Header.isWord_text (h : Header) : IsWord h.text := by
  cases h with
  | shape index => exact IsWord.append (by simp [IsWord]) (isWord_hex index)
  | length n => exact IsWord.append (by simp [IsWord]) (isWord_hex n)

theorem Header.text_inj {g h : Header} (he : g.text = h.text) : g = h := by
  have hl := congrArg String.toList he
  cases g <;> cases h <;> simp only [Header.text, String.toList_append] at hl
  case shape.shape i j =>
    exact congrArg _ (Text.hex_inj (String.toList_injective (List.append_cancel_left hl)))
  case length.length i j =>
    exact congrArg _ (Text.hex_inj (String.toList_injective (List.append_cancel_left hl)))
  all_goals simp at hl

/-- The signature with a header and tokens. -/
def Signature.ofWords (header : Header) (tokens : List Token) : Signature :=
  " ".intercalate (header.text :: tokens.map Token.text)

theorem Signature.isWord_of_mem (header : Header) (tokens : List Token) :
    ∀ w ∈ header.text :: tokens.map Token.text, IsWord w := by
  intro w hw
  rcases List.mem_cons.mp hw with rfl | hw
  · exact header.isWord_text
  · obtain ⟨t, -, rfl⟩ := List.mem_map.mp hw
    exact t.isWord_text

/-- Equal signatures have the same header, and tokens with the same words. -/
theorem Signature.ofWords_inj {g h : Header} {ts us : List Token}
    (he : Signature.ofWords g ts = Signature.ofWords h us) :
    g = h ∧ ts.map Token.text = us.map Token.text := by
  obtain ⟨hg, ht⟩ := line_injective (isWord_of_mem g ts) (isWord_of_mem h us) he
  exact ⟨Header.text_inj hg, ht⟩

end PackedTree
