/-
# Lists of texts are read back

The reader of documents takes the line that the printer writes for a list of texts and gives the
texts again, whatever characters they hold.

* `readString_append`: an escaped text up to its closing quote.
* `readItems_texts`: the texts of a list.
* `parse_compact_texts`: the whole line.
-/
import PackedTree.Json.Printer
import PackedTree.Json.Reader

namespace PackedTree.Json

/-! ## 1. One character -/

theorem hexDigit?_digitChar {n : Nat} (h : n < 16) : hexDigit? n.digitChar = some n := by
  have hall : ∀ n < 16, hexDigit? (Nat.digitChar n) = some n := by decide
  exact hall n h

/-- A control character is read back from its two digits. -/
theorem hexEscape_control {c : Char} (h : c < ' ') (rest : Input) :
    hexEscape ('0' :: '0' :: Nat.digitChar (c.toNat / 16) :: Nat.digitChar (c.toNat % 16) :: rest) =
      .ok (c, rest) := by
  have hlt : c.toNat < 32 := h
  have hzero : hexDigit? '0' = some 0 := by decide
  have hunit : hexUnit ('0' :: '0' :: Nat.digitChar (c.toNat / 16) ::
      Nat.digitChar (c.toNat % 16) :: rest) = .ok (c.toNat, rest) := by
    simp only [hexUnit, hzero, hexDigit?_digitChar (show c.toNat / 16 < 16 by omega),
      hexDigit?_digitChar (show c.toNat % 16 < 16 by omega), Except.ok.injEq, Prod.mk.injEq,
      and_true]
    omega
  have hlow : isLowSurrogate c.toNat = false := by
    simp only [isLowSurrogate, decide_eq_false_iff_not]
    omega
  have hhigh : isHighSurrogate c.toNat = false := by
    simp only [isHighSurrogate, decide_eq_false_iff_not]
    omega
  simp only [hexEscape, hunit, hlow, hhigh, Bool.false_eq_true, if_false, Char.ofNat_toNat]

/-- **An escaped character** is read back. -/
theorem readString_escapeChar (read : String) (c : Char) (rest : Input) :
    readString read (escapeChar c ++ rest) = readString (read.push c) rest := by
  have hescape {more : Input} (h : escape more = .ok (c, rest)) :
      readString read ('\\' :: more) = readString (read.push c) rest := by
    rw [readString]
    split
    · rename_i c' rest' he
      rw [h, Except.ok.injEq, Prod.mk.injEq] at he
      obtain ⟨rfl, rfl⟩ := he
      rfl
    · rename_i e he
      simp [h] at he
  unfold escapeChar
  by_cases hquote : c = '"'
  · subst hquote
    exact hescape rfl
  rw [if_neg hquote]
  by_cases hslash : c = '\\'
  · subst hslash
    exact hescape rfl
  rw [if_neg hslash]
  split
  · rename_i h
    subst h
    exact hescape rfl
  split
  · rename_i h
    subst h
    exact hescape rfl
  split
  · rename_i h
    subst h
    exact hescape rfl
  split
  · rename_i h
    subst h
    exact hescape rfl
  split
  · rename_i h
    subst h
    exact hescape rfl
  split
  · rename_i h
    exact hescape (hexEscape_control h rest)
  · rename_i h
    rw [List.singleton_append, readString]
    · rw [if_neg h]
    · exact hquote
    · exact hslash

/-! ## 2. One text -/

/-- **An escaped text** is read back up to its closing quote. -/
theorem readString_append : ∀ (cs : List Char) (read : String) (rest : Input),
    readString read (cs.flatMap escapeChar ++ '"' :: rest) = .ok (read ++ String.ofList cs, rest)
  | [], read, rest => by
    rw [List.flatMap_nil, List.nil_append, readString]
    simp
  | c :: cs, read, rest => by
    rw [List.flatMap_cons, List.append_assoc, readString_escapeChar, readString_append cs]
    congr 2
    apply String.toList_injective
    simp

theorem readValue_quote (depth : Nat) (s : String) (rest : Input) :
    readValue depth (quote s ++ rest) = .ok (.string s, rest) := by
  have hread : readString "" (s.toList.flatMap escapeChar ++ '"' :: rest) = .ok (s, rest) := by
    rw [readString_append]
    simp
  have hsplit : quote s ++ rest = '"' :: (s.toList.flatMap escapeChar ++ '"' :: rest) := by
    simp [quote]
  have hscalar (more : Input) : readValue depth ('"' :: more) =
      (readString "" more).map (Prod.map .string id) := by
    rw [readValue.eq_def]
    rfl
  rw [hsplit, hscalar, hread]
  rfl

/-! ## 3. The texts of a list -/

/-- The texts of a list but the first, each after a comma. -/
theorem separated_cons (text : List Char) : ∀ more : List (List Char),
    separated [','] (text :: more) = text ++ more.flatMap (',' :: ·)
  | [] => by simp [separated]
  | next :: more => by
    rw [separated, separated_cons next more, List.flatMap_cons]
    · simp
    · simp

theorem compactItems_texts (ss : List String) :
    compactItems (ss.map .string) = ss.map quote := by
  induction ss with
  | nil => rfl
  | cons s ss ih => simp [compactItems, compactChars, ih]

/-- The items of a list after its first. -/
theorem readItems_more (depth : Nat) (rest : Input) : ∀ (ss : List String) (room : Nat)
    (read : List Json), read ≠ [] → ss.length < room →
      readItems (readValue depth) room read (ss.flatMap (fun s => ',' :: quote s) ++ ']' :: rest) =
        .ok (read.reverse ++ ss.map .string, rest)
  | _, 0, _, _, h => absurd h (Nat.not_lt_zero _)
  | [], room + 1, read, hr, _ => by
    simp [readItems, nextItem, skipBlanks, isBlank]
  | s :: ss, room + 1, read, hr, h => by
    have hempty : read.isEmpty = false := by simpa using hr
    have hnext : nextItem read.isEmpty
        ((s :: ss).flatMap (fun s => ',' :: quote s) ++ ']' :: rest) =
          .ok (.entry (quote s ++ (ss.flatMap (fun s => ',' :: quote s) ++ ']' :: rest))) := by
      simp [nextItem, skipBlanks, isBlank, quote, hempty]
    have hrest := readItems_more depth rest ss room (.string s :: read) (List.cons_ne_nil _ _)
      (by simpa using h)
    simp only [readItems, hnext, readValue_quote, hrest]
    simp

/-- **The items of a list of texts.** -/
theorem readItems_texts (depth room : Nat) (rest : Input) (ss : List String)
    (h : ss.length < room) :
    readItems (readValue depth) room [] (separated [','] (ss.map quote) ++ ']' :: rest) =
      .ok (ss.map .string, rest) := by
  cases room with
  | zero => exact absurd h (Nat.not_lt_zero _)
  | succ room =>
    cases ss with
    | nil => simp [readItems, nextItem, skipBlanks, isBlank, separated]
    | cons s ss =>
      have hnext : nextItem true (separated [','] ((s :: ss).map quote) ++ ']' :: rest) =
          .ok (.entry (quote s ++ (ss.flatMap (fun s => ',' :: quote s) ++ ']' :: rest))) := by
        rw [List.map_cons, separated_cons, List.flatMap_map]
        simp [nextItem, skipBlanks, isBlank, quote]
      have hrest := readItems_more depth rest ss room [.string s] (List.cons_ne_nil _ _)
        (by simpa using h)
      simp only [readItems, List.isEmpty_nil, hnext, readValue_quote, hrest]
      simp

/-- A list of texts is at least as long as it has texts. -/
theorem length_le_length_separated (ss : List String) :
    ss.length ≤ (separated [','] (ss.map quote)).length := by
  cases ss with
  | nil => simp
  | cons s ss =>
    have hmore : ss.length ≤ (ss.flatMap fun s => ',' :: quote s).length := by
      induction ss with
      | nil => simp
      | cons t ts ih =>
        simp only [List.flatMap_cons, List.length_append, List.length_cons]
        omega
    have hquote : 0 < (quote s).length := by simp [quote]
    rw [List.map_cons, separated_cons, List.flatMap_map, List.length_append, List.length_cons]
    omega

/-- **A line with a list of texts** is read as that list. -/
theorem parse_compact_texts (ss : List String) :
    parse (Json.array (ss.map .string)).compact = .ok (.array (ss.map .string)) := by
  have hchars : (Json.array (ss.map .string)).compact.toList =
      '[' :: (separated [','] (ss.map quote) ++ [']']) := by
    rw [compact, String.toList_ofList, compactChars, compactItems_texts]
  have hroom : ss.length < (separated [','] (ss.map quote) ++ [']']).length + 1 := by
    have := length_le_length_separated ss
    rw [List.length_append]
    omega
  have hlist (more : Input) : readValue depthLimit ('[' :: more) =
      (readItems (readValue 126) (more.length + 1) [] more).map (Prod.map .array id) := by
    rw [readValue.eq_def]
    rfl
  have hvalue : readValue depthLimit ('[' :: (separated [','] (ss.map quote) ++ [']'])) =
      .ok (.array (ss.map .string), []) := by
    rw [hlist, readItems_texts 126 _ [] ss hroom]
    rfl
  rw [parse, hchars, hvalue]
  rfl

end PackedTree.Json
