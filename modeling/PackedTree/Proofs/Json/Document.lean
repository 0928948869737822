/-
# Documents and their parts

What later modules say about a document without a tree at hand.

* `containers`: the lists and objects of a document, each after the ones inside it.
* `withDoubles`: the document with each number replaced by a double.
* `WellFormed`: no object of the document names two members alike, and integers have 64 bits.

The reader keeps one member per name and makes doubles of greater integers, so every document that
is read is well-formed (`wellFormed_of_parse`).
-/
import PackedTree.Json.Reader
import PackedTree.Proofs.Json.Numbers
import PackedTree.Proofs.Traversal

namespace PackedTree.Json

/-! ## 1. The parts of a document -/

mutual

/-- **The lists and objects of a document**, in the order in which they end. -/
def containers : Json → List Json
  | .null | .bool _ | .number _ | .string _ => []
  | .array items => itemContainers items ++ [.array items]
  | .object members => memberContainers members ++ [.object members]

def itemContainers : List Json → List Json
  | [] => []
  | item :: rest => item.containers ++ itemContainers rest

def memberContainers : List (String × Json) → List Json
  | [] => []
  | (_, item) :: rest => item.containers ++ memberContainers rest

end

/-- The parts of an object's members are those of their values. -/
theorem memberContainers_eq : ∀ members : List (String × Json),
    memberContainers members = itemContainers (members.map Prod.snd)
  | [] => rfl
  | (_, item) :: rest => congrArg (item.containers ++ ·) (memberContainers_eq rest)

theorem itemContainers_append : ∀ items items' : List Json,
    itemContainers (items ++ items') = itemContainers items ++ itemContainers items'
  | [], _ => rfl
  | item :: rest, items' => by
    rw [List.cons_append, itemContainers, itemContainers, itemContainers_append rest,
      List.append_assoc]

/-! ## 2. Doubles for numbers -/

section Doubles

variable (double : Number → Binary64)

mutual

/-- **The document with each number as a double.**  Nothing else changes. -/
def withDoubles : Json → Json
  | .null => .null
  | .bool b => .bool b
  | .number n => .number (.real (double n))
  | .string s => .string s
  | .array items => .array (itemsWithDoubles items)
  | .object members => .object (membersWithDoubles members)

def itemsWithDoubles : List Json → List Json
  | [] => []
  | item :: rest => withDoubles item :: itemsWithDoubles rest

def membersWithDoubles : List (String × Json) → List (String × Json)
  | [] => []
  | (name, item) :: rest => (name, withDoubles item) :: membersWithDoubles rest

end

theorem itemsWithDoubles_eq : ∀ items : List Json,
    itemsWithDoubles double items = items.map (withDoubles double)
  | [] => rfl
  | item :: rest => congrArg (withDoubles double item :: ·) (itemsWithDoubles_eq rest)

theorem membersWithDoubles_eq : ∀ members : List (String × Json),
    membersWithDoubles double members =
      members.map fun member => (member.1, withDoubles double member.2)
  | [] => rfl
  | (name, item) :: rest =>
    congrArg ((name, withDoubles double item) :: ·) (membersWithDoubles_eq rest)

end Doubles

/-! ## 3. Well-formed documents -/

/-- **No object in a document names two members alike**, and its numbers fit. -/
inductive WellFormed : Json → Prop where
  | null : WellFormed .null
  | bool (b : Bool) : WellFormed (.bool b)
  | number {n : Number} (hn : n.Fits) : WellFormed (.number n)
  | string (s : String) : WellFormed (.string s)
  | array {items : List Json} (hitems : ∀ item ∈ items, WellFormed item) :
      WellFormed (.array items)
  | object {members : List (String × Json)} (hnames : (Named.names members).Nodup)
      (hvalues : ∀ member ∈ members, WellFormed member.2) : WellFormed (.object members)

attribute [simp] WellFormed.null WellFormed.bool WellFormed.string

@[simp] theorem wellFormed_number_iff {n : Number} : (number n).WellFormed ↔ n.Fits := by
  constructor
  · intro h
    cases h with
    | number hn => exact hn
  · exact .number

@[simp] theorem wellFormed_array_iff {items : List Json} :
    (array items).WellFormed ↔ ∀ item ∈ items, item.WellFormed := by
  constructor
  · intro h
    cases h with
    | array hitems => exact hitems
  · exact .array

@[simp] theorem wellFormed_object_iff {members : List (String × Json)} :
    (object members).WellFormed ↔
      (Named.names members).Nodup ∧ ∀ member ∈ members, member.2.WellFormed := by
  constructor
  · intro h
    cases h with
    | object hnames hvalues => exact ⟨hnames, hvalues⟩
  · rintro ⟨hnames, hvalues⟩
    exact .object hnames hvalues

section Reading

variable {value : Input → Result Json}

/-- The items of a list are values that were read. -/
theorem wellFormed_of_readItems
    (hvalue : ∀ cs d rest, value cs = .ok (d, rest) → d.WellFormed) :
    ∀ (room : Nat) (read : List Json) (cs : Input) {items : List Json} {rest : Input},
      readItems value room read cs = .ok (items, rest) → (∀ item ∈ read, item.WellFormed) →
        ∀ item ∈ items, item.WellFormed
  | 0, _, _, _, _, h, _ => by simp [readItems] at h
  | room + 1, read, cs, items, rest, h, hread => by
    unfold readItems at h
    split at h
    · cases h
    · cases h
      intro item hitem
      exact hread item (List.mem_reverse.mp hitem)
    · split at h
      · cases h
      · rename_i text _ _ d rest' hd
        refine wellFormed_of_readItems hvalue room _ _ h ?_
        intro item hitem
        rcases List.mem_cons.mp hitem with rfl | hitem
        · exact hvalue text _ _ hd
        · exact hread item hitem

/-- The members of an object have names of their own and values that were read. -/
theorem wellFormed_of_readMembers
    (hvalue : ∀ cs d rest, value cs = .ok (d, rest) → d.WellFormed) :
    ∀ (room : Nat) (isFirst : Bool) (read : List (String × Json)) (cs : Input)
      {members : List (String × Json)} {rest : Input},
      readMembers value room isFirst read cs = .ok (members, rest) →
        (Json.object read).WellFormed → (Json.object members).WellFormed
  | 0, _, _, _, _, _, h, _ => by simp [readMembers] at h
  | room + 1, isFirst, read, cs, members, rest, h, hread => by
    unfold readMembers at h
    split at h
    · cases h
    · cases h
      exact hread
    · split at h
      · cases h
      · rename_i name _ _
        split at h
        · cases h
        · rename_i text _
          split at h
          · cases h
          · rename_i d rest' hd
            cases hread with
            | object hnames hvalues =>
              refine wellFormed_of_readMembers hvalue room _ _ _ h
                (.object (Named.nodup_set name d hnames) ?_)
              intro member hmember
              rcases Named.mem_of_mem_set hmember with rfl | hmember
              · exact hvalue text _ _ hd
              · exact hvalues member hmember

end Reading

theorem wellFormed_of_readScalar {c : Char} {cs rest : Input} {d : Json}
    (h : readScalar c cs = .ok (d, rest)) : d.WellFormed := by
  unfold readScalar at h
  split_ifs at h
  · obtain ⟨_, -, hd⟩ := map_eq_ok_iff.mp h
    cases hd
    exact .null
  · obtain ⟨_, -, hd⟩ := map_eq_ok_iff.mp h
    cases hd
    exact .bool true
  · obtain ⟨_, -, hd⟩ := map_eq_ok_iff.mp h
    cases hd
    exact .bool false
  · obtain ⟨⟨s, _⟩, -, hd⟩ := map_eq_ok_iff.mp h
    cases hd
    exact .string s
  all_goals
    obtain ⟨⟨n, _⟩, hn, hd⟩ := map_eq_ok_iff.mp h
    cases hd
    exact .number (fits_of_readNumber hn)

/-- A value that is read is well-formed, however deep lists and objects may nest in it. -/
theorem wellFormed_of_readValue : ∀ (depth : Nat) (cs : Input) (d : Json) (rest : Input),
    readValue depth cs = .ok (d, rest) → d.WellFormed
  | 0, cs, d, rest, h => by
    unfold readValue at h
    split at h
    · cases h
    · cases h
    · cases h
    · exact wellFormed_of_readScalar h
  | depth + 1, cs, d, rest, h => by
    have ih := wellFormed_of_readValue depth
    unfold readValue at h
    split at h
    · cases h
    · obtain ⟨⟨items, _⟩, hitems, hd⟩ := map_eq_ok_iff.mp h
      cases hd
      exact .array (wellFormed_of_readItems ih _ _ _ hitems fun item hitem => by cases hitem)
    · obtain ⟨⟨members, _⟩, hmembers, hd⟩ := map_eq_ok_iff.mp h
      cases hd
      refine wellFormed_of_readMembers ih _ _ _ _ hmembers (.object List.nodup_nil ?_)
      intro member hmember
      cases hmember
    · exact wellFormed_of_readScalar h

/-- **Every document that is read is well-formed.** -/
theorem wellFormed_of_parse {text : String} {document : Json} (h : parse text = .ok document) :
    document.WellFormed := by
  unfold parse at h
  split at h
  · cases h
  · rename_i d rest hread
    obtain ⟨_, -, rfl⟩ := map_eq_ok_iff.mp h
    exact wellFormed_of_readValue depthLimit _ _ rest hread

end PackedTree.Json
