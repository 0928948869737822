/-
# Text without control sequences

A message that quotes what a user typed must not move the cursor or change the colours of a
terminal.  `Text.plain` drops the control sequences of a text, and every control character except
the blank ones.  What is dropped is what a terminal would not show:

* an escape with the letter that ends it, also with intermediate characters before that letter;
* a control sequence, `ESC [` up to a final letter;
* a command string, `ESC ]` up to a bell, and the device strings of `ESC P`, `ESC X`, `ESC ^` and
  `ESC _`.

A new escape ends whatever sequence it stands in.  A sequence that the text does not end is
dropped as far as it goes.  Nothing is added or moved (`Mode.plain_sublist`), and a text without
controls other than blanks stays as it is (`plain_eq_self`).
-/

namespace PackedTree.Text

/-! ## 1. Classes of characters -/

/-- The controls that stay in plain text: tabulator, line feed, form feed, carriage return. -/
def isBlankControl (c : Char) : Bool := c = '\t' ∨ c = '\n' ∨ c = '\x0c' ∨ c = '\r'

/-- From a blank to a slash: the characters between an escape and its final letter. -/
def isIntermediate (c : Char) : Bool := ' ' ≤ c ∧ c ≤ '/'

/-- The characters that can end a control sequence. -/
def isFinal (c : Char) : Bool := '@' ≤ c ∧ c ≤ '~'

/-- Digits, separators and marks: the characters of a sequence's parameters. -/
def isParameter (c : Char) : Bool := '0' ≤ c ∧ c ≤ '?'

/-- The byte that ends a device string. -/
def stringEnd : UInt8 := 0x9c

/-! ## 2. Sequences -/

/-- The part of a sequence that is being read. -/
inductive Sequence where
  /-- After an escape. -/
  | escape
  /-- After an escape and an intermediate character. -/
  | intermediate
  /-- A control sequence. -/
  | control
  /-- A command string. -/
  | command
  /-- The head of a device string: nothing of it yet, its parameters, or what follows them. -/
  | deviceHead
  | deviceParameters
  | deviceIntermediate
  /-- The body of a device string. -/
  | device
deriving DecidableEq, Repr

/-- Whether a blank control is shown although it stands in the sequence. -/
def Sequence.showsBlanks : Sequence → Bool
  | escape | intermediate | control => true
  | _ => false

/-- What a text is in: plain characters, or a sequence.  Plain characters may have interrupted a
sequence, which goes on at the next control. -/
inductive Mode where
  | shown (interrupted : Option Sequence)
  | inside (s : Sequence)
deriving DecidableEq, Repr

/-- What follows a character that belongs to a sequence. -/
def Sequence.next (s : Sequence) (c : Char) : Mode :=
  match s with
  | escape =>
    if isIntermediate c then .inside intermediate
    else if c = '[' then .inside control
    else if c = ']' then .inside command
    else if c = 'P' then .inside deviceHead
    else if c = 'X' ∨ c = '^' ∨ c = '_' then .inside device
    else if isParameter c ∨ isFinal c then .shown none
    else .inside escape
  | intermediate => if isParameter c ∨ isFinal c then .shown none else .inside intermediate
  | control => if isFinal c then .shown none else .inside control
  | command => if c = '\x07' then .shown none else .inside command
  | deviceHead =>
    if isIntermediate c then .inside deviceIntermediate
    else if isParameter c then .inside deviceParameters
    else if isFinal c then .inside device
    else .inside deviceHead
  | deviceParameters =>
    if isIntermediate c then .inside deviceIntermediate
    else if '<' ≤ c ∧ c ≤ '~' then .inside device
    else .inside deviceParameters
  | deviceIntermediate =>
    if isParameter c ∨ isFinal c then .inside device else .inside deviceIntermediate
  | device => if stringEnd ∈ String.utf8EncodeChar c then .shown none else .inside device

/-! ## 3. Texts -/

/-- The characters that a terminal shows, or takes as blanks. -/
def isVisible (c : Char) : Bool := '\x7f' < c ∨ (' ' ≤ c ∧ c ≤ '~') ∨ isBlankControl c

/-- Whether a character is shown in a mode, and the mode after it. -/
def Mode.step (mode : Mode) (c : Char) : Bool × Mode :=
  if c = '\x1b' then (false, .inside .escape)
  else if c = '\x18' ∨ c = '\x1a' then (false, .shown none)
  else
    match mode with
    | .shown interrupted =>
      if '\x7f' < c then (true, .shown none)
      else if isVisible c then (true, .shown interrupted)
      else
        match interrupted with
        | none => (false, .shown none)
        | some s => (false, .inside s)
    | .inside s =>
      if s.showsBlanks ∧ isBlankControl c then (true, .shown (some s)) else (false, s.next c)

/-- The characters that are shown, from a mode on. -/
def Mode.plain (mode : Mode) : List Char → List Char
  | [] => []
  | c :: cs =>
    let (isShown, mode) := mode.step c
    if isShown then c :: mode.plain cs else mode.plain cs

/-- **A text without its control sequences.** -/
def plain (s : String) : String := String.ofList ((Mode.shown none).plain s.toList)

/-- What is shown are characters of the text, in their order. -/
theorem Mode.plain_sublist (mode : Mode) (cs : List Char) : (mode.plain cs).Sublist cs := by
  fun_induction Mode.plain mode cs with
  | case1 => exact .slnil
  | case2 _ _ _ _ _ ih => exact ih.cons_cons _
  | case3 _ _ _ _ _ _ _ ih => exact ih.cons _

/-- A visible character is shown outside a sequence, and none begins at it. -/
theorem Mode.step_of_visible {c : Char} (h : isVisible c = true) :
    (Mode.shown none).step c = (true, .shown none) := by
  have hEscape : c ≠ '\x1b' := by rintro rfl; exact absurd h (by decide)
  have hCancel : ¬(c = '\x18' ∨ c = '\x1a') := by
    rintro (rfl | rfl) <;> exact absurd h (by decide)
  simp only [Mode.step, if_neg hEscape, if_neg hCancel, if_pos h, ite_self]

/-- A text of visible characters stays as it is. -/
theorem plain_eq_self {s : String} (h : ∀ c ∈ s.toList, isVisible c = true) : plain s = s := by
  have shown : ∀ cs : List Char, (∀ c ∈ cs, isVisible c = true) →
      (Mode.shown none).plain cs = cs := by
    intro cs
    induction cs with
    | nil => intro _; rfl
    | cons c cs ih =>
      intro hc
      have hStep := Mode.step_of_visible (hc c (List.mem_cons_self ..))
      simp [Mode.plain, hStep, ih fun d hd => hc d (List.mem_cons_of_mem _ hd)]
  rw [plain, shown _ h, String.ofList_toList]

end PackedTree.Text
