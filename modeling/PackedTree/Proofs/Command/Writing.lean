/-
# What a command writes

A command writes its content last, to a path or to the output.  This module says where content goes
and how much of it, without saying how it is written.

* `Room.Fits`: content that there is room for.  What does not fit is cut (`Room.taken_append`).
* `splitHeld`: the output holds back less than a line (`size_held_lt`), and what is passed on and
  what is held back make the content (`prompt_append_held`).
* `Accepts`, `Delivered`, `Session.roomAt`: a destination that takes content, where content goes,
  and how much room there is.
* `Session.finish_writeOutput`, `Session.writePath_cases`: the two ways of writing.  The beginning of
  the content that there is room for is delivered; or a path takes none, and nothing changes.
-/
import PackedTree.Command.Host
import PackedTree.Proofs.Command.FileStore

namespace PackedTree.Command

/-! ## 1. Rooms -/

namespace Room

variable {room : Option Room} {content : ByteArray}

/-- **There is room for content.** -/
def Fits (room : Option Room) (content : ByteArray) : Prop :=
  ∀ r ∈ room, content.size ≤ r.left

instance : Decidable (Fits room content) :=
  inferInstanceAs (Decidable (∀ r ∈ room, content.size ≤ r.left))

theorem fits_none (content : ByteArray) : Fits none content := nofun

@[simp] theorem fits_some {r : Room} : Fits (some r) content ↔ content.size ≤ r.left :=
  ⟨fun h => h r rfl, fun h _ hr => Option.some.inj hr ▸ h⟩

/-- Content that does not fit is bounded by a room. -/
theorem exists_of_not_fits (h : ¬Fits room content) : ∃ r, room = some r ∧ r.left < content.size := by
  cases room with
  | none => exact absurd (fits_none content) h
  | some r => exact ⟨r, rfl, Nat.not_le.mp fun hle => h (fits_some.mpr hle)⟩

theorem taken_of_fits (h : Fits room content) : taken room content = content := by
  cases room with
  | none => rfl
  | some r =>
    rw [fits_some] at h
    have hrest : content.extract content.size r.left = .empty :=
      ByteArray.extract_eq_empty_iff.mpr (Nat.min_le_right _ _)
    rw [taken, ByteArray.extract_eq_extract_append_extract content.size (Nat.zero_le _) h, hrest,
      ByteArray.append_empty, ByteArray.extract_zero_size]

/-- A fault shows that content was cut. -/
theorem verdict_eq_ok_iff : verdict room content = .ok () ↔ Fits room content := by
  cases room with
  | none => exact ⟨fun _ => fits_none content, fun _ => rfl⟩
  | some r =>
    rw [fits_some, verdict]
    split
    · rename_i h
      exact iff_of_true rfl h
    · rename_i h
      exact iff_of_false (fun hok => by cases hok) h

theorem taken_empty (room : Option Room) : taken room .empty = .empty := by
  cases room with
  | none => rfl
  | some r => exact ByteArray.extract_eq_empty_iff.mpr (Nat.min_le_right _ _)

/-- **Content in two parts** is taken like content in one. -/
theorem taken_append (room : Option Room) (a b : ByteArray) :
    taken room (a ++ b) = taken room a ++ taken (after room a) b := by
  cases room with
  | none => rfl
  | some r => exact ByteArray.extract_append.trans (by rw [Nat.zero_sub]; rfl)

/-- Nothing is taken of what follows content that was cut. -/
theorem taken_after_of_not_fits (h : ¬Fits room content) (more : ByteArray) :
    taken (after room content) more = .empty := by
  obtain ⟨r, rfl, hlt⟩ := exists_of_not_fits h
  show more.extract 0 (r.left - content.size) = .empty
  rw [Nat.sub_eq_zero_of_le (Nat.le_of_lt hlt), ByteArray.extract_same]

end Room

/-! ## 2. What the output holds back -/

theorem linesSize_le (content : ByteArray) (count : Nat) : linesSize content count ≤ count := by
  induction count with
  | zero => exact Nat.le_refl _
  | succ count ih =>
    unfold linesSize
    split
    · exact Nat.le_refl _
    · exact Nat.le_succ_of_le ih

theorem promptSize_le (content : ByteArray) : promptSize content ≤ content.size := by
  unfold promptSize
  dsimp only
  split
  · exact linesSize_le content content.size
  · exact Nat.le_refl _

/-- **Nothing gets lost between** what is passed on and what is held back. -/
theorem prompt_append_held (content : ByteArray) :
    (splitHeld content).1 ++ (splitHeld content).2 = content := by
  calc content.extract 0 (promptSize content) ++ content.extract (promptSize content) content.size
      = content.extract 0 content.size :=
        (ByteArray.extract_eq_extract_append_extract _ (Nat.zero_le _) (promptSize_le _)).symm
    _ = content := ByteArray.extract_zero_size

theorem size_prompt_le (content : ByteArray) : (splitHeld content).1.size ≤ content.size := by
  conv_rhs => rw [← prompt_append_held content, ByteArray.size_append]
  exact Nat.le_add_right _ _

/-- **Only a short end is held back.** -/
theorem size_held_lt (content : ByteArray) : (splitHeld content).2.size < longestHeld := by
  show (content.extract (promptSize content) content.size).size < longestHeld
  rw [ByteArray.size_extract, Nat.min_self]
  unfold promptSize
  dsimp only
  split
  · assumption
  · rw [Nat.sub_self]
    decide

/-- **Whole lines are passed on at once.** -/
theorem held_push (content : ByteArray) :
    (splitHeld (content.push '\n'.toUInt8)).2 = .empty := by
  have hall : promptSize (content.push '\n'.toUInt8) = (content.push '\n'.toUInt8).size := by
    have hlines : linesSize (content.push '\n'.toUInt8) (content.push '\n'.toUInt8).size =
        (content.push '\n'.toUInt8).size := by
      rw [ByteArray.size_push, linesSize, if_pos (ByteArray.getElem!_push_eq _ _)]
    rw [promptSize, hlines]
    exact ite_self _
  show ByteArray.extract _ (promptSize _) _ = .empty
  rw [hall, ByteArray.extract_same]

/-! ## 3. Destinations -/

/-- **A destination takes content**: a path leads to a place for it, and a device that is full takes
none, a terminal not either. -/
def Accepts (files : FileStore) (content : ByteArray) : Option String → Prop
  | none => True
  | some path => ∃ place, files.target path = .ok place ∧
    ∀ d, files.get? place = some (.device d) → d ≠ .terminal ∧ (d = .full → content.isEmpty)

/-- **Where content goes.**  Without a path it is put after the output.  With one it is what the
path leads to from then on, and no other place changes; or the path ends at a device, and no place
changes. -/
inductive Delivered (files : FileStore) (output : ByteArray) (content : ByteArray) :
    Option String → FileStore → ByteArray → Prop
  | printed : Delivered files output content none files (output ++ content)
  | stored {path : String} {place : Place} {files' : FileStore} :
    files.target path = .ok place → (∀ d, files.get? place ≠ some (.device d)) →
      files'.lookup path = .ok (.file content) →
      files'.workingDirectory = files.workingDirectory →
      (∀ other, other ≠ place → files'.get? other = files.get? other) →
      Delivered files output content (some path) files' output
  | passed {path : String} {place : Place} {d : Device} :
    files.target path = .ok place → files.get? place = some (.device d) →
      Delivered files output content (some path) files
        (if d = .output then output ++ content else output)

section Deliveries

variable {files files' : FileStore} {output output' content : ByteArray} {path : String}
  {place : Place}

theorem Delivered.printed_eq (h : Delivered files output content none files' output') :
    files' = files ∧ output' = output ++ content := by
  cases h
  exact ⟨rfl, rfl⟩

/-- Where no device stands, content is stored. -/
theorem Delivered.stored_eq (h : Delivered files output content (some path) files' output')
    (htarget : files.target path = .ok place)
    (hdevice : ∀ d, files.get? place ≠ some (.device d)) :
    files'.lookup path = .ok (.file content) ∧ output' = output := by
  cases h with
  | stored _ _ hlookup _ _ => exact ⟨hlookup, rfl⟩
  | @passed _ place' d htarget' hd =>
    obtain rfl := Except.ok.inj (htarget.symm.trans htarget')
    exact absurd hd (hdevice d)

/-- A device takes content without a trace among the files. -/
theorem Delivered.passed_eq (h : Delivered files output content (some path) files' output')
    {d : Device} (htarget : files.target path = .ok place)
    (hd : files.get? place = some (.device d)) : files' = files := by
  cases h with
  | stored htarget' hdevice _ _ _ =>
    obtain rfl := Except.ok.inj (htarget.symm.trans htarget')
    exact absurd hd (hdevice d)
  | passed _ _ => rfl

end Deliveries

namespace Session

/-- **The room at a destination**, if there is a bound.  A device has none, but for the output's. -/
def roomAt (s : Session) : Option String → Option Room
  | none => s.outputRoom
  | some path =>
    match s.files.target path with
    | .error _ => none
    | .ok place =>
      match s.files.get? place with
      | some (.device .output) => s.outputRoom
      | some (.device _) => none
      | _ => s.fileRoom

variable {s : Session} {content : ByteArray} {path : String} {place : Place}

/-- Where no device stands there is the room of a file. -/
theorem roomAt_of_target (htarget : s.files.target path = .ok place)
    (hdevice : ∀ d, s.files.get? place ≠ some (.device d)) : s.roomAt (some path) = s.fileRoom := by
  simp only [roomAt, htarget]
  split
  · rename_i hd
    exact absurd hd (hdevice _)
  · rename_i hd
    exact absurd hd (hdevice _)
  · rfl

/-! ## 4. Writing -/

theorem files_finish (s : Session) : s.finish.files = s.files := rfl

theorem output_finish (s : Session) :
    s.finish.output = s.output ++ Room.taken s.outputRoom s.held := rfl

/-- With nothing held back there is nothing to pass on. -/
theorem output_finish_of_held (h : s.held = .empty) : s.finish.output = s.output := by
  rw [output_finish, h, Room.taken_empty, ByteArray.append_empty]

/-- **The output takes what there is room for**, once the program has ended.  A fault is told of
what is passed on at once, and not of what is held back. -/
theorem finish_writeOutput (h : s.held = .empty) (content : ByteArray) :
    (s.writeOutput content).2.finish.files = s.files ∧
      (s.writeOutput content).2.finish.output = s.output ++ Room.taken s.outputRoom content ∧
      ((s.writeOutput content).1 = .ok () ↔ Room.Fits s.outputRoom (splitHeld content).1) := by
  have hparts : Room.taken s.outputRoom content = Room.taken s.outputRoom (splitHeld content).1 ++
      Room.taken (Room.after s.outputRoom (splitHeld content).1) (splitHeld content).2 := by
    rw [← Room.taken_append, prompt_append_held]
  rw [← Room.verdict_eq_ok_iff]
  unfold writeOutput
  rw [h, ByteArray.empty_append]
  dsimp only [emit]
  cases hverdict : Room.verdict s.outputRoom (splitHeld content).1 with
  | ok _ =>
    refine ⟨rfl, ?_, Iff.rfl⟩
    rw [hparts, output_finish, ByteArray.append_assoc]
  | error e =>
    have hcut : ¬Room.Fits s.outputRoom (splitHeld content).1 := by
      rw [← Room.verdict_eq_ok_iff, hverdict]
      exact fun hok => by cases hok
    refine ⟨rfl, ?_, iff_of_false (fun hok => by cases hok) fun hok => by cases hok⟩
    rw [hparts, Room.taken_after_of_not_fits hcut, ByteArray.append_empty]
    exact output_finish_of_held rfl

/-- **A device takes content** as far as there is room, or it takes none. -/
theorem writeDevice_cases {d : Device} (hheld : s.held = .empty)
    (htarget : s.files.target path = .ok place) (hd : s.files.get? place = some (.device d)) :
    (Accepts s.files content (some path) ∧
        Delivered s.files s.output (Room.taken (s.roomAt (some path)) content) (some path)
          (s.writeDevice content d).2.finish.files (s.writeDevice content d).2.finish.output ∧
        ((s.writeDevice content d).1 = .ok () ↔ Room.Fits (s.roomAt (some path)) content)) ∨
      ¬Accepts s.files content (some path) ∧ ∃ e, s.writeDevice content d = (.error e, s) := by
  have haccepts : Accepts s.files content (some path) ↔
      d ≠ .terminal ∧ (d = .full → content.isEmpty) := by
    constructor
    · rintro ⟨place', hplace', h⟩
      obtain rfl := Except.ok.inj (htarget.symm.trans hplace')
      exact h d hd
    · intro h
      refine ⟨place, htarget, fun d' hd' => ?_⟩
      cases hd.symm.trans hd'
      exact h
  have hroom : s.roomAt (some path) = if d = .output then s.outputRoom else none := by
    simp only [roomAt, htarget, hd]
    cases d <;> rfl
  have hdone {room : Option Room} {result : Except FileError Unit} {s' : Session}
      (hwritten : s.writeDevice content d = (result, s')) (hroom : s.roomAt (some path) = room)
      (hfiles : s'.files = s.files) (hheld' : s'.held = .empty)
      (houtput : s'.output = if d = .output then s.output ++ Room.taken room content else s.output)
      (hresult : result = .ok () ↔ Room.Fits room content) :
      Delivered s.files s.output (Room.taken (s.roomAt (some path)) content) (some path)
          (s.writeDevice content d).2.finish.files (s.writeDevice content d).2.finish.output ∧
        ((s.writeDevice content d).1 = .ok () ↔ Room.Fits (s.roomAt (some path)) content) := by
    rw [hwritten, hroom, files_finish, output_finish_of_held hheld', hfiles, houtput]
    exact ⟨.passed htarget hd, hresult⟩
  have hfree : (Except.ok () : Except FileError Unit) = .ok () ↔ Room.Fits none content :=
    iff_of_true rfl (Room.fits_none content)
  rw [haccepts]
  cases d with
  | null | input | report => exact .inl ⟨by simp, hdone rfl hroom rfl hheld rfl hfree⟩
  | full =>
    cases hempty : content.isEmpty with
    | true =>
      have hwritten : s.writeDevice content .full = (.ok (), s) := by rw [writeDevice, hempty]; rfl
      exact .inl ⟨by simp, hdone hwritten hroom rfl hheld rfl hfree⟩
    | false => exact .inr ⟨by simp, .noSpace, by rw [writeDevice, hempty]; rfl⟩
  | terminal => exact .inr ⟨by simp, .noDevice, rfl⟩
  | output => exact .inl ⟨by simp, hdone rfl hroom rfl hheld rfl Room.verdict_eq_ok_iff⟩

/-- **The end of a path takes content** as far as there is room, or it takes none and nothing
changes.  A file that has no room for all of it is left with the beginning. -/
theorem writePath_cases (hheld : s.held = .empty) (path : String) (content : ByteArray) :
    (Accepts s.files content (some path) ∧
        Delivered s.files s.output (Room.taken (s.roomAt (some path)) content) (some path)
          (s.writePath path content).2.finish.files (s.writePath path content).2.finish.output ∧
        ((s.writePath path content).1 = .ok () ↔ Room.Fits (s.roomAt (some path)) content)) ∨
      ¬Accepts s.files content (some path) ∧ ∃ e, s.writePath path content = (.error e, s) := by
  unfold writePath
  cases htarget : s.files.target path with
  | error e =>
    refine .inr ⟨?_, e, rfl⟩
    rintro ⟨place, hplace, -⟩
    cases htarget.symm.trans hplace
  | ok place =>
    dsimp only
    split
    · rename_i d hd
      exact writeDevice_cases hheld htarget hd
    · rename_i hdevice
      rw [roomAt_of_target htarget hdevice]
      refine .inl ⟨⟨place, htarget, fun d hd => absurd hd (hdevice d)⟩, ?_, Room.verdict_eq_ok_iff⟩
      have hput : (s.writeFile place content).2.files =
          s.files.put place (.file (Room.taken s.fileRoom content)) :=
        FileStore.put_put _ _ _ _
      have houtput : (s.writeFile place content).2.finish.output = s.output :=
        output_finish_of_held hheld
      rw [files_finish, hput, houtput]
      exact .stored htarget hdevice (FileStore.lookup_put_target _ htarget) rfl fun other hother =>
        FileStore.get?_put_of_ne s.files _ hother

end Session

end PackedTree.Command
