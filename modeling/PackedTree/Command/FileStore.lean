/-
# Files

A store of files, directories and devices, each at a place: the names that lead to it from the
top.  A path is a text with slashes; it is followed from the working directory, or from the top if
it starts with a slash.  Every directory on the way must exist.  The store says where a path ends;
what a device does there is left to the one who owns the streams behind it.
-/

namespace PackedTree.Command

/-! ## 1. Faults -/

/-- Why a file was not read or written. -/
inductive FileError where
  | notFound
  | isDirectory
  | notDirectory
  | nameTooLong
  | noSpace
  /-- Nothing stands behind a device. -/
  | noDevice
  /-- The content is not text. -/
  | notText
  | other (text : String)
deriving DecidableEq, Repr

/-- The wording of a fault, as the system gives it. -/
def FileError.message : FileError → String
  | notFound => "No such file or directory (os error 2)"
  | isDirectory => "Is a directory (os error 21)"
  | notDirectory => "Not a directory (os error 20)"
  | nameTooLong => "File name too long (os error 36)"
  | noSpace => "No space left on device (os error 28)"
  | noDevice => "No such device or address (os error 6)"
  | notText => "stream did not contain valid UTF-8"
  | other text => text

/-! ## 2. Stores and places -/

/-- What may stand at a place instead of stored content. -/
inductive Device where
  /-- Has no content and takes all. -/
  | null
  /-- Takes no content. -/
  | full
  /-- A terminal, which a program without one cannot open. -/
  | terminal
  /-- The standard streams. -/
  | input
  | output
  | report
deriving DecidableEq, Repr

/-- What stands at a place. -/
inductive Entry where
  | file (content : ByteArray)
  | directory
  | device (d : Device)

/-- The names that lead to a file from the top. -/
abbrev Place := List String

structure FileStore where
  entries : List (Place × Entry) := []
  workingDirectory : Place := []

namespace FileStore

/-- What stands at a place.  The top is a directory. -/
def get? (store : FileStore) (place : Place) : Option Entry :=
  if place.isEmpty then some .directory else (store.entries.find? (·.1 = place)).map (·.2)

/-- Puts an entry at a place, in place of the one there. -/
def put (store : FileStore) (place : Place) (entry : Entry) : FileStore :=
  { store with entries := (place, entry) :: store.entries.filter (·.1 ≠ place) }

/-- The top stays a directory, whatever is put there. -/
theorem get?_top (store : FileStore) : store.get? [] = some .directory := rfl

theorem get?_put (store : FileStore) {place : Place} (entry : Entry) (h : place ≠ []) :
    (store.put place entry).get? place = some entry := by
  simp [get?, put, h]

theorem get?_put_of_ne (store : FileStore) {place other : Place} (entry : Entry)
    (h : other ≠ place) : (store.put place entry).get? other = store.get? other := by
  unfold get? put
  split
  · rfl
  · rw [List.find?_cons_of_neg (by simpa using h.symm), List.find?_filter]
    congr 2
    funext x
    by_cases hx : x.1 = other <;> simp [hx, h]

/-- The directories above a place, from the top, without the top. -/
def above (place : Place) : List Place := (List.range' 1 (place.length - 1)).map place.take

/-- Adds an entry with the directories above it. -/
def add (store : FileStore) (place : Place) (entry : Entry) : FileStore :=
  ((above place).foldl (fun s p => if (s.get? p).isSome then s else s.put p .directory) store).put
    place entry

/-! ## 3. Following a path -/

/-- The greatest length of a name in bytes. -/
def longestName : Nat := 255

/-- The greatest length of a path in bytes. -/
def longestPath : Nat := 4095

/-- Follows names from a place, which must be a directory for each of them. -/
def follow (store : FileStore) (here : Place) : List String → Except FileError Place
  | [] => .ok here
  | name :: rest =>
    match store.get? here with
    | none => .error .notFound
    | some .directory =>
      if name = "" ∨ name = "." then store.follow here rest
      else if name = ".." then store.follow here.dropLast rest
      else if longestName < name.utf8ByteSize then .error .nameTooLong
      else store.follow (here ++ [name]) rest
    | some _ => .error .notDirectory

/-- Where a path starts. -/
def start (store : FileStore) (path : String) : Place :=
  if path.startsWith "/" then [] else store.workingDirectory

/-- The faults of a path that show before it is followed. -/
def checkPath (path : String) : Except FileError Unit :=
  if path.isEmpty then .error .notFound
  else if longestPath < path.utf8ByteSize then .error .nameTooLong
  else .ok ()

/-- What stands at the end of a path. -/
def lookup (store : FileStore) (path : String) : Except FileError Entry := do
  checkPath path
  let place ← store.follow (store.start path) (path.splitOn "/")
  match store.get? place with
  | none => throw .notFound
  | some entry => return entry

/-- The place at the end of a path, for content.  Nothing need stand there, but no directory may,
and a path that ends in a slash does not name a place for content. -/
def target (store : FileStore) (path : String) : Except FileError Place := do
  checkPath path
  let names := path.splitOn "/"
  let shown := (names.reverse.dropWhile (· = "")).reverse
  let last := shown.getLastD "."
  let folder ← store.follow (store.start path) (shown.dropLast ++ ["."])
  if last = "." ∨ last = ".." ∨ shown.length < names.length then throw .isDirectory
  let place ← store.follow folder [last]
  match store.get? place with
  | some .directory => throw .isDirectory
  | _ => return place

end FileStore

end PackedTree.Command
