import VexLang.Shell.Path

/-!
# Files

The files of a working directory by the segments of their paths. A directory
exists as long as there is a file in it, and the working directory itself always
does. Of what is outside of it a store knows only that the directories above are
directories, and that the null device is empty.
-/

namespace VexLang

/-- Why a file cannot be read or written. -/
inductive FileError where
  | missing
  | notDirectory
  | isDirectory
  | nameTooLong
  /-- No name has the character of code zero in it. -/
  | noName
  /-- The bytes of the file are no text. -/
  | notText
  deriving DecidableEq, Repr

def FileError.message : FileError → String
  | missing => "No such file or directory (os error 2)"
  | notDirectory => "Not a directory (os error 20)"
  | isDirectory => "Is a directory (os error 21)"
  | nameTooLong => "File name too long (os error 36)"
  | noName => "file name contained an unexpected NUL byte"
  | notText => "stream did not contain valid UTF-8"

/-- A file whose bytes are no text has no content. -/
structure StoredFile where
  place : List String
  content : Option String
  deriving DecidableEq, Repr

structure FileStore where
  files : List StoredFile
  deriving DecidableEq, Repr

namespace FileStore

def file? (store : FileStore) (place : List String) : Option StoredFile :=
  store.files.find? fun f ↦ f.place == place

def isDirectory (store : FileStore) (place : List String) : Bool :=
  place.isEmpty || store.files.any fun f ↦ place.isPrefixOf f.place && place != f.place

/-- Where a path has led so far. -/
inductive Location where
  | inside (place : List String)
  /-- A directory above the working directory, or the root. -/
  | above
  /-- Behind a name in such a directory, which the store knows nothing about. -/
  | elsewhere
  deriving DecidableEq, Repr

def nameLimit : Nat := 255

/-- The number of bytes from which on a path is too long. -/
def pathLimit : Nat := 4096

def enter (name : String) (location : Location) : Except FileError Location :=
  if nameLimit < name.utf8ByteSize then .error .nameTooLong else .ok location

/-- Follows a segment. Only a directory can be left by one. -/
def step (store : FileStore) (location : Location) (segment : String) :
    Except FileError Location :=
  match location with
  | .inside place =>
    if store.isDirectory place then
      if Path.staysPut segment then .ok location
      else if segment = ".." then
        .ok (if place.isEmpty then .above else .inside place.dropLast)
      else enter segment (.inside (place ++ [segment]))
    else if (store.file? place).isSome then .error .notDirectory
    else .error .missing
  | .above =>
    if Path.staysPut segment || segment = ".." then .ok .above else enter segment .elsewhere
  | .elsewhere => .error .missing

/-- Why a path leads nowhere whatever files there are. -/
def pathFault? (path : String) : Option FileError :=
  if path.contains (Char.ofNat 0) then some .noName
  else if path.isEmpty then some .missing
  else if pathLimit ≤ path.utf8ByteSize then some .nameTooLong
  else none

/-- Follows segments of a path, from the root if the path begins with a slash. -/
def follow (store : FileStore) (path : String) (segments : List String) :
    Except FileError Location :=
  match pathFault? path with
  | some e => .error e
  | none => segments.foldlM store.step (if path.startsWith "/" then .above else .inside [])

/-- Where a path leads; there need not be a file. -/
def resolve (store : FileStore) (path : String) : Except FileError Location :=
  store.follow path (Path.segments path)

/-- Where a text that is written to a path goes. What stands before a final slash counts as
a directory, and need not be there, as long as it would be in a directory. -/
def resolveTarget (store : FileStore) (path : String) : Except FileError Location :=
  if path.endsWith "/" then
    match store.follow path (Path.beforeLast path ++ [""]) with
    | .ok _ => .error .isDirectory
    | .error e => .error e
  else store.resolve path

def readAt (store : FileStore) (place : List String) : Except FileError String :=
  if store.isDirectory place then .error .isDirectory
  else
    match store.file? place with
    | none => .error .missing
    | some ⟨_, none⟩ => .error .notText
    | some ⟨_, some text⟩ => .ok text

/-- The device that is empty and keeps nothing. -/
def nullDevice : String := "/dev/null"

/-- The text of the file that a path leads to. -/
def read (store : FileStore) (path : String) : Except FileError String :=
  if path = nullDevice then .ok ""
  else
    match store.resolve path with
    | .ok (.inside place) => store.readAt place
    | .ok .above => .error .isDirectory
    | .ok .elsewhere => .error .missing
    | .error e => .error e

/-- The store with a text at a place. -/
def put (store : FileStore) (place : List String) (text : String) : FileStore :=
  ⟨⟨place, some text⟩ :: store.files.filter fun f ↦ f.place != place⟩

/-- Writes a text to the file that a path leads to. The store does not show what is written
elsewhere. -/
def write (store : FileStore) (path text : String) : Except FileError FileStore :=
  if path = nullDevice then .ok store
  else
    match store.resolveTarget path with
    | .ok (.inside place) =>
      if store.isDirectory place then .error .isDirectory else .ok (store.put place text)
    | .ok .above => .error .isDirectory
    | .ok .elsewhere => .ok store
    | .error e => .error e

def ofFiles (files : List (String × Option String)) : FileStore :=
  ⟨files.map fun (path, content) ↦ ⟨Path.place path, content⟩⟩

/-- The files that are not in an earlier store with the same content. -/
def changedSince (store earlier : FileStore) : List StoredFile :=
  store.files.filter fun f ↦ !earlier.files.contains f

end FileStore

end VexLang
