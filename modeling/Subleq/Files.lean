import Subleq.OrderedMap
import Subleq.Storage
import Subleq.Text.Utf8

/-!
# Files in memory

A file system that holds files and directories.  Paths start from one directory, the first one.
Above it there are more directories, of which nothing is known but that they are there.
-/

namespace Subleq

/-- Where names start from: so many levels above the first directory, or the root of all files. -/
inductive Anchor
  | above (levels : Nat)
  | root
deriving DecidableEq, Repr

/-- A place in a file system, by the names that lead to it. -/
structure Place where
  anchor : Anchor
  names : List String
deriving DecidableEq, Repr

namespace Place

def first : Place := ⟨.above 0, []⟩

/-- The directory that holds a place.  The root holds itself. -/
def parent (place : Place) : Place :=
  if place.names.isEmpty then
    match place.anchor with
    | .above levels => ⟨.above (levels + 1), []⟩
    | .root => place
  else { place with names := place.names.dropLast }

/-- The place that a name leads to from a directory. -/
def child (place : Place) (name : String) : Place :=
  if name = ".." then place.parent else { place with names := place.names ++ [name] }

/-- The places that names lead through, one after the other. -/
def along (place : Place) : List String → List Place
  | [] => []
  | name :: rest => place.child name :: (place.child name).along rest

/-- Where a path starts. -/
def startOf (path : Path) : Place := if path.absolute then ⟨.root, []⟩ else first

end Place

/-- Files with their contents, and the directories besides those that paths can start from. -/
structure Files where
  contents : OrderedMap Place (List Nat)
  directories : List Place
deriving DecidableEq, Repr

namespace Files

def empty : Files := ⟨[], []⟩

def isDirectory (files : Files) (place : Place) : Bool :=
  place.names.isEmpty || files.directories.contains place

def content? (files : Files) (place : Place) : Option (List Nat) :=
  OrderedMap.get? files.contents place

/-- Adds a file with the directories on the way to it. -/
def add (files : Files) (path : Path) (bytes : List Nat) : Files :=
  let way := (Place.startOf path).along path.parts
  { contents := OrderedMap.put (way.getLast?.getD .first) bytes files.contents
    directories := files.directories ++ way.dropLast }

def ofList (files : List (Path × List Nat)) : Files :=
  files.foldl (fun all (path, bytes) => all.add path bytes) empty

/-- The number of bytes that a text is stored in. -/
def byteCount (text : String) : Nat := (Text.Utf8.encode text.toList).length

/-- The most bytes that a name may have. -/
def nameLimit : Nat := 255

/-- The most bytes that a path may have. -/
def pathLimit : Nat := 4095

/-- Follows names from a place.  Every place on the way has to be a directory. -/
def follow (files : Files) (path : Path) : Place → List String → Except FileFault Place
  | place, [] => .ok place
  | place, name :: rest =>
      if files.isDirectory place then
        if nameLimit < byteCount name then .error (.nameTooLong path)
        else files.follow path (place.child name) rest
      else if (files.content? place).isSome then .error (.notDirectory path)
      else .error (.missing path)

def locate (files : Files) (path : Path) : Except FileFault Place :=
  if Path.isCutOff path.render then .error (.notName path)
  else if pathLimit < byteCount path.render then .error (.nameTooLong path)
  else files.follow path (.startOf path) path.parts

/-- What a text stands for, if it is read as a path. -/
def status (files : Files) (text : String) : FileStatus :=
  match files.locate (Path.ofText text) with
  | .error _ => .missing
  | .ok place =>
      if text = "" then .missing
      else if files.isDirectory place then .directory
      else if (files.content? place).isSome ∧ ¬ Path.asksForDirectory text then .file
      else .missing

def read (files : Files) (path : Path) : Except FileFault (List Nat) := do
  let place ← files.locate path
  if files.isDirectory place then .error (.isDirectory path)
  else match files.content? place with
    | some bytes => .ok bytes
    | none => .error (.missing path)

def write (files : Files) (path : Path) (text : String) : Except FileFault Files := do
  let place ← files.locate path
  if files.isDirectory place then .error (.isDirectory path)
  else
    .ok { files with
      contents := OrderedMap.put place (Text.Utf8.encode text.toList) files.contents }

/-- The files below the first directory that are new or have another content than before, in the
order of their paths. -/
def changes (before after : Files) : List (String × List Nat) :=
  OrderedMap.sortedByKey
    ((after.contents.filter fun (place, bytes) =>
        place.anchor = .above 0 ∧ before.content? place ≠ some bytes).map
      fun (place, bytes) => ("/".intercalate place.names, bytes))

/-- Files in memory as a storage. -/
def storage : Storage (StateM Files) where
  status text := do return (← get).status text
  read path := do return (← get).read path
  write path text := do
    match (← get).write path text with
    | .ok files => do
        set files
        return .ok ()
    | .error fault => return .error fault

end Files

end Subleq
