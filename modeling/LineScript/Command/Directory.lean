/-!
# Directories

Files and folders, and how a path leads to them. A path that begins with a slash
starts at the root, and every other path in the working directory. There are no
links: a file has one place, and the way up from a folder leads to the one that
it stands in.
-/

namespace LineScript.Command

/-- Why a file cannot be read or written. -/
inductive Refusal where
  | noEntry
  | isDirectory
  | notDirectory
  | notText
  deriving DecidableEq, Repr

namespace Refusal

def message : Refusal → String
  | .noEntry => "No such file or directory (os error 2)"
  | .isDirectory => "Is a directory (os error 21)"
  | .notDirectory => "Not a directory (os error 20)"
  | .notText => "stream did not contain valid UTF-8"

end Refusal

/-- The names on the way from the root to a place. -/
abbrev Place := List String

structure Directory where
  /-- Where paths start that do not start at the root. -/
  working : Place
  folders : List Place
  files : List (Place × ByteArray)

namespace Directory

/-- The working directory, the folders above it, and the listed ones. -/
def isFolder (d : Directory) (place : Place) : Bool :=
  place.isPrefixOf d.working || d.folders.contains place

def find? (d : Directory) (place : Place) : Option ByteArray :=
  d.files.lookup place

/-- The folder that holds this one. The root holds itself. -/
def up (place : Place) : Place :=
  place.dropLast

/-- Follows names from a place. Only a folder has further places in it. -/
def follow (d : Directory) (here : Place) : List String → Except Refusal Place
  | [] => .ok here
  | name :: rest =>
    if d.isFolder here then
      if name = "" || name = "." then d.follow here rest
      else if name = ".." then d.follow (up here) rest
      else d.follow (here ++ [name]) rest
    else if (d.find? here).isSome then .error .notDirectory
    else .error .noEntry

/-- The pieces of a text between slashes. -/
def names (path : List Char) : List (List Char) :=
  path.foldr
    (fun c pieces =>
      match c, pieces with
      | '/', pieces => [] :: pieces
      | c, piece :: pieces => (c :: piece) :: pieces
      | c, [] => [[c]])
    [[]]

/-- Where a path starts. -/
def origin (d : Directory) : (path : List Char) → Place
  | '/' :: _ => []
  | _ => d.working

/-- The place that a path leads to; nothing has to be there. The empty path leads
nowhere. -/
def locate (d : Directory) (path : String) : Except Refusal Place :=
  if path.isEmpty then .error .noEntry
  else d.follow (d.origin path.toList) ((names path.toList).map String.ofList)

def read (d : Directory) (path : String) : Except Refusal ByteArray := do
  let place ← d.locate path
  match d.find? place with
  | some bytes => return bytes
  | none => throw (if d.isFolder place then .isDirectory else .noEntry)

/-- The text of a file. -/
def readText (d : Directory) (path : String) : Except Refusal String := do
  match String.fromUTF8? (← d.read path) with
  | some text => return text
  | none => throw .notText

/-- Replaces or makes a file. -/
def write (d : Directory) (path : String) (bytes : ByteArray) : Except Refusal Directory := do
  let place ← d.locate path
  if d.isFolder place then throw .isDirectory
  else
    return { d with files := d.files.filter (fun file => file.1 ≠ place) ++ [(place, bytes)] }

end Directory

end LineScript.Command
