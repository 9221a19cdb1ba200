import DeviceTwin.Entries
import DeviceTwin.Failure
import DeviceTwin.Text.Slash

/-!
The files that a run reads and writes, by their paths from the working directory.

A path is followed name by name, and each name is looked for in a directory that exists. Empty
names and `.` stay where they are, `..` goes up, and a slash at the end asks for a directory.
-/
namespace DeviceTwin

/-- Names from the working directory on. Directories above it are reached by `..`, and the root of
all paths by the name `/`. -/
abbrev Place := List String

/-- A path, taken apart. -/
structure Path where
  start : Place
  /-- Names between slashes, the empty ones apart. -/
  names : List String
  /-- Whether a slash follows the last name. -/
  slashed : Bool
  deriving DecidableEq, Repr

def Path.ofText (text : String) : Path where
  start := if text.toList.head? = some '/' then ["/"] else []
  names := ((splitSlash text.toList).filter (!·.isEmpty)).map String.ofList
  slashed := text.toList.getLast? = some '/'

structure Workspace where
  files : List (Place × ByteArray) := []

namespace Workspace

/-- What stands in the way of reading or writing a file. -/
inductive Obstacle where
  | missing
  | notDirectory
  | isDirectory
  | nameTooLong
  deriving DecidableEq, Repr

def Obstacle.reason : Obstacle → String
  | missing => "No such file or directory (os error 2)"
  | notDirectory => "Not a directory (os error 20)"
  | isDirectory => "Is a directory (os error 21)"
  | nameTooLong => "File name too long (os error 36)"

/-- Longest name of a file, in bytes. -/
def nameMax : Nat := 255

/-- Longest text of a path, in bytes. -/
def pathMax : Nat := 4095

inductive Node where
  | file (contents : ByteArray)
  | directory
  | absent

/-- Directories that every system has. -/
def standardDirectories : List Place := [["/"], ["/", "dev"], ["/", "tmp"]]

/-- A device that every system has. It can be written to, and reads as empty all the same. -/
def nullDevice : Place := ["/", "dev", "null"]

/-- Other directories exist as far as files are in them. -/
def isDirectory (w : Workspace) (place : Place) : Bool :=
  standardDirectories.contains place || place.all (· = "..") ||
    w.files.any fun (path, _) => place.isPrefixOf path && path != place

def look (w : Workspace) (place : Place) : Node :=
  if place = nullDevice then .file .empty
  else
    match w.files.lookup place with
    | some contents => .file contents
    | none => if w.isDirectory place then .directory else .absent

/-- The directory above; the root is its own. -/
def parent (place : Place) : Place :=
  if place = ["/"] then place
  else if place.all (· = "..") then place ++ [".."]
  else place.dropLast

/-- Only a directory can be gone through. -/
def enter (w : Workspace) (place : Place) : Except Obstacle Unit :=
  match w.look place with
  | .directory => .ok ()
  | .file _ => .error .notDirectory
  | .absent => .error .missing

/-- Where a name in a directory leads. -/
def child (place : Place) (name : String) : Except Obstacle Place :=
  if name.utf8ByteSize ≤ nameMax then .ok (place ++ [name]) else .error .nameTooLong

/-- Follows one name. -/
def step (w : Workspace) (place : Place) (name : String) : Except Obstacle Place := do
  w.enter place
  match name with
  | "." => return place
  | ".." => return parent place
  | name => child place name

/-- Follows names in order. -/
def walk (w : Workspace) (place : Place) (names : List String) : Except Obstacle Place :=
  names.foldlM w.step place

/-- Takes a path apart, unless it is empty or too long. -/
def parsePath (text : String) : Except Obstacle Path :=
  if text.isEmpty then .error .missing
  else if text.utf8ByteSize ≤ pathMax then .ok (.ofText text)
  else .error .nameTooLong

def read (w : Workspace) (text : String) : Except Obstacle ByteArray := do
  let path ← parsePath text
  let place ← w.walk path.start path.names
  if path.slashed then w.enter place
  match w.look place with
  | .file contents => return contents
  | .directory => .error .isDirectory
  | .absent => .error .missing

/-- The place of a file to be written, whose directory must exist. A path that ends in a slash
names no file, whether there is a directory or not. -/
def target (w : Workspace) (text : String) : Except Obstacle Place := do
  let path ← parsePath text
  let directory ← w.walk path.start path.names.dropLast
  w.enter directory
  match path.names.getLast? with
  | none | some "." | some ".." => .error .isDirectory
  | some name =>
    if path.slashed then .error .isDirectory
    else
      let place ← child directory name
      match w.look place with
      | .directory => .error .isDirectory
      | _ => return place

/-- The files once there are new contents at a place. The null device keeps nothing. -/
def save (w : Workspace) (place : Place) (contents : ByteArray) : Workspace :=
  if place = nullDevice then w else { files := Entries.put place contents w.files }

def write (w : Workspace) (text : String) (contents : ByteArray) : Except Obstacle Workspace := do
  let place ← w.target text
  return w.save place contents

end Workspace
end DeviceTwin
