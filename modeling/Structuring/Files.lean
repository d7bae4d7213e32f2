import Structuring.Failure
import Structuring.Path
import Structuring.Text.Decoding

/-!
# Files

Files and directories below a working directory, and how they are read and written. Files hold bytes;
texts are encoded on the way in and decoded on the way out.

* `Files.walk` — where a path leads, component by component.
* `Files.find` — what stands at a path.
* `Files.open?` — the text of a file, or why it cannot be read.
* `Files.write` — a text put into a file, or why it cannot be written.
* `Files.patch` — a text put over a part of a file that has been open for a while.
* `Files.toList` — the texts of the files.
-/

namespace Structuring

/-- A place as the components that lead there from the working directory. A place outside starts with
`..`, once for each directory up, or with a slash for the root. -/
abbrev Spot := List String

namespace Spot

def root : Spot := ["/"]

/-- Whether a component leads outside. -/
def leadsOut (c : String) : Bool := c = "/" || c = ".."

/-- Whether a place is outside the working directory. -/
def isOutside (p : Spot) : Bool := p.head?.any leadsOut

/-- The directory above a place. -/
def above (p : Spot) : Spot :=
  match p.getLast? with
  | none => [".."]
  | some c => if c = "/" then p else if c = ".." then p ++ [".."] else p.dropLast

/-- The place that components lead to, when all of them are directories. -/
def ofComponents (p : Spot) : List String → Spot
  | [] => p
  | c :: cs =>
    if c = "." then ofComponents p cs
    else if c = ".." then ofComponents (above p) cs
    else ofComponents (p ++ [c]) cs

/-- The place that a path names, whatever stands on the way. -/
def ofPath (path : String) : Spot :=
  ofComponents (if Path.isAbsolute path then root else []) (Path.components path)

/-- The path of a place. -/
def path (p : Spot) : String :=
  match p with
  | "/" :: cs => "/" ++ "/".intercalate cs
  | cs => "/".intercalate cs

/-- The directories that are always found below the root. -/
def common : List Spot :=
  ["bin", "boot", "dev", "etc", "home", "lib", "opt", "proc", "root", "run", "sbin", "srv", "sys",
    "tmp", "usr", "var"].map (root ++ [·])

/-- The device that is empty whatever is written to it. -/
def sink : Spot := root ++ ["dev", "null"]

end Spot

/-- What stands at a place. -/
inductive Place where
  | file (bytes : ByteArray)
  | directory

/-- Files and directories by their places. A directory that holds one of them is there as well. -/
structure Files where
  files : List (Spot × ByteArray)
  directories : List Spot

/-- Where a path leads: to a directory by dots or by nothing but slashes, or to a name in a directory,
`isOpen` if a slash follows the name. -/
inductive Goal where
  | directory
  | name (p : Spot) (isOpen : Bool)

namespace Files

def empty : Files := ⟨[], []⟩

/-- Files with the given texts, and directories, all by their paths. -/
def ofTexts (texts : List (String × String)) (directories : List String) : Files :=
  ⟨texts.map fun (path, text) => (Spot.ofPath path, Text.encoded text),
    directories.map Spot.ofPath⟩

/-- What stands at a place, if anything. -/
def at? (fs : Files) (p : Spot) : Option Place :=
  match fs.files.find? fun f => f.1 = p with
  | some f => some (.file f.2)
  | none =>
    if p = Spot.sink then some (.file (Text.encoded ""))
    else if p.all Spot.leadsOut ∨ Spot.common.contains p ∨ fs.directories.any p.isPrefixOf ∨
        fs.files.any (fun f => p.isPrefixOf f.1) then some .directory
    else none

/-- How many bytes the name of a file may have. -/
def nameLimit : Nat := 255

/-- How many bytes a path may have. -/
def pathLimit : Nat := 4095

/-- What stands under a name. -/
def lookup (fs : Files) (p : Spot) (name : String) : Except FileFault (Option Place) :=
  if nameLimit < name.utf8ByteSize then .error .nameTooLong else .ok (fs.at? (p ++ [name]))

/-- From a directory along components, each of which has to lead to a directory. -/
def walk (fs : Files) (p : Spot) : List String → Except FileFault Spot
  | [] => .ok p
  | c :: cs =>
    if c = "." then fs.walk p cs
    else if c = ".." then fs.walk p.above cs
    else match fs.lookup p c with
      | .error f => .error f
      | .ok none => .error .missing
      | .ok (some (.file _)) => .error .notDirectory
      | .ok (some .directory) => fs.walk (p ++ [c]) cs

/-- Where a path leads. All components but the last have to be directories. -/
def goal (fs : Files) (path : String) : Except FileFault Goal :=
  if path.isEmpty then .error .missing
  else if pathLimit < path.utf8ByteSize then .error .nameTooLong
  else
    let cs := Path.components path
    match fs.walk (if Path.isAbsolute path then Spot.root else []) cs.dropLast, cs.getLast? with
    | .error f, _ => .error f
    | .ok _, none => .ok .directory
    | .ok p, some c =>
      if c = "." ∨ c = ".." then .ok .directory else .ok (.name (p ++ [c]) (Path.endsOpen path))

/-- What stands at a goal. A slash leads on from a directory only. -/
def reach (fs : Files) : Goal → Except FileFault Place
  | .directory => .ok .directory
  | .name p isOpen =>
    match fs.lookup p.dropLast (p.getLast?.getD "") with
    | .error f => .error f
    | .ok none => .error .missing
    | .ok (some .directory) => .ok .directory
    | .ok (some (.file bytes)) => if isOpen then .error .notDirectory else .ok (.file bytes)

/-- What stands at a path. -/
def find (fs : Files) (path : String) : Except FileFault Place := (fs.goal path).bind fs.reach

/-- Whether something stands at a path. -/
def occupied (fs : Files) (path : String) : Bool :=
  match fs.find path with
  | .ok _ => true
  | .error _ => false

/-- Names given to the system hold no null character. -/
def checkName (name : String) : Except Failure Unit :=
  if name.contains '\x00' then .error .nullCharacter else .ok ()

/-- The text of a file, as it stands there. -/
def open? (fs : Files) (path : String) : Except Failure String := do
  checkName path
  match fs.find path with
  | .ok (.file bytes) => return Text.decoded bytes
  | .ok .directory => throw (.file .isDirectory path)
  | .error f => throw (.file f path)

/-- Puts bytes at a place. Nothing stays at the device that is always empty. -/
def put (fs : Files) (p : Spot) (bytes : ByteArray) : Files :=
  if p = Spot.sink then fs
  else if fs.files.any (·.1 = p) then
    { fs with files := fs.files.map fun f => if f.1 = p then (p, bytes) else f }
  else { fs with files := fs.files ++ [(p, bytes)] }

/-- The place of a file that is to be written, which need not be there. -/
def writable (fs : Files) (path : String) : Except FileFault Spot :=
  match fs.goal path with
  | .error f => .error f
  | .ok .directory => .error .isDirectory
  | .ok (.name _ true) => .error .isDirectory
  | .ok (.name p false) => match fs.reach (.name p false) with
    | .ok (.file _) => .ok p
    | .ok .directory => .error .isDirectory
    | .error .missing => .ok p
    | .error f => .error f

/-- A text put into a file, which is made if it is missing. -/
def write (fs : Files) (path text : String) : Except Failure Files := do
  checkName path
  match fs.writable path with
  | .ok p => return fs.put p (Text.encoded text)
  | .error f => throw (.file f path)

/-- Bytes put over old ones from some place on. Zeros fill the gap after too few old ones. -/
def overlaid (old : ByteArray) (place : Nat) (new : ByteArray) : ByteArray :=
  let gap := ByteArray.mk (Array.replicate (place - old.size) 0)
  old.extract 0 place ++ gap ++ new ++ old.extract (place + new.size) old.size

/-- A text put into a file from some byte on. Nothing happens if the file has been removed since it
was opened. -/
def patch (fs : Files) (path : String) (place : Nat) (text : String) : Files :=
  match fs.writable path with
  | .error _ => fs
  | .ok p => match fs.at? p with
    | some (.file old) => fs.put p (overlaid old place (Text.encoded text))
    | _ => fs

def remove (fs : Files) (path : String) : Files :=
  match fs.writable path with
  | .error _ => fs
  | .ok p => { fs with files := fs.files.filter fun f => f.1 ≠ p }

/-- The texts of the files of the working directory by their paths, in the order of the paths. -/
def toList (fs : Files) : List (String × String) :=
  ((fs.files.filter fun f => !Spot.isOutside f.1).map fun f =>
    (Spot.path f.1, Text.decoded f.2)).mergeSort fun a b => a.1 ≤ b.1

end Files

end Structuring
