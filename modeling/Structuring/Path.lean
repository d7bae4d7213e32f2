/-!
# Paths

Paths as texts: components with slashes between them.

* `components` — the parts between the slashes.
* `directory`, `join`, `stem` — a path without its last component, with one more, and without the
  extension.
-/

namespace Structuring.Path

/-- The parts of a path. Slashes in a row count as one. -/
def components (path : String) : List String := (path.splitOn "/").filter (· ≠ "")

/-- The paths to which a path leads on its way, itself included. -/
def prefixes (path : String) : List String :=
  let cs := path.toList
  ((List.range (cs.length + 1)).filter fun n => n = cs.length ∨ cs[n]? = some '/').map fun n =>
    String.ofList (cs.take n)

/-- Whether a path starts from the root. -/
def isAbsolute (path : String) : Bool := path.startsWith "/"

/-- Whether a path ends with a slash. -/
def endsOpen (path : String) : Bool := path.endsWith "/"

/-- A path without its last component and without the slashes before it, as long as something else
is left. -/
def directory (path : String) : String :=
  let cs := path.toList.reverse
  let head := cs.dropWhile (· ≠ '/')
  let bare := head.dropWhile (· = '/')
  String.ofList (if bare.isEmpty then head.reverse else bare.reverse)

/-- A path with a component added. -/
def join (directory name : String) : String :=
  if directory.isEmpty ∨ endsOpen directory then directory ++ name
  else directory ++ "/" ++ name

/-- A path without the extension of its last component. Points at the start of a name start no
extension. -/
def stem (path : String) : String :=
  let cs := path.toList.reverse
  let name := cs.takeWhile (· ≠ '/')
  let above := cs.dropWhile (· ≠ '/')
  match name.dropWhile (· ≠ '.') with
  | [] => path
  | _ :: rest => if rest.all (· = '.') then path else String.ofList (rest ++ above).reverse

end Structuring.Path
