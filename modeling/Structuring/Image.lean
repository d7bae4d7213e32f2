import Structuring.Files

/-!
# Images

* `render` — runs the command that draws a graph description as an image beside it.
-/

namespace Structuring.Image

/-- Whether a command that does nothing succeeds. These are the commands that can be run; all others
are taken to be files that are not for running, or to be missing. -/
def idle? (command : String) : Option Bool :=
  if ["true", "/bin/true", "/usr/bin/true"].contains command then some true
  else if ["false", "/bin/false", "/usr/bin/false"].contains command then some false
  else none

/-- Why a command cannot be run. A name with a slash is a path; another one is looked for among the
commands that are installed. -/
def refusal (fs : Files) (command : String) : FileFault :=
  if command.contains '/' then match fs.find command with
    | .ok _ => .denied
    | .error f => f
  else if command = "." ∨ command = ".." then .denied
  else if Files.nameLimit < command.utf8ByteSize then .nameTooLong
  else .missing

/-- The image that belongs to a graph description. -/
def path (dot format : String) : String := s!"{Path.stem dot}.{format}"

/-- Draws a graph description with a command, or the usual one if none is named, and gives the path
of the image. -/
def render (fs : Files) (command dot format : String) : Except Failure String := do
  let command := if command.isEmpty then "dot" else command
  let image := path dot format
  let call := [command, s!"-T{format}", "-o", image, dot]
  call.forM Files.checkName
  match idle? command with
  | some true => return image
  | some false => throw (.exitStatus call)
  | none => throw (.file (refusal fs command) command)

end Structuring.Image
