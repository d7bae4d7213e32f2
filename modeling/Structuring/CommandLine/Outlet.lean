import Structuring.Files

/-!
# Outlets

Where the command writes to, and on what way a text gets there. A text for a file is gathered first,
then held with others, and lands when there is too much of it or the outlet is closed. The detour
shows when a file is open twice: the later of two landings covers the earlier one.

* `Target` — the standard output or a file.
* `Storage` — the files, and the standard output.
* `Outlet.push` — writes a text.
* `Outlet.close` — lands what is still on its way.
-/

namespace Structuring.CommandLine

/-- Where something is written to. -/
inductive Target where
  | stdout
  | file (name : String)

/-- The files, and what was written to the standard output. -/
structure Storage where
  files : Files
  printed : String

/-- Something open for writing, with what has not landed yet: `held` comes before `gathered`. The next
byte lands at `place`. -/
structure Outlet where
  target : Target
  place : Nat
  held : String
  gathered : String

namespace Outlet

/-- How many bytes are gathered at most before they are held. -/
def gatherLimit : Nat := 8192

/-- How many bytes are held at most. -/
def holdLimit : Nat := 4096

/-- An outlet that nothing was written to. -/
def start (t : Target) : Outlet := ⟨t, 0, "", ""⟩

/-- Puts a text into the file. -/
def land (name text : String) : Outlet × Storage → Outlet × Storage
  | (o, st) =>
    if text.isEmpty then (o, st)
    else ({ o with place := o.place + text.utf8ByteSize },
      { st with files := st.files.patch name o.place text })

/-- Holds a text. What was held lands if there is no room for both; a text without room lands at
once. -/
def hold (name text : String) : Outlet × Storage → Outlet × Storage
  | (o, st) =>
    if o.held.utf8ByteSize + text.utf8ByteSize ≤ holdLimit then
      ({ o with held := o.held ++ text }, st)
    else
      let (o, st) := land name o.held ({ o with held := "" }, st)
      if text.utf8ByteSize ≤ holdLimit then ({ o with held := text }, st)
      else land name text (o, st)

/-- Holds what was gathered. -/
def drain (name : String) : Outlet × Storage → Outlet × Storage
  | (o, st) => hold name o.gathered ({ o with gathered := "" }, st)

/-- Gathers a text. What was gathered is held first if both together are too much, and afterwards if
there is no room left. -/
def gather (name text : String) : Outlet × Storage → Outlet × Storage
  | (o, st) =>
    let (o, st) :=
      if gatherLimit < o.gathered.utf8ByteSize + text.utf8ByteSize then drain name (o, st)
      else (o, st)
    let o := { o with gathered := o.gathered ++ text }
    if gatherLimit ≤ o.gathered.utf8ByteSize then drain name (o, st) else (o, st)

/-- Writes a text. On the standard output it stands at once. -/
def push (text : String) : Outlet × Storage → Outlet × Storage
  | (o, st) => match o.target with
    | .stdout => (o, { st with printed := st.printed ++ text })
    | .file name => gather name text (o, st)

/-- Lands what is still on its way. -/
def close : Outlet × Storage → Storage
  | (o, st) => match o.target with
    | .stdout => st
    | .file name =>
      let (o, st) := drain name (o, st)
      (land name o.held (o, st)).2

end Outlet

end Structuring.CommandLine
