import Structuring.CommandLine.Run

/-!
# Entry point

The files that the arguments speak of are loaded, the command is run on them, and what it changed is
put back.
-/

namespace Structuring.CommandLine

/-- What the arguments may name: they themselves, and what is left when letters are dropped at their
start. -/
def mentioned (args : List String) : List String :=
  args.flatMap fun a => (List.range a.length).map fun n => String.ofList (a.toList.drop n)

/-- Loads what stands at a path, and the directories on the way. -/
def loadPath (fs : Files) (path : String) : IO Files := do
  let here ← IO.currentDir
  let fs ← (Path.prefixes path).foldlM (fun fs (above : String) => do
    let isThere ← (here / above).isDir
    let added := if isThere then [Spot.ofPath above] else []
    return { fs with directories := fs.directories ++ added }) fs
  try
    return fs.put (Spot.ofPath path) (← IO.FS.readBinFile (here / path))
  catch _ => return fs

/-- Puts back what was changed. -/
def store (before after : Files) : IO Unit := do
  for (p, bytes) in after.files do
    unless before.files.contains (p, bytes) do
      IO.FS.writeBinFile (Spot.path p) bytes
  for (p, _) in before.files do
    unless after.files.any (·.1 = p) do
      IO.FS.removeFile (Spot.path p)

/-- The rest of a stream. -/
partial def rest (input : IO.FS.Stream) (text : String) : IO String := do
  let line ← input.getLine
  if line.isEmpty then return text
  rest input (text ++ line)

/-- Whether the description comes from the standard input. -/
def asksForStdin (files : Files) (args : List String) : Bool :=
  match (parse args).run ⟨.initial, files⟩ with
  | (.ok s, _) => match s.input with
    | .stdin => true
    | .file _ => false
  | _ => false

/-- How deep subgraphs may be nested. -/
def nestingLimit : Nat := 320

end Structuring.CommandLine

open Structuring CommandLine in
def main (args : List String) : IO UInt32 := do
  let files ← (mentioned args).foldlM loadPath Files.empty
  let stdin ← if asksForStdin files args then rest (← IO.getStdin) "" else pure ""
  let drawing := (← IO.getEnv "RESTRUCTURE_DOT_EXE").getD ""
  let platform := (← IO.getEnv "OSTYPE").getD "an unknown platform"
  let o := run ⟨files, stdin, drawing, toString (← IO.monoMsNow), platform, nestingLimit⟩ args
  store files o.files
  IO.print o.stdout
  IO.eprint o.stderr
  match o.ending with
  | .ok status => return status.toUInt32
  | .error f => do
    IO.eprintln (f.message fun _ => "")
    return 1
