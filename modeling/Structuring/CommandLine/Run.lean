import Structuring.CommandLine.Arguments
import Structuring.CommandLine.StepFiles

/-!
# The command

The primitives of a description are located and written out, with a report and step files if they are
asked for.

* `Surroundings` — what the command finds.
* `Outcome` — what it leaves behind.
* `run` — the command.
-/

namespace Structuring.CommandLine

/-- What the command finds: files, the standard input, the command that draws images, the time, the
platform, and how deep subgraphs may be nested. -/
structure Surroundings where
  files : Files
  stdin : String
  drawing : String
  time : String
  platform : String
  limit : Nat

/-- What the command leaves behind. It ends with a status, or with a failure that it does not
expect. -/
structure Outcome where
  ending : Except Failure Nat
  files : Files
  stdout : String
  stderr : String

/-- The options in short. -/
def help : String :=
  "usage: restructure [options] [input]\n\noptions:\n" ++
    String.join (Opt.all.map fun o =>
      s!"  {o.shown}" ++ (if o.takesValue then " VALUE" else "") ++ "\n")

/-- The end of a command whose arguments lead to no run. -/
def stopped (w : Surroundings) (files : Files) : Stop → Outcome
  | .usage e => ⟨.ok 2, files, "", s!"restructure: error: {e.message}\n"⟩
  | .version => ⟨.ok 0, files, versionText w.platform ++ "\n", ""⟩
  | .help => ⟨.ok 0, files, help, ""⟩

namespace Settings

/-- The least rank of what is said on the console, where the arguments name the rank `named`. -/
def consoleRank (s : Settings) (named : Nat) : Nat :=
  if s.verbose then Level.debug.rank
  else if s.quiet then Level.warning.rank
  else named

/-- The report at its start. There is none if it is to be written nowhere. -/
def startReport (s : Settings) : Option Outlet := s.report.join.map .start

def reporter (s : Settings) : Reporter :=
  match s.startReport with
  | none => .silent
  | some _ => .writing ""

/-- The name of the description. -/
def inputName (s : Settings) : String :=
  match s.input with
  | .stdin => "<stdin>"
  | .file name => name

/-- The description, which is opened already. -/
def source (s : Settings) (w : Surroundings) (files : Files) : Except Failure Source :=
  match s.input with
  | .stdin => .ok (.opened (some s.inputName) (Text.unifyNewlines w.stdin))
  | .file name => do
    let text ← files.open? name
    return .opened (some name) (Text.unifyNewlines text)

def stepFiles (s : Settings) (w : Surroundings) : Steps :=
  ⟨stepPrefix (some s.inputName), if s.img then some w.drawing else none⟩

end Settings

/-- A run under way: the desk, and the report if there is one. -/
structure Work where
  desk : Desk
  report : Option Outlet

namespace Work

/-- Writes a part of the report. -/
def note (k : Work) (i : Report.Item) : Work :=
  match k.report with
  | none => k
  | some o =>
    let (o, st) := i.pieces.foldl (fun x text => Outlet.push text x) (o, k.desk.toStorage)
    ⟨{ k.desk with toStorage := st }, some o⟩

/-- What an event leads to: it is said or reported, or its graph is written if step files are asked
for. -/
def meet (s : Settings) (w : Surroundings) (k : Work) : Event → Work
  | .notice n => { k with desk := k.desk.say n }
  | .report i => k.note i
  | e => if s.steps then { k with desk := (s.stepFiles w).follow k.desk e } else k

/-- Goes on with a computation, and meets what it tells. -/
def follow {α : Type} (k : Work) (s : Settings) (w : Surroundings) (x : Told α) :
    Except Failure α × Work :=
  let (outcome, events) := x.outcome
  (outcome, events.foldl (meet s w) k)

/-- The derived sequence, if it is asked for. -/
def sequence (k : Work) (s : Settings) (w : Surroundings) (g : FlowGraph) :
    Except Failure Unit × Work :=
  if s.steps ∧ s.method = some Method.interval.name then
    match g.derivedSequence with
    | .error f => (.error f, k)
    | .ok gs => (.ok (), { k with desk := (s.stepFiles w).writeSequence gs k.desk })
  else (.ok (), k)

/-- The primitives of the description. -/
def recover (k : Work) (s : Settings) (w : Surroundings) :
    Except Failure (List (Primitive Value)) × Work :=
  match s.source w k.desk.files with
  | .error f => (.error f, k)
  | .ok source =>
    match k.follow s w (source.read w.limit k.desk.files) with
    | (.error f, k) => (.error f, k)
    | (.ok g, k) => match k.sequence s w g, s.method with
      | (.error f, k), _ => (.error f, k)
      | (.ok (), k), none => (.error .wrongType, k)
      | (.ok (), k), some method =>
        k.follow s w (recoverFrom w.limit k.desk.files (.graph g) method)

/-- What a failure leads to: an expected one is said and reported, and the output is removed. -/
def fail (k : Work) (s : Settings) (f : Failure) : Work :=
  let k := match f.problem? fun _ => "" with
    | none => k
    | some p =>
      let excerpt := if p.location.isSome then [.excerpt p.print] else []
      let desk := { k.desk with said := k.desk.said ++ .notice (.failed p.message) :: excerpt }
      note { k with desk := desk } (.problem p)
  match s.output with
  | some (.file name) => { k with desk := { k.desk with files := k.desk.files.remove name } }
  | _ => k

/-- The end of a run: the report is closed, and then the output. -/
def close (k : Work) (output : Option Outlet) : Desk :=
  let desk := k.desk.say .removing
  let outlets := k.report.toList ++ output.toList
  { desk with toStorage := outlets.foldl (fun st o => Outlet.close (o, st)) desk.toStorage }

/-- Writes the document of the primitives and ends the run. -/
def deliver (k : Work) (document : String) (t : Target) : Desk :=
  let (o, st) := Outlet.push document (.start t, k.desk.toStorage)
  close { k with desk := { k.desk with toStorage := st } } (some o)

end Work

/-- How a run ends, and what it leaves on the desk. -/
def Work.finish (k : Work) (s : Settings) :
    Except Failure (List (Primitive Value)) → Except Failure Nat × Desk
  | .ok ps => match s.output with
    | some t => match (Record.ofPrimitives ps).write s.indent with
      | .ok document => (.ok 0, k.deliver document t)
      | .error f => (.error f, (k.fail s f).close none)
    | none => (.error .noAttribute, (k.fail s .noAttribute).close none)
  | .error f =>
    (if (f.problem? fun _ => "").isSome then .ok 1 else .error f, (k.fail s f).close none)

/-- The command with its settings. Without a rank nothing can be said. -/
def runWith (w : Surroundings) (s : Settings) (files : Files) : Outcome :=
  match s.rank with
  | none => ⟨.error .wrongType, files, "", ""⟩
  | some rank =>
    let desk : Desk := ⟨⟨files, ""⟩, [], 1⟩
    let desk := desk.sayAll [.reporting s.reporter.shown, .attached, .version w.platform]
    let k := Work.note ⟨desk, s.startReport⟩ .header
    let (found, k) := k.recover s w
    let (ending, desk) := k.finish s found
    ⟨ending, desk.files, desk.printed, transcript w.time (s.consoleRank rank) desk.said⟩

/-- The command. -/
def run (w : Surroundings) (args : List String) : Outcome :=
  match (parse args).run ⟨.initial, w.files⟩ with
  | (.error stop, d) => stopped w d.files stop
  | (.ok s, d) => runWith w s d.files

end Structuring.CommandLine
