import Structuring.CommandLine.Outlet
import Structuring.Log
import Structuring.Text.Digit

/-!
# Arguments of the command line

* `Opt` — the options and their spellings.
* `Item.ofWords` — words told apart: options, operands, and what is neither.
* `UsageError` — what can be wrong with the arguments.
* `parse` — the settings that the arguments ask for. Files are opened on the way.

A long option may be shortened as long as it is not ambiguous, and its value may be joined with an
equals sign. Short options may stand together in one word, with the value of the last one. An option
whose value is two hyphens in the same word is given as nothing.
-/

namespace Structuring.CommandLine

inductive Opt where
  | help | log | report | verbose | version | method | output | indent | quiet | steps | img
  deriving DecidableEq

namespace Opt

def all : List Opt :=
  [.help, .log, .report, .verbose, .version, .method, .output, .indent, .quiet, .steps, .img]

def spellings : Opt → List String
  | .help => ["-h", "--help"]
  | .log => ["--log"]
  | .report => ["--report"]
  | .verbose => ["--verbose", "-v"]
  | .version => ["--version", "-V"]
  | .method => ["--method", "-m"]
  | .output => ["--output", "-o"]
  | .indent => ["--indent"]
  | .quiet => ["--quiet", "-q"]
  | .steps => ["--steps"]
  | .img => ["--img"]

def takesValue : Opt → Bool
  | .log => true
  | .report => true
  | .method => true
  | .output => true
  | _ => false

/-- The option as it stands in a message. -/
def shown (o : Opt) : String := "/".intercalate o.spellings

/-- All spellings, each with its option. -/
def table : List (String × Opt) := all.flatMap fun o => o.spellings.map (·, o)

def ofSpelling? (s : String) : Option Opt := (table.find? fun e => e.1 = s).map (·.2)

/-- The long spellings that start in a given way. -/
def extending (start : String) : List (String × Opt) := table.filter fun e => e.1.startsWith start

end Opt

/-- What is wrong with an argument. -/
inductive Complaint where
  | noValue
  | ignoredValue (text : String)
  | givenTwice
  | invalidLevel (text : String)
  | invalidMethod (text : String)
  | cannotOpen (name reason : String)
  | invalidFile (mode name : String)

def Complaint.message : Complaint → String
  | .noValue => "expected one argument"
  | .ignoredValue text => s!"ignored explicit argument {Text.literal text}"
  | .givenTwice => "Cannot give multiple"
  | .invalidLevel text => s!"invalid log_level value: {Text.literal text}"
  | .invalidMethod text =>
    s!"invalid choice: {Text.literal text} (choose from " ++
      ", ".intercalate (Method.knownNames.map fun (name : String) => Text.literal name) ++ ")"
  | .cannotOpen name reason => s!"can't open '{name}': {reason}"
  | .invalidFile mode name => s!"invalid FileType('{mode}') value: {Text.literal name}"

/-- The complaint about a file that is not opened. -/
def Complaint.ofFailure (mode name : String) : Failure → Complaint
  | .nullCharacter => .invalidFile mode name
  | f => .cannotOpen name (f.message fun _ => "")

inductive UsageError where
  | ambiguous (word : String) (candidates : List String)
  | option (o : Opt) (c : Complaint)
  | operand (c : Complaint)
  | unrecognized (words : List String)

def UsageError.message : UsageError → String
  | .ambiguous word candidates =>
    s!"ambiguous option: {word} could match " ++ ", ".intercalate candidates
  | .option o c => s!"argument {o.shown}: {c.message}"
  | .operand c => s!"argument input: {c.message}"
  | .unrecognized words => "unrecognized arguments: " ++ " ".intercalate words

/-- A word of the command line. `raw` is the word as it was given, and `attached` what stands in it
with the option: after an equals sign, or right after a short option. -/
inductive Item where
  | dashes
  | operand (raw : String)
  | option (raw : String) (o : Opt) (isShort : Bool) (attached : Option (List Char))
  | unknown (raw : String)

namespace Item

def raw : Item → String
  | .dashes => "--"
  | .operand raw => raw
  | .option raw _ _ _ => raw
  | .unknown raw => raw

def isOption : Item → Bool
  | .option .. => true
  | .unknown _ => true
  | _ => false

/-- Whether a word is a negative number. A newline may follow it. -/
def isNegative (word : List Char) : Bool :=
  match if word.getLast? = some '\n' then word.dropLast else word with
  | '-' :: rest =>
    let tail := rest.dropWhile Text.isDecimal
    (tail.isEmpty && !rest.isEmpty) ||
      match tail with
      | '.' :: fraction => !fraction.isEmpty && fraction.all Text.isDecimal
      | _ => false
  | _ => false

/-- The part before the first equals sign, and the part after it. -/
def splitEquals (cs : List Char) : List Char × Option (List Char) :=
  let head := cs.takeWhile (· ≠ '=')
  match cs.dropWhile (· ≠ '=') with
  | [] => (head, none)
  | _ :: tail => (head, some tail)

/-- A word that starts with a hyphen and is no option: a negative number and a word with a space
are operands. -/
def strange (word : String) : Item :=
  if isNegative word.toList ∨ word.contains ' ' then .operand word else .unknown word

/-- A word that starts with two hyphens, with its value split off: what is before it may be the start
of an option. -/
def long (word : String) (start : List Char) (value : Option (List Char)) :
    Except UsageError Item :=
  match Opt.extending (String.ofList start) with
  | [] => .ok (strange word)
  | [(_, o)] => .ok (.option word o false value)
  | candidates => .error (.ambiguous word (candidates.map (·.1)))

/-- A word that starts with one hyphen: its first letter may be an option. -/
def short (word : String) (start : List Char) (rest : List Char) : Item :=
  match Opt.ofSpelling? (String.ofList start) with
  | some o => .option word o true (some rest)
  | none => strange word

/-- What a word before `--` is. -/
def ofWord (word : String) : Except UsageError Item :=
  let cs := word.toList
  match cs with
  | '-' :: c :: rest =>
    let isShort := c ≠ '-'
    match Opt.ofSpelling? word with
    | some o => .ok (.option word o isShort none)
    | none =>
      let (start, value) := splitEquals cs
      match value.bind fun v => (Opt.ofSpelling? (String.ofList start)).map (·, v) with
      | some (o, v) => .ok (.option word o isShort (some v))
      | none => if isShort then .ok (short word ['-', c] rest) else long word start value
  | _ => .ok (.operand word)

/-- What the words are. After `--` all are operands. -/
def ofWords : List String → Except UsageError (List Item)
  | [] => .ok []
  | word :: words =>
    if word = "--" then .ok (.dashes :: words.map .operand)
    else do
      let item ← ofWord word
      return item :: (← ofWords words)

end Item

/-- How a word with options ends: with an option that has no text attached, or with an option and its
value. -/
inductive Ending where
  | bare (o : Opt)
  | valued (o : Opt) (text : String)

/-- What is wrong with an option that takes no value and has a text attached that is no option. -/
def ignored (o : Opt) (text : List Char) : UsageError :=
  .option o (.ignoredValue (String.ofList text))

/-- The options that stand together in one word after a short one: those before the end, and the
end. The first letter of the text is an option, unless the text is a value. -/
def together (o : Opt) (text : List Char) : Except UsageError (List Opt × Ending) :=
  if o.takesValue then .ok ([], .valued o (String.ofList text))
  else match text with
    | [] => .error (ignored o text)
    | c :: cs => match Opt.ofSpelling? (String.ofList ['-', c]) with
      | none => .error (ignored o text)
      | some next =>
        if cs.isEmpty then .ok ([o], .bare next)
        else match together next cs with
          | .error e => .error e
          | .ok (os, ending) => .ok (o :: os, ending)

/-- The options of one word. -/
def optionsOf (o : Opt) (isShort : Bool) :
    Option (List Char) → Except UsageError (List Opt × Ending)
  | none => .ok ([], .bare o)
  | some text =>
    if isShort then together o text
    else if o.takesValue then .ok ([], .valued o (String.ofList text))
    else .error (ignored o text)

/-- Where the description is read from. -/
inductive Input where
  | stdin
  | file (name : String)

/-- What the arguments ask for. `rank` is the least rank of what is said on the console. An option
that was given as nothing has no value. -/
structure Settings where
  rank : Option Nat
  report : Option (Option Target)
  verbose : Bool
  method : Option String
  output : Option Target
  indent : Bool
  quiet : Bool
  steps : Bool
  img : Bool
  input : Input

/-- The settings without any argument. -/
def Settings.initial : Settings where
  rank := some Level.info.rank
  report := none
  verbose := false
  method := some Method.hammock.name
  output := some .stdout
  indent := false
  quiet := false
  steps := false
  img := false
  input := .stdin

/-- Why the arguments lead to no run. -/
inductive Stop where
  | usage (e : UsageError)
  | version
  | help

/-- Settings under construction, and the files, some of which are opened. -/
structure Draft where
  settings : Settings
  files : Files

abbrev Parse (α : Type) := ExceptT Stop (StateM Draft) α

namespace Parse

def complain {α : Type} (o : Opt) (c : Complaint) : Parse α := throw (.usage (.option o c))

def adjust (f : Settings → Settings) : Parse Unit :=
  modify fun d => { d with settings := f d.settings }

/-- Opens a file that is written to, which empties it. A hyphen stands for the standard output. -/
def target (o : Opt) (name : String) : Parse Target := do
  if name = "-" then return .stdout
  let d ← get
  match d.files.write name "" with
  | .error f => complain o (.ofFailure "w" name f)
  | .ok files => do
    set { d with files := files }
    return .file name

/-- The value of an option that the text stands for. -/
def valueOf (text : String) : Option String := if text = "--" then none else some text

/-- The rank that is named. -/
def rank (o : Opt) (name : String) : Parse Nat :=
  match Level.rankOf name with
  | .ok r => return r
  | .error _ => complain o (.invalidLevel name)

/-- The method that is named. -/
def method (o : Opt) (name : String) : Parse String :=
  if Method.knownNames.contains name then return name else complain o (.invalidMethod name)

/-- Does what an option asks for. -/
def obey (o : Opt) (text : String) : Parse Unit := do
  match o with
  | .help => throw .help
  | .version => throw .version
  | .log => do
    let r ← (valueOf text).mapM (rank o)
    adjust fun s => { s with rank := r }
  | .report => do
    let t ← (valueOf text).mapM (target o)
    if (← get).settings.report.isSome then complain o .givenTwice
    adjust fun s => { s with report := some t }
  | .verbose => adjust fun s => { s with verbose := true }
  | .method => do
    let m ← (valueOf text).mapM (method o)
    adjust fun s => { s with method := m }
  | .output => do
    let t ← (valueOf text).mapM (target o)
    adjust fun s => { s with output := t }
  | .indent => adjust fun s => { s with indent := true }
  | .quiet => adjust fun s => { s with quiet := true }
  | .steps => adjust fun s => { s with steps := true }
  | .img => adjust fun s => { s with img := true }

def obeyAll : List Opt → Parse Unit
  | [] => return
  | o :: os => do
    obey o ""
    obeyAll os

/-- Opens the file that the description is read from. A hyphen stands for the standard input. -/
def operand (name : String) : Parse Unit := do
  if name = "-" then adjust fun s => { s with input := .stdin }
  else match (← get).files.open? name with
    | .error f => throw (.usage (.operand (.ofFailure "r" name f)))
    | .ok _ => adjust fun s => { s with input := .file name }

/-- The operand among the first items, if there is one, and the items that are left. -/
def takeOperand : List Item → Option String × List Item
  | .dashes :: .operand name :: rest => (some name, rest)
  | .dashes :: rest => (none, rest)
  | .operand name :: .dashes :: rest => (some name, rest)
  | .operand name :: rest => (some name, rest)
  | rest => (none, rest)

/-- The items after the last option. Gives back the words that are too many. -/
def finish (given : Bool) (items : List Item) : Parse (List String) := do
  if given then return items.map (·.raw)
  let (name, rest) := takeOperand items
  if let some name := name then operand name
  return rest.map (·.raw)

def ofExcept {α : Type} : Except UsageError α → Parse α
  | .ok a => return a
  | .error e => throw (.usage e)

/-- Does what the items ask for. `given` tells whether the operand has been met. Gives back the words
that are not understood. -/
def items (given : Bool) (is : List Item) : Parse (List String) := do
  if !is.any Item.isOption then finish given is
  else match is with
    | [] => return []
    | .dashes :: rest => items given rest
    | .unknown raw :: rest => return raw :: (← items given rest)
    | .operand raw :: rest =>
      if given then return raw :: (← items given rest)
      operand raw
      items true rest
    | .option _ o isShort attached :: rest => do
      let (os, ending) ← ofExcept (optionsOf o isShort attached)
      match ending, rest with
      | .valued o value, rest => do
        obeyAll os
        obey o value
        items given rest
      | .bare o, .operand value :: rest' =>
        obeyAll os
        if o.takesValue then
          obey o value
          items given rest'
        else
          obey o ""
          items given (.operand value :: rest')
      | .bare o, rest => do
        if o.takesValue then complain o .noValue
        obeyAll os
        obey o ""
        items given rest
termination_by is.length

end Parse

/-- The settings that the arguments ask for. -/
def parse (words : List String) : Parse Settings := do
  let is ← Parse.ofExcept (Item.ofWords words)
  let extras ← Parse.items false is
  if !extras.isEmpty then throw (.usage (.unrecognized extras))
  return (← get).settings

end Structuring.CommandLine
