import Structuring.Value

/-!
# Control flow primitives

The constructs that are recovered from a control flow graph. What plays a role is a node while a
construct is sought, and a label once it is located.

* `Kind` — the nine kinds, in the order in which they are tried.
* `Primitive` — a construct with its roles.
* `Primitive.roles`, `entry`, `exit?` — the roles by name, and the two ends.
-/

namespace Structuring

inductive Kind where
  | preLoop | postLoop | ifElseReturn | ifReturn | ifThen | ifElse | fallthrough | sequence | nWay
  deriving DecidableEq, Inhabited

namespace Kind

/-- The kinds, more specific ones first. -/
def all : List Kind :=
  [.preLoop, .postLoop, .ifElseReturn, .ifReturn, .ifThen, .ifElse, .fallthrough, .sequence, .nWay]

theorem mem_all (k : Kind) : k ∈ all := by cases k <;> decide

def name : Kind → String
  | .preLoop => "pre_loop"
  | .postLoop => "post_loop"
  | .ifElseReturn => "if_else_return"
  | .ifReturn => "if_return"
  | .ifThen => "if"
  | .ifElse => "if_else"
  | .fallthrough => "fallthrough"
  | .sequence => "sequence"
  | .nWay => "n_way"

def ofName? (s : String) : Option Kind := all.find? fun k => k.name = s

/-- The kind as it stands in a message. -/
def shown (k : Kind) : String := s!"Pattern({k.name})"

/-- The names of the roles; those of the cases of a multiway branch are numbered. -/
def roleNames : Kind → List String
  | .preLoop => ["cond", "body", "exit"]
  | .postLoop => ["body", "cond", "exit"]
  | .ifElseReturn => ["cond", "then", "else"]
  | .ifReturn => ["cond", "body", "exit"]
  | .ifThen => ["cond", "body", "exit"]
  | .ifElse => ["cond", "then", "else", "exit"]
  | .fallthrough => ["cond", "exit"]
  | .sequence => ["first", "second"]
  | .nWay => ["head", "case_<i>", "exit"]

/-- The role through which control enters. -/
def entryRole : Kind → String
  | .preLoop => "cond"
  | .postLoop => "body"
  | .ifElseReturn => "cond"
  | .ifReturn => "cond"
  | .ifThen => "cond"
  | .ifElse => "cond"
  | .fallthrough => "cond"
  | .sequence => "first"
  | .nWay => "head"

/-- The role through which control leaves; none if the construct returns. -/
def exitRole? : Kind → Option String
  | .ifElseReturn => none
  | .sequence => some "second"
  | _ => some "exit"

end Kind

/-- A construct whose roles are played by `α`. In a loop with the test at its end the body may be
the test itself. -/
inductive Primitive (α : Type) where
  | preLoop (cond body exit : α)
  | postLoop (body cond exit : α)
  | ifElseReturn (cond yes no : α)
  | ifReturn (cond body exit : α)
  | ifThen (cond body exit : α)
  | ifElse (cond yes no exit : α)
  | fallthrough (cond exit : α)
  | sequence (first second : α)
  | nWay (head : α) (cases : List α) (exit : α)
  deriving DecidableEq

namespace Primitive

variable {α β : Type}

def kind : Primitive α → Kind
  | .preLoop .. => .preLoop
  | .postLoop .. => .postLoop
  | .ifElseReturn .. => .ifElseReturn
  | .ifReturn .. => .ifReturn
  | .ifThen .. => .ifThen
  | .ifElse .. => .ifElse
  | .fallthrough .. => .fallthrough
  | .sequence .. => .sequence
  | .nWay .. => .nWay

/-- Cases with their role names, numbered from `i`. -/
def caseRoles (i : Nat) : List α → List (String × α)
  | [] => []
  | a :: as => (s!"case_{i}", a) :: caseRoles (i + 1) as

/-- The roles by name, in order. -/
def roles : Primitive α → List (String × α)
  | .preLoop c b e => [("cond", c), ("body", b), ("exit", e)]
  | .postLoop b c e => [("body", b), ("cond", c), ("exit", e)]
  | .ifElseReturn c y n => [("cond", c), ("then", y), ("else", n)]
  | .ifReturn c b e => [("cond", c), ("body", b), ("exit", e)]
  | .ifThen c b e => [("cond", c), ("body", b), ("exit", e)]
  | .ifElse c y n e => [("cond", c), ("then", y), ("else", n), ("exit", e)]
  | .fallthrough c e => [("cond", c), ("exit", e)]
  | .sequence a b => [("first", a), ("second", b)]
  | .nWay h cs e => ("head", h) :: caseRoles 0 cs ++ [("exit", e)]

/-- What plays the roles, in order. -/
def players (p : Primitive α) : List α := p.roles.map (·.2)

/-- Where control enters. -/
def entry : Primitive α → α
  | .preLoop c _ _ => c
  | .postLoop b _ _ => b
  | .ifElseReturn c _ _ => c
  | .ifReturn c _ _ => c
  | .ifThen c _ _ => c
  | .ifElse c _ _ _ => c
  | .fallthrough c _ => c
  | .sequence a _ => a
  | .nWay h _ _ => h

/-- Where control leaves. -/
def exit? : Primitive α → Option α
  | .preLoop _ _ e => some e
  | .postLoop _ _ e => some e
  | .ifElseReturn _ _ _ => none
  | .ifReturn _ _ e => some e
  | .ifThen _ _ e => some e
  | .ifElse _ _ _ e => some e
  | .fallthrough _ e => some e
  | .sequence _ b => some b
  | .nWay _ _ e => some e

def map (f : α → β) : Primitive α → Primitive β
  | .preLoop c b e => .preLoop (f c) (f b) (f e)
  | .postLoop b c e => .postLoop (f b) (f c) (f e)
  | .ifElseReturn c y n => .ifElseReturn (f c) (f y) (f n)
  | .ifReturn c b e => .ifReturn (f c) (f b) (f e)
  | .ifThen c b e => .ifThen (f c) (f b) (f e)
  | .ifElse c y n e => .ifElse (f c) (f y) (f n) (f e)
  | .fallthrough c e => .fallthrough (f c) (f e)
  | .sequence a b => .sequence (f a) (f b)
  | .nWay h cs e => .nWay (f h) (cs.map f) (f e)

/-- A located primitive as it stands in a message. -/
def shown (p : Primitive Value) : String :=
  s!"{p.kind.name}(" ++ ", ".intercalate (p.roles.map fun (r, v) => s!"{r}={v.shown}") ++ ")"

/-- The player of a role. -/
def lookup (roles : List (String × α)) (role : String) : Except String α :=
  match roles.find? fun r => r.1 = role with
  | some r => .ok r.2
  | none => .error role

/-- The players of the numbered roles. -/
def lookupCases (roles : List (String × α)) : List α :=
  (roles.filter fun r => r.1.startsWith "case_").map (·.2)

/-- The construct of a kind with the given roles, or the role that is missing. Other roles are
left out. -/
def ofRoles (kind : Kind) (roles : List (String × α)) : Except String (Primitive α) := do
  let get := lookup roles
  match kind with
  | .preLoop => return .preLoop (← get "cond") (← get "body") (← get "exit")
  | .postLoop => return .postLoop (← get "body") (← get "cond") (← get "exit")
  | .ifElseReturn => return .ifElseReturn (← get "cond") (← get "then") (← get "else")
  | .ifReturn => return .ifReturn (← get "cond") (← get "body") (← get "exit")
  | .ifThen => return .ifThen (← get "cond") (← get "body") (← get "exit")
  | .ifElse => return .ifElse (← get "cond") (← get "then") (← get "else") (← get "exit")
  | .fallthrough => return .fallthrough (← get "cond") (← get "exit")
  | .sequence => return .sequence (← get "first") (← get "second")
  | .nWay => return .nWay (← get "head") (lookupCases roles) (← get "exit")

end Primitive

end Structuring
