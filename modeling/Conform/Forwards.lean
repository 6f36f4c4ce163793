import Conform.Validator.Check
import Conform.Validator.Project

namespace Conform

/-- The definitions of forward references, none of which ever changes. -/
structure Forwards where
  cells : List (Option Validator) := []

namespace Forwards

def add (fs : Forwards) : Forward × Forwards :=
  (⟨fs.cells.length⟩, { fs with cells := fs.cells ++ [none] })

def target? (fs : Forwards) (f : Forward) : Option Validator := fs.cells[f.cell]?.join

def isDefined (fs : Forwards) (f : Forward) : Bool := (fs.target? f).isSome

def define (fs : Forwards) (f : Forward) (v : Validator) : Except ForwardError Forwards :=
  if fs.isDefined f then .error .alreadyDefined
  else .ok { fs with cells := fs.cells.set f.cell (some v) }

def debugText (fs : Forwards) (f : Forward) : String :=
  "Forward \x7b defined: " ++ toString (fs.isDefined f) ++ " \x7d"

/-- A defined reference is checked by its definition, and an undefined one accepts nothing. -/
def checkTarget (fs : Forwards) (check : Validator → Value → Path → Checking Bool) (f : Forward)
    (x : Value) (p : Path) : Checking Bool :=
  match fs.target? f with
  | some v => check v x p
  | none => do
    Checking.report (.forwardUndefined p)
    return false

def projectTarget (fs : Forwards) (project : Validator → Value → Projecting Output) (f : Forward)
    (x : Value) : Projecting Output :=
  match fs.target? f with
  | some v => project v x
  | none => failure

/-- The check that enters definitions inside definitions at most `fuel` deep. -/
def checkWithin (fs : Forwards) : (fuel : Nat) → Validator → Value → Path → Checking Bool
  | 0, v, x, p => v.checkWith (fs.checkTarget fun _ _ _ => failure) x p
  | fuel + 1, v, x, p => v.checkWith (fs.checkTarget (fs.checkWithin fuel)) x p

def projectWithin (fs : Forwards) : (fuel : Nat) → Validator → Value → Projecting Output
  | 0, v, x => v.projectWith (fs.projectTarget fun _ _ => OptionT.lift failure)
      (fun w y => (fs.checkWithin 0 w y .root).silently) x
  | fuel + 1, v, x => v.projectWith (fs.projectTarget (fs.projectWithin fuel))
      (fun w y => (fs.checkWithin (fuel + 1) w y .root).silently) x

/-- Enough for every evaluation that ends, if no extension reads the context: no chain of
definitions inside definitions enters one twice at one place of the input. -/
def fuelFor (fs : Forwards) (x : Value) : Nat :=
  -- The nested places of the input, one more for what is read in place of a part, and once more
  -- the place where a union projects what it has checked.
  fs.cells.length * (x.depth + 3)

/-- Whether an input conforms to a validator. Failing parts go to the context, when there is one,
under paths that continue the given one. -/
def check (fs : Forwards) (v : Validator) (x : Value) (context : Option Context) (p : Path) :
    Logged (Bool × Option Context) :=
  (fs.checkWithin (fs.fuelFor x) v x p).within context

def isValid (fs : Forwards) (v : Validator) (x : Value) : Logged Bool :=
  return (← fs.check v x none .root).1

def validate (fs : Forwards) (v : Validator) (x : Value) (context : Context) :
    Logged (Bool × Context) := do
  let (passed, after) ← fs.check v x (some context) .root
  return (passed, after.getD context)

def project (fs : Forwards) (v : Validator) (x : Value) : Logged (Option Output) :=
  (fs.projectWithin (fs.fuelFor x) v x).run

/-- The projection of an input that passes, or what is wrong with it. -/
def parse (fs : Forwards) (v : Validator) (x : Value) : Logged (Except ParseError Output) := do
  let (passed, context) ← fs.validate v x .empty
  if passed then
    match ← fs.project v x with
    | some o => return .ok o
    | none =>
      Logged.report (.inputUnprojectable x.kind)
      return .error .unprojectable
  else
    Logged.report (.inputRejected context.size)
    return .error (.rejected context.errors)

end Forwards

structure Session where
  forwards : Forwards := {}
  log : Log := []

namespace Session

def newForward (s : Session) : Forward × Session :=
  let (f, forwards) := s.forwards.add
  (f, { s with forwards := forwards })

/-- Defines a reference and logs it; a second definition changes nothing. -/
def define (s : Session) (f : Forward) (v : Validator) : Except ForwardError Session :=
  (s.forwards.define f v).map fun forwards =>
    { forwards := forwards, log := s.log ++ [.forwardDefined] }

/-- Evaluates with the definitions of the moment; nothing when the evaluation does not end. -/
def run {α : Type} (s : Session) (e : Forwards → Logged α) : Option (α × Session) :=
  (e s.forwards s.log).map fun (a, log) => (a, { s with log := log })

def takeLog (s : Session) : Log × Session := (s.log, { s with log := [] })

def projectsNull (s : Session) (v : Validator) : Bool :=
  ((s.run fun fs => fs.project v .null).bind (·.1)).isSome

end Session

end Conform
