import Conform.Report
import Conform.Validator.Basic

namespace Conform

/-- What a check writes to: the context, when the caller gave one, and the log. -/
structure Reporter where
  context : Option Context := none
  log : Log := []

/-- A computation that logs, or does not return. -/
abbrev Logged := StateT Log Option

/-- A check under way, which writes to a reporter, or does not return. -/
abbrev Checking := StateT Reporter Option

/-- A projection under way: nothing when there is none. Checks inside it may log. -/
abbrev Projecting := OptionT Logged

def Logged.report (e : Event) : Logged Unit := modify (· ++ [e])

namespace Checking

def record (p : Path) : Checking Unit :=
  modify fun r => { r with context := r.context.map (·.record p) }

def report (e : Event) : Checking Unit := modify fun r => { r with log := r.log ++ [e] }

def within (c : Checking Bool) (context : Option Context) : Logged (Bool × Option Context) :=
  fun log => (c ⟨context, log⟩).map fun (passed, r) => ((passed, r.context), r.log)

def silently (c : Checking Bool) : Logged Bool := return (← c.within none).1

def recordUnless (passed : Bool) (p : Path) : Checking Unit := if passed then pure () else record p

structure Part where
  path : Path
  check : Checking Bool

/-- Checks every part, and records the path of each that fails after what its check recorded. -/
def everyPart : List Part → Checking Bool
  | [] => return true
  | part :: rest => do
    let passed ← part.check
    recordUnless passed part.path
    let others ← everyPart rest
    return passed && others

def anyOf : List (Checking Bool) → Checking Bool
  | [] => return false
  | c :: rest => do
    if ← c then return true else anyOf rest

def allOf : List (Checking Bool) → Checking Bool
  | [] => return true
  | c :: rest => do
    if ← c then allOf rest else return false

end Checking

def Extension.run (e : Extension) (x : Value) (p : Path) : Checking Bool := fun r =>
  some (e.check x p r.context, { r with context := r.context.map (e.update x p) })

end Conform
