import Conform.Value

namespace Conform

/-- The paths of the failures so far, in the order in which they were recorded. -/
structure Context where
  errors : List Path := []
deriving DecidableEq

namespace Context

def empty : Context := {}

def record (c : Context) (p : Path) : Context := { c with errors := c.errors ++ [p] }

def contains (c : Context) (p : Path) : Bool := c.errors.contains p

def clear (c : Context) : Context := { c with errors := [] }

def size (c : Context) : Nat := c.errors.length

def isEmpty (c : Context) : Bool := c.errors.isEmpty

end Context

/-- Why an input has no parse: it was rejected, with the paths that were recorded, or it was
accepted and yet has no projection. -/
inductive ParseError where
  | rejected (paths : List Path)
  | unprojectable
deriving DecidableEq

namespace ParseError

def paths : ParseError → List Path
  | .rejected paths => paths
  | .unprojectable => []

def pathText (p : Path) : String := if p.isRoot then "(root)" else p.text

def listText (paths : List Path) : String :=
  if paths.isEmpty then "(none)" else ", ".intercalate (paths.map pathText)

def message : ParseError → String
  | .rejected paths =>
    "input rejected at " ++ toString paths.length ++ " path(s): " ++ listText paths
  | .unprojectable => "accepted input could not be projected into the validator's output type"

end ParseError

inductive ForwardError where
  | alreadyDefined
deriving DecidableEq

def ForwardError.message : ForwardError → String
  | .alreadyDefined => "forward reference is already defined"

inductive Level where
  | trace
  | debug
  | warn
deriving DecidableEq

def Level.text : Level → String
  | .trace => "TRACE"
  | .debug => "DEBUG"
  | .warn => "WARN"

inductive Event where
  | forwardDefined
  | forwardUndefined (path : Path)
  | inputRejected (paths : Nat)
  | inputUnprojectable (kind : Kind)
deriving DecidableEq

namespace Event

def level : Event → Level
  | .forwardDefined => .trace
  | .forwardUndefined _ => .warn
  | .inputRejected _ => .debug
  | .inputUnprojectable _ => .warn

def message : Event → String
  | .forwardDefined => "forward reference defined"
  | .forwardUndefined _ => "forward reference used before it was defined"
  | .inputRejected _ => "input rejected"
  | .inputUnprojectable _ => "accepted input could not be projected"

def fields : Event → List (String × String)
  | .forwardDefined => []
  | .forwardUndefined path => [("path", path.text)]
  | .inputRejected paths => [("paths", toString paths)]
  | .inputUnprojectable kind => [("kind", kind.text)]

end Event

abbrev Log := List Event

end Conform
