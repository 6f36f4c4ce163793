import Conform.Pattern.Reader

namespace Conform

namespace Pattern

/-- A set of positions of a text: bit `i` stands for the position before character `i`. -/
abbrev Positions := Nat

namespace Positions

def satisfying (holds : Option Char → Option Char → Bool) : Option Char → List Char → Positions
  | before, [] => (holds before none).toNat
  | before, c :: rest =>
    (holds before (some c)).toNat + 2 * satisfying holds (some c) rest

def all (length : Nat) : Positions := (1 <<< (length + 1)) - 1

/-- Applies a step the given number of times, or until it changes nothing. -/
def iterate (step : Positions → Positions) : Nat → Positions → Positions
  | 0, s => s
  | n + 1, s =>
    let t := step s
    if t = s then s else iterate step n t

def closure (step : Positions → Positions) : Nat → Positions → Positions :=
  iterate fun s => s ||| step s

end Positions

inductive Move where
  | consume (here : Positions)
  | stay (here : Positions)

def Move.apply : Move → Positions → Positions
  | .consume here, s => (s &&& here) <<< 1
  | .stay here, s => s &&& here

def Atom.moveIn (text : List Char) : Atom → Move
  | .oneOf set => .consume (Positions.satisfying (fun _ after => after.any set) none text)
  | .look l => .stay (Positions.satisfying (fun before after => l.holds before after) none text)

/-- The ends of the matches that begin at given positions. Matches move forward, so as many rounds
as the text has characters, and one more, exhaust a repetition. -/
def Expression.reach (length : Nat) : Expression Move → Positions → Positions
  | .empty, s => s
  | .atom m, s => m.apply s
  | .seq p q, s => q.reach length (p.reach length s)
  | .alt p q, s => p.reach length s ||| q.reach length s
  | .repetition p least most, s =>
    let required := Positions.iterate (p.reach length) least s
    match most with
    | some n => Positions.closure (p.reach length) (n - least) required
    | none => Positions.closure (p.reach length) (length + 1) required

def Expression.occursIn (e : Expression Atom) (text : List Char) : Bool :=
  (e.map (Atom.moveIn text)).reach text.length (Positions.all text.length) != 0

end Pattern

structure Pattern where
  source : String
  expression : Pattern.Expression Pattern.Atom

namespace Pattern

def ofString (source : String) : Except Error Pattern :=
  (Expression.read source).map fun e => ⟨source, e⟩

/-- Whether the pattern matches somewhere in the text. -/
def isMatch (p : Pattern) (text : String) : Bool := p.expression.occursIn text.toList

end Pattern

end Conform
