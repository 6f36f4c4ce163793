namespace Conform

namespace NumericString

def isBlank (c : Char) : Bool :=
  ('\t' ≤ c && c ≤ '\r') || c == ' ' || c == '\u00a0' || c == '\u1680' ||
    ('\u2000' ≤ c && c ≤ '\u200a') || c == '\u2028' || c == '\u2029' || c == '\u202f' ||
    c == '\u205f' || c == '\u3000' || c == '\ufeff'

def trim (cs : List Char) : List Char :=
  ((cs.dropWhile isBlank).reverse.dropWhile isBlank).reverse

def isBinaryDigit (c : Char) : Bool := c == '0' || c == '1'

def isOctalDigit (c : Char) : Bool := '0' ≤ c && c ≤ '7'

def isHexDigit (c : Char) : Bool :=
  c.isDigit || ('a' ≤ c && c ≤ 'f') || ('A' ≤ c && c ≤ 'F')

/-- The digits of the radix that a letter after a leading zero selects. -/
def radixDigit? (c : Char) : Option (Char → Bool) :=
  match c with
  | 'b' => some isBinaryDigit
  | 'B' => some isBinaryDigit
  | 'o' => some isOctalDigit
  | 'O' => some isOctalDigit
  | 'x' => some isHexDigit
  | 'X' => some isHexDigit
  | _ => none

def dropSign : List Char → List Char
  | '+' :: rest => rest
  | '-' :: rest => rest
  | cs => cs

def isExponent : List Char → Bool
  | [] => true
  | c :: rest =>
    (c == 'e' || c == 'E') && !(dropSign rest).isEmpty && (dropSign rest).all Char.isDigit

/-- Digits, a point among them if there is one, at least one digit, and an exponent if there is
one. -/
def isDecimal (cs : List Char) : Bool :=
  let whole := cs.takeWhile Char.isDigit
  match cs.dropWhile Char.isDigit with
  | '.' :: rest =>
    (!whole.isEmpty || !(rest.takeWhile Char.isDigit).isEmpty) &&
      isExponent (rest.dropWhile Char.isDigit)
  | rest => !whole.isEmpty && isExponent rest

def isSigned (cs : List Char) : Bool :=
  dropSign cs == "Infinity".toList || isDecimal (dropSign cs)

/-- A number without the blank around it; the empty text stands for zero. -/
def isNumeral : List Char → Bool
  | [] => true
  | '0' :: c :: rest =>
    match radixDigit? c with
    | some isRadixDigit => !rest.isEmpty && rest.all isRadixDigit
    | none => isSigned ('0' :: c :: rest)
  | cs => isSigned cs

end NumericString

/-- Whether a text spells a number: unsigned with a radix, or decimal or infinite with an optional
sign. Blank alone does so, the empty text does not. -/
def isNumericString (s : String) : Bool :=
  !s.isEmpty && NumericString.isNumeral (NumericString.trim s.toList)

end Conform
