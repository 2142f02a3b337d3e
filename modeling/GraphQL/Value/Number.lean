import GraphQL.Text.Character

/-!
Numbers from their texts: integers of 64 bits, and finite floats of 64 bits.
-/
namespace GraphQL.Number

/-- A float of 64 bits, kept as its bits. Each NaN stays the one that it is. -/
structure Binary64 where
  bits : UInt64
deriving DecidableEq, Repr, Inhabited

/-- The number that a run of decimal digits denotes. -/
def decimalValue (digits : List Char) : Nat :=
  digits.foldl (fun n c => 10 * n + (c.toNat - '0'.toNat)) 0

/-- A sign and what follows it. A text without a sign is positive. -/
def splitSign : List Char → Bool × List Char
  | '-' :: cs => (true, cs)
  | '+' :: cs => (false, cs)
  | cs => (false, cs)

def signed (negative : Bool) (n : Nat) : Int := if negative then -n else n

/-- The integer that a sign and digits denote, with nothing after them. -/
def integer? (cs : List Char) : Option Int :=
  let (negative, digits) := splitSign cs
  if !digits.isEmpty && digits.all Char.isDigit then some (signed negative (decimalValue digits))
  else none

/-- The integer that a text denotes, if it has 64 bits. -/
def int64? (text : String) : Option Int64 :=
  match integer? text.toList with
  | some n =>
    if -0x8000000000000000 ≤ n ∧ n ≤ 0x7FFFFFFFFFFFFFFF then some (Int64.ofInt n) else none
  | none => none

/-- A decimal fraction: its sign, its digits as one number, and the power of ten to scale it by. -/
structure Decimal where
  negative : Bool
  digits : Nat
  exponent : Int
deriving DecidableEq, Repr, Inhabited

/-- The exponent that the end of a float gives, which is 0 if there is none. -/
def exponent? : List Char → Option Int
  | [] => some 0
  | c :: cs => if c == 'e' || c == 'E' then integer? cs else none

/-- Digits, perhaps with a point among, before or after them, and perhaps an exponent. -/
def decimal? (text : String) : Option Decimal :=
  let (negative, cs) := splitSign text.toList
  let whole := cs.takeWhile Char.isDigit
  let afterWhole := cs.dropWhile Char.isDigit
  let (fraction, ending) := match afterWhole with
    | '.' :: rest => (rest.takeWhile Char.isDigit, rest.dropWhile Char.isDigit)
    | rest => ([], rest)
  if whole.isEmpty && fraction.isEmpty then none
  else (exponent? ending).map fun exponent =>
    ⟨negative, decimalValue (whole ++ fraction), exponent - fraction.length⟩

/-- The float nearest to a decimal fraction without its sign. Powers of ten beyond all floats are
told from their size, so that no huge number is computed. -/
def Decimal.magnitude (d : Decimal) : Float :=
  if d.digits = 0 then 0
  else
    let size := d.exponent + (Nat.toDigits 10 d.digits).length
    if size > 400 then 1 / 0
    else if size < -400 then 0
    else Float.ofScientific d.digits (d.exponent < 0) d.exponent.natAbs

/-- The float nearest to a decimal fraction. -/
def Decimal.toFloat (d : Decimal) : Float := if d.negative then -d.magnitude else d.magnitude

/-- The finite float nearest to what a text denotes. -/
def float? (text : String) : Option Binary64 :=
  match decimal? text with
  | some d => if d.toFloat.isFinite then some ⟨d.toFloat.toBits⟩ else none
  | none => none

/-- Whether a number is written as a float. -/
def isFloat (text : String) : Bool := text.toList.any fun c => c == '.' || c == 'e' || c == 'E'

end GraphQL.Number
