import DeskCalculator.Token.Numeral

/-! The numbers behind the texts. The finite doubles from zero up are a grid: each is a whole number of
units, a unit being the least positive double, and the bits of a double are its place in the grid.
Decimals are rounded to the grid, and a place of the grid is written as a decimal. -/
namespace DeskCalculator
namespace Binary64

/-- The number of units in one. -/
def scale : Nat := Nat.pow 2 1074

/-- The number of doubles from one power of two up to the next, above the subnormal range. -/
def binade : Nat := Nat.pow 2 52

/-- The bits of infinity, the first place after the grid. -/
def infinity : Nat := 0x7ff * binade

def signBit : Nat := Nat.pow 2 63

/-- The number of units at a place of the grid. The first two binades have one unit between
neighbours, and from there each binade doubles the gap. -/
def units (bits : Nat) : Nat :=
  if bits < 2 * binade then bits
  else (binade + bits % binade) * Nat.pow 2 (bits / binade - 1)

/-- The whole number nearest to `n / d`, the even one of two. -/
def roundEven (n d : Nat) : Nat :=
  let q := n / d
  let r := n % d
  if 2 * r < d ∨ (2 * r = d ∧ q % 2 = 0) then q else q + 1

/-- The place nearest to `n / d`, the one with even bits of two. From half a gap above the
greatest finite double on, that is infinity. -/
def nearest (n d : Nat) : Nat :=
  let x := n * scale
  let shift := Nat.log2 (x / d) - 52
  min (shift * binade + roundEven x (d * Nat.pow 2 shift)) infinity

def ofPlace (negative : Bool) (bits : Nat) : Float :=
  Float.ofBits (UInt64.ofNat (if negative then bits + signBit else bits))

/-- The place of the absolute value; beyond infinity if the value is no number. -/
def place (v : Float) : Nat := v.toBits.toNat % signBit

def isNegative (v : Float) : Bool := decide (signBit ≤ v.toBits.toNat)

theorem roundEven_mul_right (n d k : Nat) (hk : 0 < k) :
    roundEven (n * k) (d * k) = roundEven n d := by
  have hq : n * k / (d * k) = n / d := Nat.mul_div_mul_right n d hk
  have hr : n * k % (d * k) = n % d * k := Nat.mul_mod_mul_right k n d
  have h1 : 2 * (n % d * k) < d * k ↔ 2 * (n % d) < d := by
    rw [← Nat.mul_assoc]
    exact Nat.mul_lt_mul_right hk
  have h2 : 2 * (n % d * k) = d * k ↔ 2 * (n % d) = d := by
    rw [← Nat.mul_assoc]
    exact Nat.mul_left_inj (Nat.ne_of_gt hk)
  simp only [roundEven, hq, hr, h1, h2]

theorem nearest_mul_right (n d k : Nat) (hk : 0 < k) : nearest (n * k) (d * k) = nearest n d := by
  have hq : n * k * scale / (d * k) = n * scale / d := by
    rw [Nat.mul_right_comm, Nat.mul_div_mul_right _ _ hk]
  have hr (s : Nat) : roundEven (n * k * scale) (d * k * Nat.pow 2 s) =
      roundEven (n * scale) (d * Nat.pow 2 s) := by
    rw [Nat.mul_right_comm, Nat.mul_right_comm d, roundEven_mul_right _ _ _ hk]
  simp only [nearest, hq, hr]

end Binary64

/-! Decimals: a whole number times a power of ten, how one is read from a text and written
without an exponent, and the double nearest to it. -/

structure Decimal where
  coefficient : Nat
  exponent : Int
  deriving DecidableEq, Repr

namespace Decimal

open Numeral (takeDigits dropDigits)

def ofDigits (s : Text) : Nat := Nat.ofDigitChars 10 s 0

def readDigits? (s : Text) : Option Nat :=
  if s ≠ [] ∧ s.all Char.isDigit then some (ofDigits s) else none

def readInteger? : Text → Option Int
  | '+' :: r => (readDigits? r).map Int.ofNat
  | '-' :: r => (readDigits? r).map fun n => -Int.ofNat n
  | r => (readDigits? r).map Int.ofNat

def readExponent? : Text → Option Int
  | [] => some 0
  | c :: r => if c = 'e' ∨ c = 'E' then readInteger? r else none

def splitFraction : Text → Text × Text
  | '.' :: r => (takeDigits r, dropDigits r)
  | r => ([], r)

/-- A decimal without a sign. A digit has to stand before or after the point. -/
def read? (s : Text) : Option Decimal :=
  let whole := takeDigits s
  let (fraction, rest) := splitFraction (dropDigits s)
  if whole = [] ∧ fraction = [] then none
  else (readExponent? rest).map fun e => ⟨ofDigits (whole ++ fraction), e - fraction.length⟩

/-- The place of the double nearest to a decimal. A decimal with its first digit far outside the
range of the doubles is settled by that alone, so no huge power of ten is ever computed. -/
def place (d : Decimal) : Nat :=
  let digits := (Nat.toDigits 10 d.coefficient).length
  if d.coefficient = 0 then 0
  else if 310 < d.exponent + digits then Binary64.infinity
  else if d.exponent + digits < -330 then 0
  else
    match d.exponent with
    | .ofNat k => Binary64.nearest (d.coefficient * Nat.pow 10 k) 1
    | .negSucc k => Binary64.nearest d.coefficient (Nat.pow 10 (k + 1))

def dropTrailingZeros (s : Text) : Text := (s.reverse.dropWhile (· == '0')).reverse

/-- A decimal written out without an exponent, and without zeros at the end of a fraction. -/
def positional (d : Decimal) : Text :=
  match d.exponent with
  | .ofNat k => Nat.toDigits 10 (d.coefficient * Nat.pow 10 k)
  | .negSucc k =>
    let p := Nat.pow 10 (k + 1)
    let whole := Nat.toDigits 10 (d.coefficient / p)
    let fraction := dropTrailingZeros ((Nat.toDigits 10 (d.coefficient % p)).leftpad (k + 1) '0')
    if fraction = [] then whole else whole ++ '.' :: fraction

end Decimal

/-! The values that texts stand for: a decimal, or one of the names of what is no finite number,
with a sign before it or none. -/

namespace Literal

def readName? (s : Text) : Option Nat :=
  let name := s.map Char.toLower
  if name = "inf".toList ∨ name = "infinity".toList then some Binary64.infinity
  else if name = "nan".toList then some (Binary64.infinity + Nat.pow 2 51)
  else none

def readPlace? (s : Text) : Option Nat := ((Decimal.read? s).map Decimal.place).or (readName? s)

def read? : Text → Option Float
  | '-' :: r => (readPlace? r).map (Binary64.ofPlace true)
  | '+' :: r => (readPlace? r).map (Binary64.ofPlace false)
  | r => (readPlace? r).map (Binary64.ofPlace false)

def names : List Text := ["inf".toList, "infinity".toList, "nan".toList]

/-- The texts that have a value: a numeral, or a name of what is no finite number in any case, with a
sign before it or none. -/
inductive IsLiteral : Text → Prop
  | numeral {sign w : Text} : Numeral.IsSign sign → IsNumeral w → IsLiteral (sign ++ w)
  | name {sign w : Text} : Numeral.IsSign sign →
      w.map Char.toLower ∈ names → IsLiteral (sign ++ w)

end Literal

/-! The text of a double: the fewest digits that read back as the same double, of two such
decimals the nearer, written out without an exponent. -/

namespace Shortest

/-- The power of ten of the first digit of `n / d`, for a positive `n`. -/
def leadingExponent (n d : Nat) : Int :=
  if d ≤ n then ((Nat.toDigits 10 (n / d)).length : Int) - 1
  else
    let k := (Nat.toDigits 10 (d / n)).length - 1
    if n * Nat.pow 10 k = d then -k else -k - 1

/-- The whole numbers on both sides of `n / d`, the nearer first. A tie goes up. -/
def neighbours (n d : Nat) : List Nat :=
  if 2 * (n % d) < d then [n / d, n / d + 1] else [n / d + 1, n / d]

def candidates (n d digits : Nat) : List Decimal :=
  match leadingExponent n d + 1 - digits with
  | .ofNat k => (neighbours n (d * Nat.pow 10 k)).map fun c => ⟨c, k⟩
  | .negSucc k => (neighbours (n * Nat.pow 10 (k + 1)) d).map fun c => ⟨c, .negSucc k⟩

/-- A unit is a decimal of 1074 places, so every place of the grid has an exact decimal. -/
def exact (place : Nat) : Decimal := ⟨Binary64.units place * Nat.pow 5 1074, -1074⟩

/-- The shortest text that reads back as `place`. Seventeen digits are always enough. -/
def ofPlace (place : Nat) : Text :=
  let readsBack (s : Text) : Bool := Literal.readPlace? s == some place
  let found := (List.range 17).findSome? fun i =>
    ((candidates (Binary64.units place) Binary64.scale (i + 1)).map Decimal.positional).find?
      readsBack
  found.getD (exact place).positional

end Shortest

/-- The text of a value. Negative zero keeps its sign; what is no number has none. -/
def valueText (v : Float) : Text :=
  let place := Binary64.place v
  let magnitude :=
    if place = 0 then ['0']
    else if place = Binary64.infinity then "inf".toList
    else Shortest.ofPlace place
  if Binary64.infinity < place then "NaN".toList
  else if Binary64.isNegative v then '-' :: magnitude
  else magnitude

end DeskCalculator
