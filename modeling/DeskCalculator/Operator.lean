import DeskCalculator.Text.Basic

/-! The four operators between operands and the two signs before one, with their symbols and
what they do to values. Values are IEEE-754 doubles. -/
namespace DeskCalculator

inductive BinaryOp
  | add
  | sub
  | mul
  | div
  deriving DecidableEq, Repr

inductive Sign
  | plus
  | minus
  deriving DecidableEq, Repr

/-- Operators of one tier bind equally and group to the left. Products bind tighter than sums. -/
inductive Tier
  | sum
  | product
  deriving DecidableEq, Repr

def Tier.rank : Tier → Nat
  | .sum => 1
  | .product => 0

theorem Tier.rank_le_one (t : Tier) : t.rank ≤ 1 := by
  cases t <;> decide

namespace BinaryOp

def symbol : BinaryOp → Char
  | .add => '+'
  | .sub => '-'
  | .mul => '*'
  | .div => '/'

theorem symbol_injective {o p : BinaryOp} (h : o.symbol = p.symbol) : o = p := by
  cases o <;> cases p <;> first | rfl | exact absurd h (by decide)

def tier : BinaryOp → Tier
  | .add | .sub => .sum
  | .mul | .div => .product

def apply : BinaryOp → Float → Float → Float
  | .add, x, y => x + y
  | .sub, x, y => x - y
  | .mul, x, y => x * y
  | .div, x, y => x / y

end BinaryOp

namespace Sign

def symbol : Sign → Char
  | .plus => '+'
  | .minus => '-'

theorem symbol_injective {s t : Sign} (h : s.symbol = t.symbol) : s = t := by
  cases s <;> cases t <;> first | rfl | exact absurd h (by decide)

/-- A minus sign subtracts from zero, so it never gives negative zero. -/
def apply : Sign → Float → Float
  | .plus, x => x
  | .minus, x => 0.0 - x

end Sign
end DeskCalculator
