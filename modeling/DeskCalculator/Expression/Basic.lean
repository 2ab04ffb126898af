import DeskCalculator.Operator

/-! Expressions as trees. A hole stands where an operand has not been filled in; a number is
kept as the text it was written with. -/
namespace DeskCalculator

inductive Expr
  | hole
  | number (text : Text)
  | ans
  | binary (op : BinaryOp) (left right : Expr)
  | signed (sign : Sign) (operand : Expr)
  deriving DecidableEq, Repr

namespace Expr

/-- Holes are not counted. -/
def nodeCount : Expr → Nat
  | .hole => 0
  | .number _ => 1
  | .ans => 1
  | .binary _ l r => 1 + l.nodeCount + r.nodeCount
  | .signed _ x => 1 + x.nodeCount

def height : Expr → Nat
  | .hole => 0
  | .number _ => 1
  | .ans => 1
  | .binary _ l r => 1 + max l.height r.height
  | .signed _ x => 1 + x.height

/-- No node is a product or a quotient. -/
def isAdditive : Expr → Bool
  | .hole | .number _ | .ans => true
  | .binary op l r => op.tier == .sum && l.isAdditive && r.isAdditive
  | .signed _ x => x.isAdditive

def operands : Expr → List Expr
  | .hole => []
  | .number _ => []
  | .ans => []
  | .binary _ l r => [l, r]
  | .signed _ x => [x]

inductive IsSubtree (x : Expr) : Expr → Prop
  | refl : IsSubtree x x
  | left {l : Expr} (op : BinaryOp) (r : Expr) : IsSubtree x l → IsSubtree x (.binary op l r)
  | right {r : Expr} (op : BinaryOp) (l : Expr) : IsSubtree x r → IsSubtree x (.binary op l r)
  | signed {y : Expr} (s : Sign) : IsSubtree x y → IsSubtree x (.signed s y)

theorem IsSubtree.trans {x y z : Expr} (h : IsSubtree x y) (h' : IsSubtree y z) :
    IsSubtree x z := by
  induction h' with
  | refl => exact h
  | left op r _ ih => exact .left op r ih
  | right op l _ ih => exact .right op l ih
  | signed s _ ih => exact .signed s ih

end Expr
end DeskCalculator
