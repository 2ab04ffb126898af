import DeskCalculator.Expression.Basic
import DeskCalculator.Number
import DeskCalculator.Token.Scan

/-! The value of an expression, given the last answer. Operands are evaluated from left to right
and the first fault met ends the evaluation. -/
namespace DeskCalculator
namespace Expr

def evaluate (answer : Float) : Expr → Except EvalError Float
  | .hole => .error .emptyOperand
  | .number t =>
    match Literal.read? t with
    | some v => .ok v
    | none => .error (.malformedLiteral t)
  | .ans => .ok answer
  | .binary op l r => do
    let x ← l.evaluate answer
    let y ← r.evaluate answer
    return op.apply x y
  | .signed s x => do
    let v ← x.evaluate answer
    return s.apply v

/-! Walks through an expression from left to right: the words that it is made of, and the faults
that keep it from having a value. -/

/-- Operators stand between their operands and signs before theirs. -/
def words : Expr → List Text
  | .hole => []
  | .number t => [t]
  | .ans => [Lexeme.answerWord]
  | .binary op l r => l.words ++ [op.symbol] :: r.words
  | .signed s x => [s.symbol] :: x.words

theorem length_words (x : Expr) : x.words.length = x.nodeCount := by
  induction x with
  | hole => rfl
  | number t => rfl
  | ans => rfl
  | binary op l r hl hr =>
    simp only [words, nodeCount, List.length_append, List.length_cons, hl, hr]
    omega
  | signed s x ih =>
    simp only [words, nodeCount, List.length_cons, ih]
    omega

def faults : Expr → List EvalError
  | .hole => [.emptyOperand]
  | .number t => if (Literal.read? t).isSome then [] else [.malformedLiteral t]
  | .ans => []
  | .binary _ l r => l.faults ++ r.faults
  | .signed _ x => x.faults

/-- What the path leads to is a hole, or a number whose text has no value. A path goes from the root
down, from each tree to one of its operands by the number of that. -/
inductive FaultAt : Expr → List Nat → EvalError → Prop
  | hole : FaultAt .hole [] .emptyOperand
  | number {t : Text} : ¬ Literal.IsLiteral t → FaultAt (.number t) [] (.malformedLiteral t)
  | operand {x y : Expr} {i : Nat} {p : List Nat} {e : EvalError} :
      x.operands[i]? = some y → FaultAt y p e → FaultAt x (i :: p) e

/-- Where the two paths part, the first goes to an operand further left. -/
def LeftOf : List Nat → List Nat → Prop
  | i :: p, j :: q => i < j ∨ i = j ∧ LeftOf p q
  | _, _ => False

structure IsFirstFault (x : Expr) (p : List Nat) (e : EvalError) : Prop where
  fault : x.FaultAt p e
  leftOf : ∀ q f, x.FaultAt q f → q = p ∨ LeftOf p q

end Expr

/-- Tokens that end an operand. A group opened after one multiplies. -/
def TokenKind.endsOperand : TokenKind → Bool
  | .number | .ans | .closeParen => true
  | _ => false

/-- The words of a line without its parentheses, except that an opening one after an operand is
a product. The flag says whether the token before the first was the end of an operand. -/
def Token.words : Bool → List Token → List Text
  | _, [] => []
  | after, t :: ts =>
    let rest := Token.words t.kind.endsOperand ts
    match t.kind with
    | .openParen => if after then [BinaryOp.mul.symbol] :: rest else rest
    | .closeParen => rest
    | _ => t.text :: rest

def TokenKind.isNode : TokenKind → Bool
  | .number | .ans | .plus | .minus | .star | .slash => true
  | .blank | .openParen | .closeParen => false

def Token.isAdjacent (p : Token × Token) : Bool := p.1.kind.endsOperand && p.2.kind = .openParen

end DeskCalculator
