import DeskCalculator.Expression.Basic
import DeskCalculator.Token.Lexer

/-! From tokens to an expression. Operators of a tier group to the left, a sign takes the whole
operand after it, and groups written next to an operand multiply it. How deep signs and groups
may nest, and how tall the tree may grow, is bounded by one limit. -/
namespace DeskCalculator

/-- A bound on depth and height, or none. -/
abbrev Limit := Option Nat

def Limit.allows : Limit → Nat → Bool
  | none, _ => true
  | some m, n => decide (n ≤ m)

/-- The most levels that an expression may have, so that no line can exhaust the stack. -/
def maxDepth : Nat := 256

/-- A tree under construction. Its height is kept with it, so that a tree is not measured again each
time it grows. -/
structure Subtree where
  expr : Expr
  height : Nat
  height_eq : height = expr.height
  deriving DecidableEq, Repr

namespace Subtree

def number (text : Text) : Subtree := ⟨.number text, 1, rfl⟩

def ans : Subtree := ⟨.ans, 1, rfl⟩

def binary (op : BinaryOp) (left right : Subtree) : Subtree where
  expr := .binary op left.expr right.expr
  height := 1 + max left.height right.height
  height_eq := by rw [left.height_eq, right.height_eq, Expr.height]

def signed (s : Sign) (operand : Subtree) : Subtree where
  expr := .signed s operand.expr
  height := 1 + operand.height
  height_eq := by rw [operand.height_eq, Expr.height]

@[simp] theorem expr_number (t : Text) : (number t).expr = .number t := rfl

@[simp] theorem expr_ans : ans.expr = .ans := rfl

@[simp] theorem expr_binary (op : BinaryOp) (x y : Subtree) :
    (binary op x y).expr = .binary op x.expr y.expr := rfl

@[simp] theorem expr_signed (s : Sign) (x : Subtree) :
    (signed s x).expr = .signed s x.expr := rfl

end Subtree

namespace Parser

/-- What reading a part of an expression comes to. The lexer is handed on in either case; one that
gave a whole part is smaller than `bound`. -/
inductive Outcome (bound : Nat)
  | parsed (tree : Subtree) (after : Lexer) (lt : after.size < bound)
  | failed (error : ParseError) (after : Lexer)

namespace Outcome

def weaken {m n : Nat} (h : m ≤ n) : Outcome m → Outcome n
  | .parsed t l lt => .parsed t l (Nat.lt_of_lt_of_le lt h)
  | .failed e l => .failed e l

def result {n : Nat} : Outcome n → Except ParseError Expr
  | .parsed t _ _ => .ok t.expr
  | .failed e _ => .error e

def lexer {n : Nat} : Outcome n → Lexer
  | .parsed _ l _ => l
  | .failed _ l => l

end Outcome

/-! Every call is made with a smaller lexer, or with the same one and a lower level: a group is
above a chain, which is above its operands, and so on down to the primary. There are seven
levels. -/

mutual

/-- Operands of a tier joined by its operators. -/
def chain (limit : Limit) (tier : Tier) (depth : Nat) (l : Lexer) : Outcome l.size :=
  match operand limit tier depth l with
  | .failed e m => .failed e m
  | .parsed left m lt => (chainRest limit tier depth left m).weaken lt
termination_by 7 * l.size + (2 * tier.rank + 3)

/-- The rest of a chain, folded onto what stands to its left. -/
def chainRest (limit : Limit) (tier : Tier) (depth : Nat) (left : Subtree) (l : Lexer) :
    Outcome (l.size + 1) :=
  match h : l.next with
  | .error e m => .failed (.lex e) m
  | .finished => .parsed left l (Nat.lt_succ_self _)
  | .token t m =>
    have hm := Lexer.size_token h
    match t.kind.operator? with
    | none => .parsed left (m.putBack t) (by rw [Lexer.size_putBack]; omega)
    | some op =>
      if op.tier = tier then
        match operand limit tier depth m with
        | .failed e k => .failed e k
        | .parsed right k lt =>
          let t' := Subtree.binary op left right
          if limit.allows t'.height then
            (chainRest limit tier depth t' k).weaken (by omega)
          else .failed (.tooDeep t.position) k
      else .parsed left (m.putBack t) (by rw [Lexer.size_putBack]; omega)
termination_by 7 * l.size
decreasing_by
  all_goals
    have := tier.rank_le_one
    omega

def operand (limit : Limit) (tier : Tier) (depth : Nat) (l : Lexer) : Outcome l.size :=
  match tier with
  | .sum => chain limit .product depth l
  | .product => signed limit depth l
termination_by 7 * l.size + (2 * tier.rank + 2)
decreasing_by
  all_goals
    simp only [Tier.rank]
    omega

def signed (limit : Limit) (depth : Nat) (l : Lexer) : Outcome l.size :=
  match h : l.next with
  | .error e m => .failed (.lex e) m
  | .finished => .failed (.unexpectedEnd l.source.size) l
  | .token t m =>
    have hm := Lexer.size_token h
    match t.kind.sign? with
    | some s =>
      if limit.allows (depth + 1) then
        match signed limit (depth + 1) m with
        | .failed e k => .failed e k
        | .parsed x k lt =>
          let t' := Subtree.signed s x
          if limit.allows t'.height then .parsed t' k (by omega)
          else .failed (.tooDeep t.position) k
      else .failed (.tooDeep t.position) m
    | none =>
      (primary limit depth (m.putBack t)).weaken (by rw [Lexer.size_putBack]; omega)
termination_by 7 * l.size + 1
decreasing_by
  · omega
  · rw [Lexer.size_putBack]
    omega

/-- A number, the last answer or a group, with the groups written next to it. -/
def primary (limit : Limit) (depth : Nat) (l : Lexer) : Outcome l.size :=
  match h : l.next with
  | .error e m => .failed (.lex e) m
  | .finished => .failed (.unexpectedEnd l.source.size) l
  | .token t m =>
    have hm := Lexer.size_token h
    match t.kind with
    | .number => (groups limit depth (.number t.text) m).weaken hm
    | .ans => (groups limit depth .ans m).weaken hm
    | .openParen =>
      match group limit depth t m with
      | .failed e k => .failed e k
      | .parsed x k lt => (groups limit depth x k).weaken (by omega)
    | _ => .failed (.unexpectedToken t.text t.position) m
termination_by 7 * l.size

/-- The groups written next to an operand, each of which multiplies what stands to its left. -/
def groups (limit : Limit) (depth : Nat) (left : Subtree) (l : Lexer) : Outcome (l.size + 1) :=
  match h : l.next with
  | .error e m => .failed (.lex e) m
  | .finished => .parsed left l (Nat.lt_succ_self _)
  | .token t m =>
    have hm := Lexer.size_token h
    if t.kind = .openParen then
      match group limit depth t m with
      | .failed e k => .failed e k
      | .parsed right k lt =>
        let t' := Subtree.binary .mul left right
        if limit.allows t'.height then (groups limit depth t' k).weaken (by omega)
        else .failed (.tooDeep t.position) k
    else .parsed left (m.putBack t) (by rw [Lexer.size_putBack]; omega)
termination_by 7 * l.size

/-- What is inside the parenthesis `opening`, which has been taken, and the closing one. -/
def group (limit : Limit) (depth : Nat) (opening : Token) (l : Lexer) : Outcome l.size :=
  if limit.allows (depth + 1) then
    match chain limit .sum (depth + 1) l with
    | .failed e m => .failed e m
    | .parsed x m lt =>
      match h : m.next with
      | .error e k => .failed (.lex e) k
      | .finished => .failed (.unclosedParen opening.position) m
      | .token t k =>
        have hk := Lexer.size_token h
        if t.kind = .closeParen then .parsed x k (by omega)
        else .failed (.unclosedParen opening.position) k
  else .failed (.tooDeep opening.position) l
termination_by 7 * l.size + 6
decreasing_by
  simp only [Tier.rank]
  omega

end

/-- The longest expression at the front of the lexer's stream. -/
def expression (limit : Limit) (l : Lexer) : Outcome l.size := chain limit .sum 0 l

def run (limit : Limit) (source : Text) : Except ParseError Expr × Lexer :=
  match expression limit (Lexer.ofText source) with
  | .failed e m => (.error e, m)
  | .parsed x m _ =>
    match m.next with
    | .error e k => (.error (.lex e), k)
    | .finished => (.ok x.expr, m)
    | .token t k => (.error (.unexpectedToken t.text t.position), k)

end Parser

/-- The expression that a text is, or what keeps it from being one. -/
def parse (source : Text) : Except ParseError Expr := (Parser.run (some maxDepth) source).1

/-- The text is read as the tree if the condition holds, and otherwise it is too deep. -/
def ReadsIf (condition : Prop) (s : Text) (x : Expr) : Prop :=
  (condition → parse s = .ok x) ∧ (¬ condition → ∃ p, parse s = .error (.tooDeep p))

end DeskCalculator
