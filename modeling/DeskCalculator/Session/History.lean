import DeskCalculator.Expression.Printer
import DeskCalculator.Session.Basic

/-! Sessions over time. Besides lines, a session is given trees: those it parsed before and those
built without it. The trees are kept on the desk that the session stands on, in order, and are no
part of the session. -/
namespace DeskCalculator

structure Desk where
  session : Session
  trees : List Expr

namespace Desk

inductive Request
  | line (text : Text)
  | parse (text : Text)
  /-- Evaluate a tree that is kept. -/
  | stored (index : Nat)
  /-- Evaluate a tree that is handed in, and keep it. -/
  | tree (tree : Expr)

inductive Answer
  | line (result : Except LineError Float)
  | parsed (result : Except ParseError Expr)
  | evaluated (result : Except EvalError Float)
  /-- No tree is kept under the number. -/
  | missing

def Answer.value? : Answer → Option Float
  | .line r => r.toOption
  | .parsed _ => none
  | .evaluated r => r.toOption
  | .missing => none

def new : Desk := ⟨Session.new, []⟩

def step (d : Desk) : Request → Answer × Desk
  | .line t =>
    let r := d.session.runLine t
    (.line r.result, { d with session := r.session })
  | .parse t =>
    match DeskCalculator.parse t with
    | .ok x => (.parsed (.ok x), { d with trees := d.trees ++ [x] })
    | .error e => (.parsed (.error e), d)
  | .stored i =>
    match d.trees[i]? with
    | some x =>
      let r := d.session.run x
      (.evaluated r.result, { d with session := r.session })
    | none => (.missing, d)
  | .tree x =>
    let r := d.session.run x
    (.evaluated r.result, ⟨r.session, d.trees ++ [x]⟩)

def answers : Desk → List Request → List Answer
  | _, [] => []
  | d, r :: rs => (d.step r).1 :: (d.step r).2.answers rs

def after : Desk → List Request → Desk
  | d, [] => d
  | d, r :: rs => (d.step r).2.after rs

/-- The request with the tree itself in place of its number. -/
def direct (d : Desk) : Request → Request
  | .stored i =>
    match d.trees[i]? with
    | some x => .tree x
    | none => .stored i
  | r => r

/-- The requests that were answered with a value, each made without what is kept. -/
def successes : Desk → List Request → List Request
  | _, [] => []
  | d, r :: rs =>
    if (d.step r).1.value?.isSome then d.direct r :: (d.step r).2.successes rs
    else (d.step r).2.successes rs

/-- The request brings in no product and no quotient. A tree that is handed in has to be one that a text
could be read as, for a number of any other text could be negative zero itself. -/
def Request.IsAdditive : Request → Prop
  | .line t | .parse t => ∀ x, DeskCalculator.parse t = .ok x → x.isAdditive = true
  | .stored _ => True
  | .tree x => x.IsComplete ∧ x.isAdditive = true

theorem answers_take (d : Desk) (rs : List Request) (n : Nat) :
    d.answers (rs.take n) = (d.answers rs).take n := by
  induction rs generalizing d n with
  | nil => simp [answers]
  | cons r rs ih =>
    cases n with
    | zero => rfl
    | succ n => simp [answers, ih]

theorem getElem?_answers (d : Desk) (rs : List Request) (n : Nat) :
    (d.answers rs)[n]? = rs[n]?.map fun r => ((d.after (rs.take n)).step r).1 := by
  induction rs generalizing d n with
  | nil => rfl
  | cons r rs ih =>
    cases n with
    | zero => rfl
    | succ n => simp [answers, after, ih]

end Desk
end DeskCalculator
