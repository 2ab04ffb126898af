import DeskCalculator.Expression.Basic
import DeskCalculator.Json

/-! Expressions as JSON documents: a node is an object that names its kind of node first, and a
hole is null. -/
namespace DeskCalculator
namespace Expr

def typeKey : Text := "type".toList

def toJson : Expr → Json
  | .hole => .null
  | .number t =>
    .object (.cons typeKey (.string "number".toList) (.cons "value".toList (.string t) .nil))
  | .ans => .object (.cons typeKey (.string "ans".toList) .nil)
  | .binary op l r =>
    .object (.cons typeKey (.string ['b', op.symbol])
      (.cons "left".toList l.toJson (.cons "right".toList r.toJson .nil)))
  | .signed s x =>
    .object (.cons typeKey (.string ['u', s.symbol]) (.cons "operand".toList x.toJson .nil))

/-- A document has one member, its root. -/
def toDocument (x : Expr) : Json := .object (.cons "root".toList x.toJson .nil)

def text (x : Expr) : Text := x.toJson.pretty

def serialize (x : Expr) : Text := x.toDocument.pretty

end Expr

/-! What a JSON value says about an expression. The type of an object says what node it is, and the
members that hold its parts are looked up by their keys, wherever they stand. -/

namespace Json

def lookup (key : String) (ms : List (Text × Value)) : Option Value := ms.lookup key.toList

inductive Value.Denotes : Value → Expr → Prop
  | hole : Denotes .null .hole
  | number {ms : List (Text × Value)} {t : Text} :
      lookup "type" ms = some (.string "number".toList) →
      lookup "value" ms = some (.string t) → Denotes (.object ms) (.number t)
  | ans {ms : List (Text × Value)} : lookup "type" ms = some (.string "ans".toList) →
      Denotes (.object ms) .ans
  | binary {ms : List (Text × Value)} {op : BinaryOp} {v w : Value} {x y : Expr} :
      lookup "type" ms = some (.string ['b', op.symbol]) → lookup "left" ms = some v →
      lookup "right" ms = some w → Denotes v x → Denotes w y →
      Denotes (.object ms) (.binary op x y)
  | signed {ms : List (Text × Value)} {s : Sign} {v : Value} {x : Expr} :
      lookup "type" ms = some (.string ['u', s.symbol]) → lookup "operand" ms = some v →
      Denotes v x → Denotes (.object ms) (.signed s x)

end Json

/-! Expressions with one place left open, and other texts for the numbers of an expression. -/

namespace Expr

/-- A node without one of its operands. -/
inductive Frame
  | left (op : BinaryOp) (right : Expr)
  | right (op : BinaryOp) (left : Expr)
  | signed (sign : Sign)
  deriving DecidableEq, Repr

def Frame.fill : Frame → Expr → Expr
  | .left op r, x => .binary op x r
  | .right op l, x => .binary op l x
  | .signed s, x => .signed s x

/-- The whole tree with the subtree put in. The nodes above the open place are in order from the root
down. -/
def plug (fs : List Frame) (x : Expr) : Expr := fs.foldr Frame.fill x

@[simp] theorem plug_nil (x : Expr) : plug [] x = x := rfl

@[simp] theorem plug_cons (f : Frame) (fs : List Frame) (x : Expr) :
    plug (f :: fs) x = f.fill (plug fs x) := rfl

theorem isSubtree_fill (f : Frame) {x y : Expr} (h : IsSubtree x y) : IsSubtree x (f.fill y) := by
  cases f with
  | left op r => exact .left op r h
  | right op l => exact .right op l h
  | signed s => exact .signed s h

theorem isSubtree_iff_plug {x y : Expr} : IsSubtree x y ↔ ∃ fs, plug fs x = y := by
  constructor
  · intro h
    induction h with
    | refl => exact ⟨[], rfl⟩
    | left op r _ ih =>
      obtain ⟨fs, rfl⟩ := ih
      exact ⟨.left op r :: fs, rfl⟩
    | right op l _ ih =>
      obtain ⟨fs, rfl⟩ := ih
      exact ⟨.right op l :: fs, rfl⟩
    | signed s _ ih =>
      obtain ⟨fs, rfl⟩ := ih
      exact ⟨.signed s :: fs, rfl⟩
  · rintro ⟨fs, rfl⟩
    induction fs with
    | nil => exact .refl
    | cons f fs ih => exact isSubtree_fill f ih

def relabel (f : Text → Text) : Expr → Expr
  | .hole => .hole
  | .number t => .number (f t)
  | .ans => .ans
  | .binary op l r => .binary op (l.relabel f) (r.relabel f)
  | .signed s x => .signed s (x.relabel f)

end Expr
end DeskCalculator
