import DeskCalculator.Expression.Value

/-! An expression as a line. Only operands that are joined by an operator themselves are put into
parentheses. -/
namespace DeskCalculator
namespace Expr

def enclose (x : Expr) (s : Text) : Text :=
  match x with
  | .binary _ _ _ => '(' :: (s ++ [')'])
  | _ => s

/-- A hole has no text, so only an expression without holes can be read again. -/
def print : Expr → Text
  | .hole => []
  | .number t => t
  | .ans => Lexeme.answerWord
  | .binary op l r => enclose l l.print ++ op.symbol :: enclose r r.print
  | .signed s x => s.symbol :: enclose x x.print

/-- Nothing is left out of the expression, and the text of every number is a numeral. -/
def IsComplete : Expr → Prop
  | .hole => False
  | .number t => IsNumeral t
  | .ans => True
  | .binary _ l r => l.IsComplete ∧ r.IsComplete
  | .signed _ x => x.IsComplete

end Expr

/-! One expression in place of the last answer in another: as trees, and as lines. -/

def Expr.substitute : Expr → Expr → Expr
  | .hole, _ => .hole
  | .number t, _ => .number t
  | .ans, y => y
  | .binary op l r, y => .binary op (l.substitute y) (r.substitute y)
  | .signed s x, y => .signed s (x.substitute y)

namespace Text

/-- The text `s`, with a group of the text `r` in place of each token for the last answer. -/
def substitute (s r : Text) : Text :=
  match _h : s.skipBlank with
  | [] => s
  | c :: cs =>
    let w := Lexeme.front c cs
    s.gap ++ (if w.kind = some .ans then '(' :: (r ++ [')']) else w.text) ++
      substitute ((c :: cs).drop w.text.length) r
termination_by s.length
decreasing_by exact Scan.length_rest_lt (Scan.first_of_cons 0 _h)

theorem substitute_of_nil {s : Text} (r : Text) (h : s.skipBlank = []) : s.substitute r = s := by
  rw [substitute]
  split <;> simp_all

theorem substitute_of_cons {s : Text} {c : Char} {cs : Text} (r : Text)
    (h : s.skipBlank = c :: cs) :
    s.substitute r = s.gap ++
      (if (Lexeme.front c cs).kind = some .ans then '(' :: (r ++ [')'])
        else (Lexeme.front c cs).text) ++
      Text.substitute ((c :: cs).drop (Lexeme.front c cs).text.length) r := by
  rw [substitute]
  split <;> simp_all

end Text

/-! Products that are written without a star, and the line in which they are written out: every
operand with the groups next to it, as far as these go, becomes a product in parentheses, and
everything else stays as it is. -/

namespace Lexeme

def star : Lexeme := ⟨some .star, ['*']⟩

def openParen : Lexeme := ⟨some .openParen, ['(']⟩

def closeParen : Lexeme := ⟨some .closeParen, [')']⟩

def endsOperand (w : Lexeme) : Bool := w.kind.any TokenKind.endsOperand

def Multiplies (v w : Lexeme) : Prop := v.endsOperand = true ∧ w.kind = some .openParen

def opensGroup : List Lexeme → Bool
  | [] => false
  | w :: _ => w.kind = some .openParen

/-- The pieces behind a group in which the first of them stand, inside of `n` more. -/
def afterGroup : Nat → List Lexeme → List Lexeme
  | _, [] => []
  | n, w :: ws =>
    match w.kind, n with
    | some .openParen, n => afterGroup (n + 1) ws
    | some .closeParen, 0 => ws
    | some .closeParen, n + 1 => afterGroup n ws
    | _, n => afterGroup n ws

/-- Where a piece stands: whether an operand ends right before it, and of each group around it, the
innermost first, whether that is written next to an operand. -/
structure Place where
  after : Bool
  joined : List Bool

namespace Place

def start : Place := ⟨false, []⟩

def step (p : Place) (w : Lexeme) : Place where
  after := w.endsOperand
  joined :=
    match w.kind with
    | some .openParen => p.after :: p.joined
    | some .closeParen => p.joined.tail
    | _ => p.joined

/-- A piece, which the pieces `ws` follow, with what writes products out. A star comes before a
group that is next to an operand. A parenthesis is opened before an operand that a group follows, and
closed behind the last of the groups. -/
def mark (p : Place) (w : Lexeme) (ws : List Lexeme) : List Lexeme :=
  match w.kind with
  | some .openParen =>
    if p.after then [star, w] else if opensGroup (afterGroup 0 ws) then [openParen, w] else [w]
  | some .number | some .ans => if !p.after && opensGroup ws then [openParen, w] else [w]
  | some .closeParen => if p.joined.headD false && !opensGroup ws then [w, closeParen] else [w]
  | _ => [w]

def explicit (p : Place) : List Lexeme → List Lexeme
  | [] => []
  | w :: ws => p.mark w ws ++ (p.step w).explicit ws

end Place
end Lexeme

namespace Text

def explicitFrom (p : Lexeme.Place) (s : Text) : Text :=
  match _h : s.skipBlank with
  | [] => s
  | c :: cs =>
    let w := Lexeme.front c cs
    let rest := (c :: cs).drop w.text.length
    s.gap ++ (p.mark w (lexemes rest)).flatMap Lexeme.text ++ explicitFrom (p.step w) rest
termination_by s.length
decreasing_by exact Scan.length_rest_lt (Scan.first_of_cons 0 _h)

def explicit (s : Text) : Text := s.explicitFrom .start

theorem explicitFrom_of_nil (p : Lexeme.Place) {s : Text} (h : s.skipBlank = []) :
    s.explicitFrom p = s := by
  rw [explicitFrom]
  split <;> simp_all

theorem explicitFrom_of_cons (p : Lexeme.Place) {s : Text} {c : Char} {cs : Text}
    (h : s.skipBlank = c :: cs) :
    s.explicitFrom p = s.gap ++
      (p.mark (Lexeme.front c cs)
        (lexemes ((c :: cs).drop (Lexeme.front c cs).text.length))).flatMap Lexeme.text ++
      explicitFrom (p.step (Lexeme.front c cs))
        ((c :: cs).drop (Lexeme.front c cs).text.length) := by
  rw [explicitFrom]
  split <;> simp_all

end Text
end DeskCalculator
