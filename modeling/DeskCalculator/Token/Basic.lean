import DeskCalculator.Operator

/-! Tokens: the pieces of a line that an expression is made of, each with the text it was
written with and the position where that text begins. -/
namespace DeskCalculator

/-- `blank` is the kind of white space, which is skipped: no token of a line has it. -/
inductive TokenKind
  | blank
  | plus
  | minus
  | star
  | slash
  | openParen
  | closeParen
  | ans
  | number
  deriving DecidableEq, Repr

namespace TokenKind

def tag : TokenKind → Char
  | .blank => '\x00'
  | .plus => '+'
  | .minus => '-'
  | .star => '*'
  | .slash => '/'
  | .openParen => '('
  | .closeParen => ')'
  | .ans => '_'
  | .number => 'N'

def ofSymbol? : Char → Option TokenKind
  | '+' => some .plus
  | '-' => some .minus
  | '*' => some .star
  | '/' => some .slash
  | '(' => some .openParen
  | ')' => some .closeParen
  | _ => none

def operator? : TokenKind → Option BinaryOp
  | .plus => some .add
  | .minus => some .sub
  | .star => some .mul
  | .slash => some .div
  | _ => none

def sign? : TokenKind → Option Sign
  | .plus => some .plus
  | .minus => some .minus
  | _ => none

theorem symbol_of_operator? {k : TokenKind} {op : BinaryOp} (h : k.operator? = some op) :
    op.symbol = k.tag := by
  cases k <;> simp [operator?] at h <;> subst h <;> rfl

theorem symbol_of_sign? {k : TokenKind} {s : Sign} (h : k.sign? = some s) : s.symbol = k.tag := by
  cases k <;> simp [sign?] at h <;> subst h <;> rfl

end TokenKind

structure Token where
  kind : TokenKind
  text : Text
  position : Nat
  deriving DecidableEq, Repr

namespace Token

def display (t : Token) : Text :=
  "\x7b \"type\": \"".toList ++ [t.kind.tag] ++ "\", \"value\": \"".toList ++ t.text ++
    "\" \x7d".toList

end Token
end DeskCalculator
