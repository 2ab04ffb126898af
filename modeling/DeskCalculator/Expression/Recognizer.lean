import DeskCalculator.Expression.Grammar

/-! A line is read once from left to right, with no more memory than the positions of the
parentheses that are open and whether an operand is due. The first item that no expression can
go on with is the fault. -/
namespace DeskCalculator
namespace Recognizer

inductive State
  | due
  | read
  deriving DecidableEq, Repr

/-- A token that cannot stand after an operand leaves the innermost open parenthesis unclosed. -/
def misplaced (t : Token) : List Nat → ParseError
  | [] => .unexpectedToken t.text t.position
  | p :: _ => .unclosedParen p

def step : State → List Nat → Token → Except ParseError (State × List Nat)
  | .due, opened, t =>
    match t.kind with
    | .number | .ans => .ok (.read, opened)
    | .openParen => .ok (.due, t.position :: opened)
    | .plus | .minus => .ok (.due, opened)
    | _ => .error (.unexpectedToken t.text t.position)
  | .read, opened, t =>
    match t.kind with
    | .plus | .minus | .star | .slash => .ok (.due, opened)
    | .openParen => .ok (.due, t.position :: opened)
    | .closeParen =>
      match opened with
      | [] => .error (.unexpectedToken t.text t.position)
      | _ :: rest => .ok (.read, rest)
    | _ => .error (misplaced t opened)

def atEnd (size : Nat) : State → List Nat → Except ParseError Unit
  | .due, _ => .error (.unexpectedEnd size)
  | .read, [] => .ok ()
  | .read, p :: _ => .error (.unclosedParen p)

def run (size : Nat) (state : State) (opened : List Nat) : List Item → Except ParseError Unit
  | [] => atEnd size state opened
  | .error e :: _ => .error (.lex e)
  | .ok t :: rest =>
    match step state opened t with
    | .error e => .error e
    | .ok (state, opened) => run size state opened rest

def enclose (opened : List Token) (t : Token) : List Token :=
  match t.kind with
  | .openParen => t :: opened
  | .closeParen => opened.tail
  | _ => opened

/-- The parentheses among the tokens that none of them closes, innermost first. -/
def unclosed (ts : List Token) : List Token := ts.foldl enclose []

/-- The error `e` is about the front of `rest`, where no expression goes on from the tokens `ts`:
the item there, or the end, or the innermost parenthesis that it leaves open. -/
inductive Blames (size : Nat) (ts : List Token) : List Item → ParseError → Prop
  | lex {e : LexError} {rest : List Item} : Blames size ts (.error e :: rest) (.lex e)
  | token {t : Token} {rest : List Item} : ¬ Viable (ts ++ [t]) →
      Blames size ts (.ok t :: rest) (.unexpectedToken t.text t.position)
  | unclosed {t o : Token} {os : List Token} {rest : List Item} : ¬ Viable (ts ++ [t]) →
      unclosed ts = o :: os → Blames size ts (.ok t :: rest) (.unclosedParen o.position)
  | ended : ¬ IsExpression ts → Blames size ts [] (.unexpectedEnd size)
  | endedOpen {o : Token} {os : List Token} : ¬ IsExpression ts → unclosed ts = o :: os →
      Blames size ts [] (.unclosedParen o.position)

end Recognizer

/-- Whether a text reads as an expression, apart from any limit, and what keeps it from that. -/
def recognize (source : Text) : Except ParseError Unit :=
  Recognizer.run source.size .due [] (Scan.all 0 source)

end DeskCalculator
