import DeskCalculator.Text.Basic

/-! What can be wrong with a line or an expression, and the message that says so. Positions are
counted from zero, columns from one. -/
namespace DeskCalculator

/-- A text in the line that is no token. -/
structure LexError where
  text : Text
  position : Nat
  deriving DecidableEq, Repr

inductive ParseError
  | lex (error : LexError)
  | unexpectedToken (text : Text) (position : Nat)
  | unexpectedEnd (position : Nat)
  | unclosedParen (position : Nat)
  | tooDeep (position : Nat)
  deriving DecidableEq, Repr

inductive EvalError
  | emptyOperand
  | malformedLiteral (text : Text)
  deriving DecidableEq, Repr

inductive LineError
  | parse (error : ParseError)
  | eval (error : EvalError)
  deriving DecidableEq, Repr

def syntaxMessage (position : Nat) (complaint : Text) : Text :=
  "SyntaxError at column ".toList ++ Text.ofNat (position + 1) ++ ": ".toList ++ complaint

namespace LexError

def message (e : LexError) : Text :=
  syntaxMessage e.position ("Unrecognized token '".toList ++ e.text ++ "'.".toList)

end LexError

namespace ParseError

def position : ParseError → Nat
  | .lex e => e.position
  | .unexpectedToken _ p => p
  | .unexpectedEnd p => p
  | .unclosedParen p => p
  | .tooDeep p => p

/-- The texts of which one stands where the error is. -/
def shown : ParseError → List Text
  | .lex e => [e.text]
  | .unexpectedToken t _ => [t]
  | .unexpectedEnd _ => []
  | .unclosedParen _ => [['(']]
  | .tooDeep _ => [['+'], ['-'], ['*'], ['/'], ['(']]

def message : ParseError → Text
  | .lex e => e.message
  | .unexpectedToken t p => syntaxMessage p ("Unexpected token '".toList ++ t ++ "'.".toList)
  | .unexpectedEnd p => syntaxMessage p "Unexpected end of input.".toList
  | .unclosedParen p => syntaxMessage p "Parenthesis '(' is never closed.".toList
  | .tooDeep p => syntaxMessage p "Expression is nested too deeply.".toList

/-- The number of errors that led to this one, each the cause of the one before. -/
def causes : ParseError → Nat
  | .lex _ => 1
  | _ => 0

end ParseError

namespace EvalError

def message : EvalError → Text
  | .emptyOperand => "InternalError: Tried to evaluate an empty node.".toList
  | .malformedLiteral t => "InternalError: Malformed number literal '".toList ++ t ++ "'.".toList

end EvalError

namespace LineError

def message : LineError → Text
  | .parse e => e.message
  | .eval e => e.message

def causes : LineError → Nat
  | .parse e => e.causes + 1
  | .eval _ => 1

end LineError
end DeskCalculator
