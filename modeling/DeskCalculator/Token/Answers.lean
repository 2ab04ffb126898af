import DeskCalculator.Token.Lexer

/-! What is said of a lexer without the way it works: the items that it is asked for, what stands at the
front of its text, and what can be asked of it in any order. -/
namespace DeskCalculator
namespace Item

def text : Item → Text
  | .ok t => t.text
  | .error e => e.text

def position : Item → Nat
  | .ok t => t.position
  | .error e => e.position

/-- The items lie one after the other over the text, which begins at a byte: each is where it says,
with its own text, and before, between and after them is nothing but white space. -/
inductive Tile : Nat → Text → List Item → Prop
  | blank {p : Nat} {g : Text} : g.isBlankLine = true → Tile p g []
  | piece {p : Nat} {g rest : Text} {i : Item} {is : List Item} : g.isBlankLine = true →
      i.position = p + g.size → Tile (i.position + i.text.size) rest is →
      Tile p (g ++ (i.text ++ rest)) (i :: is)

end Item

/-- What the lexer answers from now on until it is finished. After a text that is no token it is
asked again. -/
inductive Lexer.Answers : Lexer → List Item → Prop
  | finished {l : Lexer} : l.next = .finished → Answers l []
  | token {l m : Lexer} {t : Token} {is : List Item} :
      l.next = .token t m → Answers m is → Answers l (.ok t :: is)
  | error {l m : Lexer} {e : LexError} {is : List Item} :
      l.next = .error e m → Answers m is → Answers l (.error e :: is)

/-! What stands at the front of a text, said without the way it is looked for: one of the symbols,
the word for the last answer, the longest of all numerals there, or a text that is no token. -/

inductive TokenKind.IsSymbol : TokenKind → Char → Prop
  | plus : IsSymbol .plus '+'
  | minus : IsSymbol .minus '-'
  | star : IsSymbol .star '*'
  | slash : IsSymbol .slash '/'
  | openParen : IsSymbol .openParen '('
  | closeParen : IsSymbol .closeParen ')'

namespace Numeral

structure IsLongest (w s : Text) : Prop where
  isNumeral : IsNumeral w
  front : w <+: s
  length_le : ∀ v, IsNumeral v → v <+: s → v.length ≤ w.length

/-- The text begins with what no numeral before it may run into. -/
inductive Continues : Text → Prop
  | point {s : Text} : Continues ('.' :: s)
  | lower {s : Text} : Continues ('e' :: s)
  | upper {s : Text} : Continues ('E' :: s)
  | digit {c : Char} {s : Text} : c.isDigit = true → Continues (c :: s)

end Numeral

namespace Lexeme

open Numeral (IsLongest Continues)

/-- The piece is what stands at the front of the text, which begins with no white space. -/
inductive IsFront : Text → Lexeme → Prop
  | symbol {k : TokenKind} {c : Char} {rest : Text} :
      k.IsSymbol c → IsFront (c :: rest) ⟨some k, [c]⟩
  | ans {rest : Text} : IsFront (answerWord ++ rest) ⟨some .ans, answerWord⟩
  | number {w rest : Text} : IsLongest w (w ++ rest) → ¬ Continues rest →
      IsFront (w ++ rest) ⟨some .number, w⟩
  | runsOn {w rest : Text} : IsLongest w (w ++ rest) → Continues rest →
      IsFront (w ++ rest) ⟨none, w⟩
  | unknown {c : Char} {rest : Text} : (∀ k : TokenKind, ¬ k.IsSymbol c) →
      ¬ answerWord <+: c :: rest → (∀ v, IsNumeral v → ¬ v <+: c :: rest) →
      IsFront (c :: rest) ⟨none, [c]⟩

end Lexeme

def Lexer.Answer.ofLexeme (w : Lexeme) (position : Nat) (after : Lexer) : Answer :=
  match w.kind with
  | some k => .token ⟨k, w.text, position⟩ after
  | none => .error ⟨w.text, position⟩ after

/-! What a lexer can be asked for in any order: its next item, and to take a token back. A list of
items can be asked for the same. -/

inductive Request
  | next
  | putBack (t : Token)
  deriving DecidableEq, Repr

structure Supply (σ : Type) where
  next : σ → Option Item × σ
  putBack : σ → Token → σ

namespace Supply

variable {σ : Type}

/-- The answers that are given in the states that count. -/
def answersWhile (m : Supply σ) (counts : σ → Bool) : σ → List Request → List (Option Item)
  | _, [] => []
  | s, .next :: rs =>
    let later := m.answersWhile counts (m.next s).2 rs
    if counts s then (m.next s).1 :: later else later
  | s, .putBack t :: rs => m.answersWhile counts (m.putBack s t) rs

def answers (m : Supply σ) : σ → List Request → List (Option Item) :=
  m.answersWhile fun _ => true

def after (m : Supply σ) : σ → List Request → σ
  | s, [] => s
  | s, .next :: rs => m.after (m.next s).2 rs
  | s, .putBack t :: rs => m.after (m.putBack s t) rs

/-- A list gives its head away, and a token that is put back goes before the others. At its end it
gives none however often it is asked. -/
def items : Supply (List Item) where
  next is := (is.head?, is.tail)
  putBack is t := .ok t :: is

def lexer : Supply Lexer where
  next l :=
    match l.next with
    | .token t m => (some (.ok t), m)
    | .error e m => (some (.error e), m)
    | .finished => (none, l)
  putBack := Lexer.putBack

variable {m : Supply σ} {s : σ} {counts : σ → Bool}

theorem answersWhile_next (rs : List Request) : m.answersWhile counts s (.next :: rs) =
    if counts s then (m.next s).1 :: m.answersWhile counts (m.next s).2 rs
    else m.answersWhile counts (m.next s).2 rs := rfl

theorem answers_next (rs : List Request) :
    m.answers s (.next :: rs) = (m.next s).1 :: m.answers (m.next s).2 rs := rfl

theorem answers_putBack (t : Token) (rs : List Request) :
    m.answers s (.putBack t :: rs) = m.answers (m.putBack s t) rs := rfl

end Supply
end DeskCalculator
