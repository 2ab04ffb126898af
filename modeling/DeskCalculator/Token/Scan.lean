import DeskCalculator.Error
import DeskCalculator.Token.Basic
import DeskCalculator.Token.Numeral

/-! From a text to its items: white space is skipped, and then a piece is cut from the front,
which is a token or a text that is none. -/
namespace DeskCalculator

/-- A piece cut from the front of a text. Without a kind it is no token. -/
structure Lexeme where
  kind : Option TokenKind
  text : Text
  deriving DecidableEq, Repr

namespace Lexeme

def answerWord : Text := ['a', 'n', 's']

/-- The piece at the front of the text `c :: cs`. A numeral that runs on is no token as a whole;
any other text that begins no token is given up one character at a time. -/
def front (c : Char) (cs : Text) : Lexeme :=
  match TokenKind.ofSymbol? c with
  | some k => ⟨some k, [c]⟩
  | none =>
    if answerWord.isPrefixOf (c :: cs) then ⟨some .ans, answerWord⟩
    else
      let w := Numeral.longest (c :: cs)
      if w = [] then ⟨none, [c]⟩
      else ⟨if Numeral.runsOn ((c :: cs).drop w.length) then none else some .number, w⟩

theorem front_prefix (c : Char) (cs : Text) : (front c cs).text <+: c :: cs := by
  unfold front
  split
  · exact ⟨cs, rfl⟩
  · split
    · rename_i h
      exact List.isPrefixOf_iff_prefix.1 h
    · simp only
      split
      · exact ⟨cs, rfl⟩
      · exact Numeral.longest_prefix _

theorem front_ne_nil (c : Char) (cs : Text) : (front c cs).text ≠ [] := by
  unfold front
  split
  · simp
  · split
    · simp [answerWord]
    · simp only
      split
      · simp
      · assumption

end Lexeme

abbrev Item := Except LexError Token

theorem Item.eq_of_map_ok {ts us : List Token} (h : (ts.map .ok : List Item) = us.map .ok) :
    ts = us :=
  (List.map_inj_right fun _ _ => Except.ok.inj).1 h

structure Scan where
  item : Item
  position : Nat
  rest : Text

namespace Scan

def item? (w : Lexeme) (position : Nat) : Item :=
  match w.kind with
  | some k => .ok ⟨k, w.text, position⟩
  | none => .error ⟨w.text, position⟩

def first (position : Nat) (s : Text) : Option Scan :=
  match s.skipBlank with
  | [] => none
  | c :: cs =>
    let w := Lexeme.front c cs
    let start := position + s.gap.size
    some ⟨item? w start, start + Text.size w.text, (c :: cs).drop w.text.length⟩

theorem first_of_nil {s : Text} (p : Nat) (h : s.skipBlank = []) : first p s = none := by
  simp [first, h]

theorem first_of_cons {s : Text} {c : Char} {cs : Text} (p : Nat) (h : s.skipBlank = c :: cs) :
    first p s = some ⟨item? (Lexeme.front c cs) (p + s.gap.size),
      p + s.gap.size + Text.size (Lexeme.front c cs).text,
      (c :: cs).drop (Lexeme.front c cs).text.length⟩ := by
  simp [first, h]

theorem first_split {p : Nat} {s : Text} {x : Scan} (h : first p s = some x) :
    ∃ passed, passed ≠ [] ∧ s = passed ++ x.rest ∧ x.position = p + Text.size passed := by
  unfold first at h
  split at h
  · cases h
  · rename_i c cs hs
    cases h
    obtain ⟨t, ht⟩ := Lexeme.front_prefix c cs
    have hd : (c :: cs).drop (Lexeme.front c cs).text.length = t := by
      rw [← ht]
      simp
    refine ⟨s.gap ++ (Lexeme.front c cs).text, by simp [Lexeme.front_ne_nil], ?_, ?_⟩
    · rw [hd, List.append_assoc, ht, ← hs, Text.gap_append_skipBlank]
    · simp [Nat.add_assoc]

theorem length_rest_lt {p : Nat} {s : Text} {x : Scan} (h : first p s = some x) :
    x.rest.length < s.length := by
  obtain ⟨passed, hne, hs, -⟩ := first_split h
  have := List.length_pos_iff.2 hne
  rw [hs, List.length_append]
  omega

/-- All items of the text `s` that begins at `position`. Scanning goes on after a text that is
no token. -/
def all (position : Nat) (s : Text) : List Item :=
  match _h : first position s with
  | none => []
  | some x => x.item :: all x.position x.rest
termination_by s.length
decreasing_by exact length_rest_lt _h

theorem all_of_none {p : Nat} {s : Text} (h : first p s = none) : all p s = [] := by
  rw [all]
  split <;> simp_all

theorem all_of_some {p : Nat} {s : Text} {x : Scan} (h : first p s = some x) :
    all p s = x.item :: all x.position x.rest := by
  rw [all]
  split <;> simp_all

end Scan

/-! A text as its pieces alone, without the positions where they stand. -/

def Token.lexeme (t : Token) : Lexeme := ⟨some t.kind, t.text⟩

def Item.lexeme : Item → Lexeme
  | .ok t => t.lexeme
  | .error e => ⟨none, e.text⟩

namespace Text

def lexemes (s : Text) : List Lexeme :=
  match _h : s.skipBlank with
  | [] => []
  | c :: cs => Lexeme.front c cs :: lexemes ((c :: cs).drop (Lexeme.front c cs).text.length)
termination_by s.length
decreasing_by exact Scan.length_rest_lt (Scan.first_of_cons 0 _h)

theorem lexemes_of_nil {s : Text} (h : s.skipBlank = []) : lexemes s = [] := by
  rw [lexemes]
  split <;> simp_all

theorem lexemes_of_cons {s : Text} {c : Char} {cs : Text} (h : s.skipBlank = c :: cs) :
    lexemes s = Lexeme.front c cs ::
      lexemes ((c :: cs).drop (Lexeme.front c cs).text.length) := by
  rw [lexemes]
  split <;> simp_all

def IsLexical (s : Text) : Prop := ∀ w ∈ lexemes s, w.kind ≠ none

def tokens (s : Text) : List Token := (Scan.all 0 s).filterMap Except.toOption

theorem tokens_of_all {s : Text} {ts : List Token} (h : Scan.all 0 s = ts.map .ok) :
    s.tokens = ts := by
  rw [tokens, h, List.filterMap_map]
  exact List.filterMap_some

end Text

/-! Tokens and errors of a line whose pieces have been moved: they are the same but for where they
stand. -/

def Token.moved (f : Nat → Nat) (t : Token) : Token := { t with position := f t.position }

def LexError.moved (f : Nat → Nat) (e : LexError) : LexError :=
  { e with position := f e.position }

def Item.moved (f : Nat → Nat) : Item → Item
  | .ok t => .ok (t.moved f)
  | .error e => .error (e.moved f)

def ParseError.moved (f : Nat → Nat) : ParseError → ParseError
  | .lex e => .lex (e.moved f)
  | .unexpectedToken t p => .unexpectedToken t (f p)
  | .unexpectedEnd p => .unexpectedEnd (f p)
  | .unclosedParen p => .unclosedParen (f p)
  | .tooDeep p => .tooDeep (f p)

variable {f : Nat → Nat}

@[simp] theorem Token.kind_moved (t : Token) : (t.moved f).kind = t.kind := rfl

@[simp] theorem Token.text_moved (t : Token) : (t.moved f).text = t.text := rfl

@[simp] theorem Token.position_moved (t : Token) : (t.moved f).position = f t.position := rfl

@[simp] theorem Item.moved_ok (t : Token) : Item.moved f (.ok t) = .ok (t.moved f) := rfl

@[simp] theorem Item.moved_error (e : LexError) : Item.moved f (.error e) = .error (e.moved f) := rfl

@[simp] theorem ParseError.position_moved (e : ParseError) :
    (e.moved f).position = f e.position := by
  cases e <;> rfl

end DeskCalculator
