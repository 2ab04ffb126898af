import DeskCalculator.Token.Numeral

/-! JSON: a writer for the part that a tree of nodes needs, which is objects, strings and null, and the
whole grammar as a relation. -/
namespace DeskCalculator

/-! Documents are written with one member a line, each level two spaces further in. -/

mutual

inductive Json
  | null
  | string (text : Text)
  | object (members : Members)

inductive Members
  | nil
  | cons (key : Text) (value : Json) (rest : Members)

end

namespace Json

def escape (c : Char) : Text :=
  if c = '"' ∨ c = '\\' then ['\\', c]
  else if c = '\n' then ['\\', 'n']
  else if c = '\r' then ['\\', 'r']
  else if c = '\t' then ['\\', 't']
  else if c = '\x08' then ['\\', 'b']
  else if c = '\x0c' then ['\\', 'f']
  else if c.toNat < 0x20 then
    ['\\', 'u', '0', '0', Nat.digitChar (c.toNat / 16), Nat.digitChar (c.toNat % 16)]
  else [c]

def quote (s : Text) : Text := '"' :: (s.flatMap escape ++ ['"'])

def newLine (depth : Nat) : Text := '\n' :: List.replicate (2 * depth) ' '

mutual

/-- The text of a value that stands `depth` levels in. -/
def write (depth : Nat) : Json → Text
  | .null => "null".toList
  | .string s => quote s
  | .object .nil => ['{', '}']
  | .object (.cons k v rest) =>
    '{' :: (newLine (depth + 1) ++ quote k ++ [':', ' '] ++ write (depth + 1) v ++
      writeRest (depth + 1) rest ++ newLine depth ++ ['}'])

def writeRest (depth : Nat) : Members → Text
  | .nil => []
  | .cons k v rest =>
    ',' :: (newLine depth ++ quote k ++ [':', ' '] ++ write depth v ++ writeRest depth rest)

end

def pretty (v : Json) : Text := v.write 0

/-! The grammar of JSON as a relation between values and the texts that stand for them. It is the
whole grammar, with the numbers and arrays that no tree of nodes needs, and it leaves free what a
writer may choose: white space, and which characters of a string are escaped and how. -/

/-- A number is kept as the text it is written with, and members in the order they are written. -/
inductive Value
  | null
  | bool (b : Bool)
  | number (text : Text)
  | string (text : Text)
  | array (items : List Value)
  | object (members : List (Text × Value))

def isSpace (c : Char) : Bool := c == ' ' || c == '\n' || c == '\r' || c == '\t'

def IsSpaces (g : Text) : Prop := g.all isSpace = true

def hexDigit? (c : Char) : Option Nat :=
  if '0' ≤ c ∧ c ≤ '9' then some (c.toNat - '0'.toNat)
  else if 'a' ≤ c ∧ c ≤ 'f' then some (c.toNat - 'a'.toNat + 10)
  else if 'A' ≤ c ∧ c ≤ 'F' then some (c.toNat - 'A'.toNat + 10)
  else none

inductive IsUnit : Nat → Text → Prop
  | intro {a b c d : Char} {w x y z : Nat} : hexDigit? a = some w → hexDigit? b = some x →
      hexDigit? c = some y → hexDigit? d = some z →
      IsUnit (4096 * w + 256 * x + 16 * y + z) [a, b, c, d]

def escaped? : Char → Option Char
  | '"' => some '"'
  | '\\' => some '\\'
  | '/' => some '/'
  | 'b' => some '\x08'
  | 'f' => some '\x0c'
  | 'n' => some '\n'
  | 'r' => some '\r'
  | 't' => some '\t'
  | _ => none

/-- The ways to write a character in a string. One beyond the first 65536 can be written as a pair
of surrogates; a surrogate alone is no character. -/
inductive IsCharacter : Char → Text → Prop
  | plain {c : Char} : 0x20 ≤ c.toNat → c ≠ '"' → c ≠ '\\' → IsCharacter c [c]
  | short {c e : Char} : escaped? e = some c → IsCharacter c ['\\', e]
  | unit {c : Char} {t : Text} : IsUnit c.toNat t → IsCharacter c ('\\' :: 'u' :: t)
  | pair {c : Char} {m n : Nat} {t u : Text} : m < 0x400 → n < 0x400 →
      c.toNat = 0x10000 + 0x400 * m + n → IsUnit (0xd800 + m) t → IsUnit (0xdc00 + n) u →
      IsCharacter c ('\\' :: 'u' :: (t ++ '\\' :: 'u' :: u))

inductive IsBody : Text → Text → Prop
  | nil : IsBody [] []
  | cons {c : Char} {s e t : Text} : IsCharacter c e → IsBody s t → IsBody (c :: s) (e ++ t)

inductive IsString : Text → Text → Prop
  | intro {s t : Text} : IsBody s t → IsString s ('"' :: (t ++ ['"']))

/-- The digits before the point. Only zero begins with a zero. -/
inductive IsWhole : Text → Prop
  | zero : IsWhole ['0']
  | digits {c : Char} {ds : Text} : c.isDigit = true → c ≠ '0' → ds.all Char.isDigit = true →
      IsWhole (c :: ds)

inductive IsFraction : Text → Prop
  | none : IsFraction []
  | digits {ds : Text} : ds.all Char.isDigit = true → ds ≠ [] → IsFraction ('.' :: ds)

inductive IsUnsigned : Text → Prop
  | intro {w f e : Text} : IsWhole w → IsFraction f → Numeral.IsExponent e →
      IsUnsigned (w ++ (f ++ e))

inductive IsNumber : Text → Prop
  | plain {t : Text} : IsUnsigned t → IsNumber t
  | minus {t : Text} : IsUnsigned t → IsNumber ('-' :: t)

/-- Parts of one sort with commas between them. Without any, there may be white space. -/
inductive IsListing {α : Type} (IsPart : α → Text → Prop) : List α → Text → Prop
  | blank {g : Text} : IsSpaces g → IsListing IsPart [] g
  | last {a : α} {t : Text} : IsPart a t → IsListing IsPart [a] t
  | more {a b : α} {as : List α} {t u : Text} : IsPart a t → IsListing IsPart (b :: as) u →
      IsListing IsPart (a :: b :: as) (t ++ ',' :: u)

mutual

inductive IsValue : Value → Text → Prop
  | null : IsValue .null "null".toList
  | boolTrue : IsValue (.bool true) "true".toList
  | boolFalse : IsValue (.bool false) "false".toList
  | number {t : Text} : IsNumber t → IsValue (.number t) t
  | string {s t : Text} : IsString s t → IsValue (.string s) t
  | array {vs : List Value} {t : Text} : IsListing IsElement vs t →
      IsValue (.array vs) ('[' :: (t ++ [']']))
  | object {ms : List (Text × Value)} {t : Text} : IsListing IsMember ms t →
      IsValue (.object ms) ('{' :: (t ++ ['}']))

inductive IsElement : Value → Text → Prop
  | intro {g t g' : Text} {v : Value} : IsSpaces g → IsValue v t → IsSpaces g' →
      IsElement v (g ++ (t ++ g'))

inductive IsMember : Text × Value → Text → Prop
  | intro {g s g' t k : Text} {v : Value} : IsSpaces g → IsString k s → IsSpaces g' →
      IsElement v t → IsMember (k, v) (g ++ (s ++ (g' ++ ':' :: t)))

end

def IsDocument (v : Value) (t : Text) : Prop := IsElement v t

end Json

mutual

def Json.value : Json → Json.Value
  | .null => .null
  | .string s => .string s
  | .object ms => .object ms.values

def Members.values : Members → List (Text × Json.Value)
  | .nil => []
  | .cons k v rest => (k, v.value) :: rest.values

end

end DeskCalculator
