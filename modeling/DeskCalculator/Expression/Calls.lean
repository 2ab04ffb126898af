import DeskCalculator.Expression.Parser

/-! The routines that the parser is made of, and the calls that they make of each other. -/
namespace DeskCalculator

/-- Between the two lexers at least `n` tokens have been taken, and nothing else. -/
def Lexer.Takes (n : Nat) (l m : Lexer) : Prop :=
  ∃ ts : List Token, n ≤ ts.length ∧ l.stream = ts.map .ok ++ m.stream

namespace Parser

abbrev Ending := Except ParseError Subtree × Lexer

namespace Outcome

def built {n : Nat} : Outcome n → Except ParseError Subtree
  | .parsed x _ _ => .ok x
  | .failed e _ => .error e

def ending {n : Nat} (o : Outcome n) : Ending := (o.built, o.lexer)

variable {n n' : Nat} {o : Outcome n} {x : Subtree} {e : ParseError} {m : Lexer}

@[simp] theorem ending_parsed (lt : m.size < n) : (parsed x m lt).ending = (.ok x, m) := rfl

@[simp] theorem ending_failed : (failed e m : Outcome n).ending = (.error e, m) := rfl

@[simp] theorem ending_weaken (h : n ≤ n') : (o.weaken h).ending = o.ending := by
  cases o <;> rfl

theorem exists_of_ending_ok (h : o.ending = (.ok x, m)) : ∃ lt, o = .parsed x m lt := by
  cases o with
  | parsed y k lt =>
    cases h
    exact ⟨lt, rfl⟩
  | failed e k => cases h

end Outcome

inductive Routine
  | chain (tier : Tier)
  | chainRest (tier : Tier) (left : Subtree)
  | operand (tier : Tier)
  | signed
  | primary
  | groups (left : Subtree)
  | group (opening : Token)
  deriving DecidableEq, Repr

/-- The routines that fold what follows onto a tree that they are given. -/
def Routine.isLoop : Routine → Bool
  | .chainRest _ _ | .groups _ => true
  | .chain _ | .operand _ | .signed | .primary | .group _ => false

/-- A routine with all that it is given. -/
structure Activation where
  routine : Routine
  depth : Nat
  lexer : Lexer

def Activation.ending (limit : Limit) : Activation → Ending
  | ⟨.chain tier, d, l⟩ => (Parser.chain limit tier d l).ending
  | ⟨.chainRest tier x, d, l⟩ => (Parser.chainRest limit tier d x l).ending
  | ⟨.operand tier, d, l⟩ => (Parser.operand limit tier d l).ending
  | ⟨.signed, d, l⟩ => (Parser.signed limit d l).ending
  | ⟨.primary, d, l⟩ => (Parser.primary limit d l).ending
  | ⟨.groups x, d, l⟩ => (Parser.groups limit d x l).ending
  | ⟨.group o, d, l⟩ => (Parser.group limit d o l).ending

/-- The first calls the second, one rule for each place where a routine is called. What is called
after another call has come to a tree gets the lexer that is left. -/
inductive Calls (limit : Limit) : Activation → Activation → Prop
  | chain_operand {tier : Tier} {d : Nat} {l : Lexer} :
      Calls limit ⟨.chain tier, d, l⟩ ⟨.operand tier, d, l⟩
  | chain_rest {tier : Tier} {d : Nat} {l m : Lexer} {x : Subtree} :
      Activation.ending limit ⟨.operand tier, d, l⟩ = (.ok x, m) →
      Calls limit ⟨.chain tier, d, l⟩ ⟨.chainRest tier x, d, m⟩
  | rest_operand {tier : Tier} {d : Nat} {l m : Lexer} {t : Token} {op : BinaryOp} {x : Subtree} :
      l.next = .token t m → t.kind.operator? = some op → op.tier = tier →
      Calls limit ⟨.chainRest tier x, d, l⟩ ⟨.operand tier, d, m⟩
  | rest_rest {tier : Tier} {d : Nat} {l m k : Lexer} {t : Token} {op : BinaryOp} {x y : Subtree} :
      l.next = .token t m → t.kind.operator? = some op → op.tier = tier →
      Activation.ending limit ⟨.operand tier, d, m⟩ = (.ok y, k) →
      limit.allows (Subtree.binary op x y).height = true →
      Calls limit ⟨.chainRest tier x, d, l⟩ ⟨.chainRest tier (.binary op x y), d, k⟩
  | operand_chain {d : Nat} {l : Lexer} :
      Calls limit ⟨.operand .sum, d, l⟩ ⟨.chain .product, d, l⟩
  | operand_signed {d : Nat} {l : Lexer} : Calls limit ⟨.operand .product, d, l⟩ ⟨.signed, d, l⟩
  | signed_signed {d : Nat} {l m : Lexer} {t : Token} {s : Sign} :
      l.next = .token t m → t.kind.sign? = some s → limit.allows (d + 1) = true →
      Calls limit ⟨.signed, d, l⟩ ⟨.signed, d + 1, m⟩
  | signed_primary {d : Nat} {l m : Lexer} {t : Token} :
      l.next = .token t m → t.kind.sign? = none →
      Calls limit ⟨.signed, d, l⟩ ⟨.primary, d, m.putBack t⟩
  | number_groups {d : Nat} {l m : Lexer} {t : Token} :
      l.next = .token t m → t.kind = .number →
      Calls limit ⟨.primary, d, l⟩ ⟨.groups (.number t.text), d, m⟩
  | ans_groups {d : Nat} {l m : Lexer} {t : Token} :
      l.next = .token t m → t.kind = .ans → Calls limit ⟨.primary, d, l⟩ ⟨.groups .ans, d, m⟩
  | primary_group {d : Nat} {l m : Lexer} {t : Token} :
      l.next = .token t m → t.kind = .openParen → Calls limit ⟨.primary, d, l⟩ ⟨.group t, d, m⟩
  | group_groups {d : Nat} {l m k : Lexer} {t : Token} {x : Subtree} :
      l.next = .token t m → t.kind = .openParen →
      Activation.ending limit ⟨.group t, d, m⟩ = (.ok x, k) →
      Calls limit ⟨.primary, d, l⟩ ⟨.groups x, d, k⟩
  | groups_group {d : Nat} {l m : Lexer} {t : Token} {x : Subtree} :
      l.next = .token t m → t.kind = .openParen → Calls limit ⟨.groups x, d, l⟩ ⟨.group t, d, m⟩
  | groups_groups {d : Nat} {l m k : Lexer} {t : Token} {x y : Subtree} :
      l.next = .token t m → t.kind = .openParen →
      Activation.ending limit ⟨.group t, d, m⟩ = (.ok y, k) →
      limit.allows (Subtree.binary .mul x y).height = true →
      Calls limit ⟨.groups x, d, l⟩ ⟨.groups (.binary .mul x y), d, k⟩
  | group_chain {d : Nat} {l : Lexer} {o : Token} :
      limit.allows (d + 1) = true → Calls limit ⟨.group o, d, l⟩ ⟨.chain .sum, d + 1, l⟩

end Parser

namespace Reading

/-- How an operand is joined to what stands to its left: by an operator of a tier, or by standing
right next to it. -/
inductive Joint
  | operator (tier : Tier)
  | adjacent
  deriving DecidableEq

def Joint.op? : Joint → TokenKind → Option BinaryOp
  | .operator tier, k => k.operator?.filter fun op => op.tier = tier
  | .adjacent, k => if k = .openParen then some .mul else none

end Reading

/-! The parser once more, by structural recursion alone: on the levels of depth that are left, and in a
loop on a bound of the number of items that are left. Where either runs out there is no result. -/

namespace Parser

open Reading (Joint)

/-- How a call ends, if it does so before the recursion runs out. -/
abbrev Attempt := Option Ending

def Attempt.andThen (a : Attempt) (next : Subtree → Lexer → Attempt) : Attempt :=
  match a with
  | some (.ok x, m) => next x m
  | some (.error e, m) => some (.error e, m)
  | none => none

@[simp] theorem Attempt.andThen_ok (x : Subtree) (m : Lexer) (next : Subtree → Lexer → Attempt) :
    Attempt.andThen (some (.ok x, m)) next = next x m := rfl

@[simp] theorem Attempt.andThen_error (e : ParseError) (m : Lexer)
    (next : Subtree → Lexer → Attempt) :
    Attempt.andThen (some (.error e, m)) next = some (.error e, m) := rfl

/-- One iteration of a loop, which ends it or goes on with `again`. -/
def iterate (limit : Limit) (j : Joint) (read : Token → Lexer → Attempt)
    (again : Subtree → Lexer → Attempt) (left : Subtree) (l : Lexer) : Attempt :=
  match l.next with
  | .error e m => some (.error (.lex e), m)
  | .finished => some (.ok left, l)
  | .token t m =>
    match j.op? t.kind with
    | none => some (.ok left, m.putBack t)
    | some op => (read t m).andThen fun right k =>
        let x := Subtree.binary op left right
        if limit.allows x.height then again x k else some (.error (.tooDeep t.position), k)

def loop (limit : Limit) (j : Joint) (read : Token → Lexer → Attempt) :
    Nat → Subtree → Lexer → Attempt
  | 0 => iterate limit j read fun _ _ => none
  | n + 1 => iterate limit j read (loop limit j read n)

def fold (limit : Limit) (j : Joint) (read : Token → Lexer → Attempt) (left : Subtree) (l : Lexer) :
    Attempt :=
  loop limit j read l.stream.length left l

/-- What can be read at one depth. -/
structure Level where
  sum : Lexer → Attempt
  product : Lexer → Attempt
  signed : Lexer → Attempt
  primary : Lexer → Attempt

namespace Level

def first (l : Lexer) (next : Token → Lexer → Attempt) : Attempt :=
  match l.next with
  | .error e m => some (.error (.lex e), m)
  | .finished => some (.error (.unexpectedEnd l.source.size), l)
  | .token t m => next t m

def close (o : Token) (x : Subtree) (l : Lexer) : Attempt :=
  match l.next with
  | .error e m => some (.error (.lex e), m)
  | .finished => some (.error (.unclosedParen o.position), l)
  | .token t m =>
    if t.kind = .closeParen then some (.ok x, m) else some (.error (.unclosedParen o.position), m)

/-! The functions at a depth, with the level inside groups and behind signs, if one is left. -/

def group (limit : Limit) (depth : Nat) (inside : Option Level) (o : Token) (l : Lexer) :
    Attempt :=
  if limit.allows (depth + 1) then
    inside.bind fun level => (level.sum l).andThen (close o)
  else some (.error (.tooDeep o.position), l)

def groups (limit : Limit) (depth : Nat) (inside : Option Level) (left : Subtree) (l : Lexer) :
    Attempt :=
  fold limit .adjacent (group limit depth inside) left l

def atom (limit : Limit) (depth : Nat) (inside : Option Level) (l : Lexer) : Attempt :=
  first l fun t m =>
    match t.kind with
    | .number => groups limit depth inside (.number t.text) m
    | .ans => groups limit depth inside .ans m
    | .openParen => (group limit depth inside t m).andThen (groups limit depth inside)
    | _ => some (.error (.unexpectedToken t.text t.position), m)

def prefixed (limit : Limit) (depth : Nat) (inside : Option Level) (l : Lexer) : Attempt :=
  first l fun t m =>
    match t.kind.sign? with
    | some s =>
      if limit.allows (depth + 1) then
        inside.bind fun level => (level.signed m).andThen fun x k =>
          let x' := Subtree.signed s x
          if limit.allows x'.height then some (.ok x', k)
          else some (.error (.tooDeep t.position), k)
      else some (.error (.tooDeep t.position), m)
    | none => atom limit depth inside (m.putBack t)

def joined (limit : Limit) (tier : Tier) (operand : Lexer → Attempt) (l : Lexer) : Attempt :=
  (operand l).andThen (fold limit (.operator tier) fun _ => operand)

def around (limit : Limit) (depth : Nat) (inside : Option Level) : Level where
  sum := joined limit .sum (joined limit .product (prefixed limit depth inside))
  product := joined limit .product (prefixed limit depth inside)
  signed := prefixed limit depth inside
  primary := atom limit depth inside

end Level

def level (limit : Limit) : Nat → Nat → Level
  | 0, d => .around limit d none
  | n + 1, d => .around limit d (some (level limit n (d + 1)))

end Parser
end DeskCalculator
