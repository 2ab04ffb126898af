import DeskCalculator.Expression.Basic
import DeskCalculator.Token.Scan

/-! The grammar of expressions as a relation between tokens and trees. It says nothing about how
a tree is found, and nothing about limits; it counts how deep groups and signs nest. -/
namespace DeskCalculator

/-- The parts that an expression is made of. A sum is a whole expression. -/
inductive Part
  | chain (tier : Tier)
  | signed
  | primary
  deriving DecidableEq, Repr

def Tier.operands : Tier → Part
  | .sum => .chain .product
  | .product => .signed

/-- The tokens `ts` are a part with the tree `x`, in which the sign or opening parenthesis that
is nested deepest, itself counted, is `n` deep. -/
inductive Derives : Part → List Token → Expr → Nat → Prop
  | operand {tier : Tier} {ts : List Token} {x : Expr} {n : Nat} :
      Derives tier.operands ts x n → Derives (.chain tier) ts x n
  | join {tier : Tier} {ls rs : List Token} {t : Token} {op : BinaryOp} {x y : Expr} {m n : Nat} :
      Derives (.chain tier) ls x m → t.kind.operator? = some op → op.tier = tier →
      Derives tier.operands rs y n →
      Derives (.chain tier) (ls ++ t :: rs) (.binary op x y) (max m n)
  | unsigned {ts : List Token} {x : Expr} {n : Nat} :
      Derives .primary ts x n → Derives .signed ts x n
  | sign {t : Token} {s : Sign} {ts : List Token} {x : Expr} {n : Nat} :
      t.kind.sign? = some s → Derives .signed ts x n →
      Derives .signed (t :: ts) (.signed s x) (n + 1)
  | number {t : Token} : t.kind = .number → Derives .primary [t] (.number t.text) 0
  | ans {t : Token} : t.kind = .ans → Derives .primary [t] .ans 0
  | group {o c : Token} {ts : List Token} {x : Expr} {n : Nat} :
      o.kind = .openParen → Derives (.chain .sum) ts x n → c.kind = .closeParen →
      Derives .primary (o :: (ts ++ [c])) x (n + 1)
  | juxtaposed {o c : Token} {ls ts : List Token} {x y : Expr} {m n : Nat} :
      Derives .primary ls x m → o.kind = .openParen → Derives (.chain .sum) ts y n →
      c.kind = .closeParen →
      Derives .primary (ls ++ o :: (ts ++ [c])) (.binary .mul x y) (max m (n + 1))

namespace Derives

theorem ne_nil {p : Part} {ts : List Token} {x : Expr} {n : Nat} (h : Derives p ts x n) :
    ts ≠ [] := by
  induction h with
  | operand _ ih => exact ih
  | join => simp
  | unsigned _ ih => exact ih
  | sign => simp
  | number => simp
  | ans => simp
  | group => simp
  | juxtaposed => simp

theorem height_pos {p : Part} {ts : List Token} {x : Expr} {n : Nat} (h : Derives p ts x n) :
    0 < x.height := by
  induction h with
  | operand _ ih => exact ih
  | join => simp only [Expr.height]; omega
  | unsigned _ ih => exact ih
  | sign => simp only [Expr.height]; omega
  | number => simp [Expr.height]
  | ans => simp [Expr.height]
  | group _ _ _ ih => exact ih
  | juxtaposed => simp only [Expr.height]; omega

end Derives

def IsExpression (ts : List Token) : Prop := ∃ x n, Derives (.chain .sum) ts x n

/-- Some expression begins with the tokens. -/
def Viable (ts : List Token) : Prop := ∃ us, IsExpression (ts ++ us)

/-! A line need not be an expression for its front to be read as one. -/

def Part.goesOn : Part → TokenKind → Bool
  | _, .openParen => true
  | .chain .sum, k => k.operator?.isSome
  | .chain .product, k => k.operator?.any fun op => op.tier = .product
  | .signed, _ | .primary, _ => false

/-- A part ends before these items. An item that is no token ends nothing. -/
def Part.Ends (p : Part) : List Item → Prop
  | [] => True
  | .ok t :: _ => p.goesOn t.kind = false
  | .error _ :: _ => False

theorem Part.ends_nil (p : Part) : p.Ends [] := trivial

theorem Part.ends_signed_iff {s : List Item} : Part.signed.Ends s ↔ Part.primary.Ends s := by
  cases s with
  | nil => exact Iff.rfl
  | cons i s =>
    cases i with
    | error e => exact Iff.rfl
    | ok t => cases hk : t.kind <;> simp [Part.Ends, Part.goesOn, hk]

/-- A line that begins with the tokens `pre` has to go on with a part, which `d` signs and groups
enclose. -/
inductive Begins : Part → Nat → List Token → Prop
  | line : Begins (.chain .sum) 0 []
  | operand {tier : Tier} {d : Nat} {pre : List Token} :
      Begins (.chain tier) d pre → Begins tier.operands d pre
  | join {tier : Tier} {d n : Nat} {pre ls : List Token} {t : Token} {op : BinaryOp} {x : Expr} :
      Begins (.chain tier) d pre → Derives (.chain tier) ls x n →
      t.kind.operator? = some op → op.tier = tier → Begins tier.operands d (pre ++ ls ++ [t])
  | sign {d : Nat} {pre : List Token} {t : Token} {s : Sign} :
      Begins .signed d pre → t.kind.sign? = some s → Begins .signed (d + 1) (pre ++ [t])
  | unsigned {d : Nat} {pre : List Token} : Begins .signed d pre → Begins .primary d pre
  | group {d : Nat} {pre : List Token} {o : Token} :
      Begins .primary d pre → o.kind = .openParen → Begins (.chain .sum) (d + 1) (pre ++ [o])
  | juxtaposed {d n : Nat} {pre ls : List Token} {o : Token} {x : Expr} :
      Begins .primary d pre → Derives .primary ls x n → o.kind = .openParen →
      Begins (.chain .sum) (d + 1) (pre ++ ls ++ [o])

/-- In a line of the tokens `pre`, the token `t` and then the items `post`, the node at `t` is the
given tree: its operands are read whole, and no error is met in them. -/
inductive Builds : List Token → Token → List Item → Expr → Prop
  | sign {d n : Nat} {pre ts : List Token} {t : Token} {s : Sign} {rest : List Item} {x : Expr} :
      Begins .signed d pre → t.kind.sign? = some s →
      Derives .signed ts x n → Part.signed.Ends rest →
      Builds pre t (ts.map .ok ++ rest) (.signed s x)
  | join {tier : Tier} {d m n : Nat} {pre ls rs : List Token} {t : Token} {op : BinaryOp}
      {rest : List Item} {x y : Expr} :
      Begins (.chain tier) d pre → Derives (.chain tier) ls x m →
      t.kind.operator? = some op → op.tier = tier →
      Derives tier.operands rs y n → tier.operands.Ends rest →
      Builds (pre ++ ls) t (rs.map .ok ++ rest) (.binary op x y)
  | juxtaposed {d m n : Nat} {pre ls ts : List Token} {o c : Token} {rest : List Item}
      {x y : Expr} :
      Begins .primary d pre → Derives .primary ls x m → o.kind = .openParen →
      Derives (.chain .sum) ts y n → c.kind = .closeParen →
      Builds (pre ++ ls) o (ts.map .ok ++ .ok c :: rest) (.binary .mul x y)

/-! How deep the signs and groups of a line nest, counted from its tokens alone, and what it is to
keep to a limit. A parenthesis encloses all up to the one that closes it; a sign encloses one
operand with the groups written next to it, so an operator or the end of a group closes it. -/

/-- What has been met of a line: whether an operand is due, and the signs and parentheses that
enclose what comes next, innermost first. -/
structure Scope where
  due : Bool
  enclosing : List Token
  deriving DecidableEq, Repr

namespace Scope

def start : Scope := ⟨true, []⟩

def endSigns (ts : List Token) : List Token := ts.dropWhile fun t => t.kind.sign?.isSome

def step (c : Scope) (t : Token) : Scope :=
  match t.kind with
  | .openParen => ⟨true, t :: c.enclosing⟩
  | .plus | .minus => ⟨true, if c.due then t :: c.enclosing else endSigns c.enclosing⟩
  | .star | .slash => ⟨true, endSigns c.enclosing⟩
  | .closeParen => ⟨false, (endSigns c.enclosing).tail⟩
  | .number | .ans | .blank => ⟨false, c.enclosing⟩

def after (ts : List Token) : Scope := ts.foldl step start

def Opens (c : Scope) (t : Token) : Prop :=
  t.kind = .openParen ∨ c.due = true ∧ t.kind.sign?.isSome = true

instance (c : Scope) (t : Token) : Decidable (c.Opens t) := by
  unfold Opens
  infer_instance

/-- The largest number of signs and parentheses that are open at one of the tokens that is such
itself, this one included. -/
def deepest (c : Scope) : List Token → Nat
  | [] => 0
  | t :: ts => max (if c.Opens t then c.enclosing.length + 1 else 0) ((c.step t).deepest ts)

theorem deepest_append (c : Scope) (ts us : List Token) :
    c.deepest (ts ++ us) = max (c.deepest ts) ((ts.foldl step c).deepest us) := by
  induction ts generalizing c with
  | nil => simp [deepest]
  | cons t ts ih => simp only [List.cons_append, deepest, List.foldl_cons, ih, Nat.max_assoc]

theorem deepest_le_iff {c : Scope} {ts : List Token} {k : Nat} :
    c.deepest ts ≤ k + 1 ↔ ∀ pre t post, ts = pre ++ t :: post → (pre.foldl step c).Opens t →
      (pre.foldl step c).enclosing.length ≤ k := by
  induction ts generalizing c with
  | nil => simp [deepest]
  | cons t ts ih =>
    rw [deepest, Nat.max_le, ih]
    constructor
    · rintro ⟨hfront, hrest⟩ pre u post hts hopen
      cases pre with
      | nil =>
        obtain ⟨rfl, rfl⟩ := List.cons.inj hts
        rw [List.foldl_nil] at hopen
        rw [if_pos hopen] at hfront
        exact Nat.le_of_succ_le_succ hfront
      | cons v pre =>
        obtain ⟨rfl, rfl⟩ := List.cons.inj hts
        exact hrest pre u post rfl hopen
    · intro h
      constructor
      · by_cases hopen : c.Opens t
        · have hlen := h [] t ts rfl hopen
          rw [if_pos hopen]
          exact Nat.succ_le_succ hlen
        · rw [if_neg hopen]
          exact Nat.zero_le _
      · intro pre u post hts hopen
        exact h (t :: pre) u post (by rw [hts]; rfl) hopen

end Scope

def nesting (ts : List Token) : Nat := Scope.start.deepest ts

/-- The tree is at most `k` high, and fewer than `k` signs and parentheses are around each of
those among the tokens. -/
def KeepsTo (k : Nat) (ts : List Token) (x : Expr) : Prop :=
  x.height ≤ k ∧ ∀ pre t post, ts = pre ++ t :: post → (Scope.after pre).Opens t →
    (Scope.after pre).enclosing.length < k

theorem keepsTo_iff {k : Nat} {ts : List Token} {x : Expr} :
    KeepsTo (k + 1) ts x ↔ x.height ≤ k + 1 ∧ nesting ts ≤ k + 1 := by
  simp only [KeepsTo, Nat.lt_succ_iff]
  exact and_congr_right fun _ => Scope.deepest_le_iff.symm

/-- The token `t`, after the tokens `pre` and before the items `post`, goes beyond the limit `k`: it
would be the sign or parenthesis with `k` others around it, or the node that is the first to be too
high. -/
def ExceedsAt (k : Nat) (pre : List Token) (t : Token) (post : List Item) : Prop :=
  (Scope.after pre).Opens t ∧ (Scope.after pre).enclosing.length = k ∨
  ∃ x, Builds pre t post x ∧ x.height = k + 1 ∧ ∀ y ∈ x.operands, y.height ≤ k

/-! How far into a line one has to look to say what it is. -/

/-- The tokens that are looked at to give an answer on a line, of whose items the rest is left. What
cannot stand where it does is the last of them, if it is a token, and the item behind them if it is
none. Where an end is missing they are all that there is. A line that is too deep may be given up
anywhere. -/
inductive Lookahead : Except ParseError Expr → List Token → List Item → Prop
  | parsed {x : Expr} {ts : List Token} : Lookahead (.ok x) ts []
  | lex {e : LexError} {ts : List Token} {rest : List Item} :
      Lookahead (.error (.lex e)) ts (.error e :: rest)
  | unexpectedToken {t : Token} {ts : List Token} {rest : List Item} :
      Lookahead (.error (.unexpectedToken t.text t.position)) (ts ++ [t]) rest
  | unexpectedEnd {p : Nat} {ts : List Token} : Lookahead (.error (.unexpectedEnd p)) ts []
  /-- A whole expression stands behind the parenthesis, and then neither its end nor anything that
  the expression goes on with. -/
  | unclosed {o t : Token} {pre us : List Token} {rest : List Item} :
      o.kind = .openParen → IsExpression us → t.kind ≠ .closeParen →
      (Part.chain .sum).Ends (.ok t :: rest) →
      Lookahead (.error (.unclosedParen o.position)) (pre ++ o :: us ++ [t]) rest
  | unclosedEnd {o : Token} {pre us : List Token} :
      o.kind = .openParen → IsExpression us →
      Lookahead (.error (.unclosedParen o.position)) (pre ++ o :: us) []
  | tooDeep {p : Nat} {ts : List Token} {rest : List Item} :
      Lookahead (.error (.tooDeep p)) ts rest

end DeskCalculator
