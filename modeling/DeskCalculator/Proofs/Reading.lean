import DeskCalculator.Expression.Calls

/-! What reading comes to, as rules over the stream of items and nothing else: how a call ends with
a tree and the rest of the stream, and how it ends with an error. The rules of chains and of groups
written next to an operand are the same, since both fold operands onto what stands to their left. -/
namespace DeskCalculator

namespace Limit

theorem allows_of_le {limit : Limit} {m n : Nat} (h : limit.allows n = true) (hmn : m ≤ n) :
    limit.allows m = true := by
  cases limit with
  | none => rfl
  | some k =>
    simp only [allows, decide_eq_true_eq] at h ⊢
    omega

theorem allows_max {limit : Limit} {m n : Nat} (hm : limit.allows m = true)
    (hn : limit.allows n = true) : limit.allows (max m n) = true := by
  rcases Nat.le_total m n with h | h
  · rwa [Nat.max_eq_right h]
  · rwa [Nat.max_eq_left h]

@[simp] theorem allows_some {k n : Nat} : allows (some k) n = true ↔ n ≤ k := by
  simp [allows]

@[simp] theorem allows_none (n : Nat) : allows none n = true := rfl

end Limit

namespace Reading

/-- A call reads an operand with what is joined to it, what is joined to a tree that has been read,
an operand with its signs, an operand by itself, or the inside of a group with its end. -/
inductive Call
  | spine (j : Joint)
  | more (j : Joint) (left : Expr)
  | signed
  | atom
  | group (opening : Token)

abbrev Call.expression : Call := .spine (.operator .sum)

namespace Joint

def first : Joint → Call
  | .operator .sum => .spine (.operator .product)
  | .operator .product => .signed
  | .adjacent => .atom

def next : Joint → Token → Call
  | .operator .sum, _ => .spine (.operator .product)
  | .operator .product, _ => .signed
  | .adjacent, t => .group t

theorem next_operator (tier : Tier) (t : Token) :
    (operator tier).next t = (operator tier).first := by
  cases tier <;> rfl

/-- Nothing at the front of the stream is joined to what has been read. A lexical error there is
not passed over. -/
def Stops (j : Joint) : List Item → Prop
  | [] => True
  | .ok t :: _ => j.op? t.kind = none
  | .error _ :: _ => False

@[simp] theorem stops_nil (j : Joint) : j.Stops [] := trivial

@[simp] theorem stops_cons {j : Joint} {t : Token} {s : List Item} :
    j.Stops (.ok t :: s) ↔ j.op? t.kind = none := Iff.rfl

@[simp] theorem not_stops_error {j : Joint} {e : LexError} {s : List Item} :
    ¬ j.Stops (.error e :: s) := id

end Joint

def Call.asks : Call → Bool
  | .more _ _ | .signed | .atom => true
  | .spine _ | .group _ => false

def Call.needsOperand : Call → Bool
  | .signed | .atom => true
  | .spine _ | .more _ _ | .group _ => false

/-- A call at a depth reads the tree from the front of the first stream and leaves the second. -/
inductive Reads (limit : Limit) : Call → Nat → List Item → Expr → List Item → Prop
  | spine {j : Joint} {d : Nat} {s m r : List Item} {x y : Expr} :
      Reads limit j.first d s x m → Reads limit (.more j x) d m y r →
      Reads limit (.spine j) d s y r
  | done {j : Joint} {d : Nat} {s : List Item} {x : Expr} :
      j.Stops s → Reads limit (.more j x) d s x s
  | joined {j : Joint} {d : Nat} {t : Token} {op : BinaryOp} {s m r : List Item} {x y z : Expr} :
      j.op? t.kind = some op → Reads limit (j.next t) d s y m →
      limit.allows (Expr.binary op x y).height = true →
      Reads limit (.more j (.binary op x y)) d m z r →
      Reads limit (.more j x) d (.ok t :: s) z r
  | sign {d : Nat} {t : Token} {sg : Sign} {s r : List Item} {x : Expr} :
      t.kind.sign? = some sg → limit.allows (d + 1) = true → Reads limit .signed (d + 1) s x r →
      limit.allows (Expr.signed sg x).height = true →
      Reads limit .signed d (.ok t :: s) (.signed sg x) r
  | unsigned {d : Nat} {t : Token} {s r : List Item} {x : Expr} :
      t.kind.sign? = none → Reads limit (.spine .adjacent) d (.ok t :: s) x r →
      Reads limit .signed d (.ok t :: s) x r
  | number {d : Nat} {t : Token} {s : List Item} :
      t.kind = .number → Reads limit .atom d (.ok t :: s) (.number t.text) s
  | ans {d : Nat} {t : Token} {s : List Item} :
      t.kind = .ans → Reads limit .atom d (.ok t :: s) .ans s
  | opened {d : Nat} {t : Token} {s r : List Item} {x : Expr} :
      t.kind = .openParen → Reads limit (.group t) d s x r → Reads limit .atom d (.ok t :: s) x r
  | closed {d : Nat} {o c : Token} {s r : List Item} {x : Expr} :
      limit.allows (d + 1) = true →
      Reads limit .expression (d + 1) s x (.ok c :: r) → c.kind = .closeParen →
      Reads limit (.group o) d s x r

def Unclosed : List Item → Prop
  | [] => True
  | .ok t :: _ => t.kind ≠ .closeParen
  | .error _ :: _ => False

/-- A call at a depth fails on the stream, in a line of `size` bytes. -/
inductive Fails (limit : Limit) (size : Nat) : Call → Nat → List Item → ParseError → Prop
  | lex {c : Call} {d : Nat} {e : LexError} {s : List Item} :
      c.asks = true → Fails limit size c d (.error e :: s) (.lex e)
  | ended {c : Call} {d : Nat} :
      c.needsOperand = true → Fails limit size c d [] (.unexpectedEnd size)
  | first {j : Joint} {d : Nat} {s : List Item} {e : ParseError} :
      Fails limit size j.first d s e → Fails limit size (.spine j) d s e
  | rest {j : Joint} {d : Nat} {s m : List Item} {x : Expr} {e : ParseError} :
      Reads limit j.first d s x m → Fails limit size (.more j x) d m e →
      Fails limit size (.spine j) d s e
  | operand {j : Joint} {d : Nat} {t : Token} {op : BinaryOp} {s : List Item} {x : Expr}
      {e : ParseError} :
      j.op? t.kind = some op → Fails limit size (j.next t) d s e →
      Fails limit size (.more j x) d (.ok t :: s) e
  | tall {j : Joint} {d : Nat} {t : Token} {op : BinaryOp} {s m : List Item} {x y : Expr} :
      j.op? t.kind = some op → Reads limit (j.next t) d s y m →
      ¬ limit.allows (Expr.binary op x y).height = true →
      Fails limit size (.more j x) d (.ok t :: s) (.tooDeep t.position)
  | onward {j : Joint} {d : Nat} {t : Token} {op : BinaryOp} {s m : List Item} {x y : Expr}
      {e : ParseError} :
      j.op? t.kind = some op → Reads limit (j.next t) d s y m →
      limit.allows (Expr.binary op x y).height = true →
      Fails limit size (.more j (.binary op x y)) d m e →
      Fails limit size (.more j x) d (.ok t :: s) e
  | signNested {d : Nat} {t : Token} {sg : Sign} {s : List Item} :
      t.kind.sign? = some sg → ¬ limit.allows (d + 1) = true →
      Fails limit size .signed d (.ok t :: s) (.tooDeep t.position)
  | signOperand {d : Nat} {t : Token} {sg : Sign} {s : List Item} {e : ParseError} :
      t.kind.sign? = some sg → limit.allows (d + 1) = true →
      Fails limit size .signed (d + 1) s e → Fails limit size .signed d (.ok t :: s) e
  | signTall {d : Nat} {t : Token} {sg : Sign} {s r : List Item} {x : Expr} :
      t.kind.sign? = some sg → limit.allows (d + 1) = true → Reads limit .signed (d + 1) s x r →
      ¬ limit.allows (Expr.signed sg x).height = true →
      Fails limit size .signed d (.ok t :: s) (.tooDeep t.position)
  | unsigned {d : Nat} {t : Token} {s : List Item} {e : ParseError} :
      t.kind.sign? = none → Fails limit size (.spine .adjacent) d (.ok t :: s) e →
      Fails limit size .signed d (.ok t :: s) e
  | noOperand {d : Nat} {t : Token} {s : List Item} :
      t.kind ≠ .number → t.kind ≠ .ans → t.kind ≠ .openParen →
      Fails limit size .atom d (.ok t :: s) (.unexpectedToken t.text t.position)
  | opened {d : Nat} {t : Token} {s : List Item} {e : ParseError} :
      t.kind = .openParen → Fails limit size (.group t) d s e →
      Fails limit size .atom d (.ok t :: s) e
  | groupNested {d : Nat} {o : Token} {s : List Item} :
      ¬ limit.allows (d + 1) = true → Fails limit size (.group o) d s (.tooDeep o.position)
  | inside {d : Nat} {o : Token} {s : List Item} {e : ParseError} :
      limit.allows (d + 1) = true → Fails limit size .expression (d + 1) s e →
      Fails limit size (.group o) d s e
  | lexAfter {d : Nat} {o : Token} {s r : List Item} {x : Expr} {e : LexError} :
      limit.allows (d + 1) = true →
      Reads limit .expression (d + 1) s x (.error e :: r) →
      Fails limit size (.group o) d s (.lex e)
  | unclosed {d : Nat} {o : Token} {s r : List Item} {x : Expr} :
      limit.allows (d + 1) = true → Reads limit .expression (d + 1) s x r →
      Unclosed r → Fails limit size (.group o) d s (.unclosedParen o.position)

variable {limit : Limit} {size d : Nat} {c : Call} {s r q : List Item} {x y : Expr}

theorem Reads.unique (h : Reads limit c d s x r) (h' : Reads limit c d s y q) :
    y = x ∧ q = r := by
  induction h generalizing y q with
  | spine _ _ ih ihr =>
    cases h' with
    | spine hf hm =>
      obtain ⟨rfl, rfl⟩ := ih hf
      exact ihr hm
  | done hs =>
    cases h' with
    | done _ => exact ⟨rfl, rfl⟩
    | joined ho _ _ _ => simp [ho] at hs
  | joined ho _ _ _ ih ihr =>
    cases h' with
    | done hs => simp [ho] at hs
    | joined ho' hn _ hm =>
      obtain rfl := Option.some.inj (ho.symm.trans ho')
      obtain ⟨rfl, rfl⟩ := ih hn
      exact ihr hm
  | sign hg _ _ _ ih =>
    cases h' with
    | sign hg' _ hx _ =>
      obtain rfl := Option.some.inj (hg.symm.trans hg')
      obtain ⟨rfl, rfl⟩ := ih hx
      exact ⟨rfl, rfl⟩
    | unsigned hn _ => simp [hg] at hn
  | unsigned hn _ ih =>
    cases h' with
    | sign hg _ _ _ => simp [hn] at hg
    | unsigned _ hx => exact ih hx
  | number hk =>
    cases h' with
    | number _ => exact ⟨rfl, rfl⟩
    | ans hk' => simp [hk] at hk'
    | opened hk' _ => simp [hk] at hk'
  | ans hk =>
    cases h' with
    | number hk' => simp [hk] at hk'
    | ans _ => exact ⟨rfl, rfl⟩
    | opened hk' _ => simp [hk] at hk'
  | opened hk _ ih =>
    cases h' with
    | number hk' => simp [hk] at hk'
    | ans hk' => simp [hk] at hk'
    | opened _ hx => exact ih hx
  | closed _ _ _ ih =>
    cases h' with
    | closed _ hx _ =>
      obtain ⟨rfl, hq⟩ := ih hx
      cases hq
      exact ⟨rfl, rfl⟩

theorem Reads.not_fails (h : Reads limit c d s x r) (e : ParseError) :
    ¬ Fails limit size c d s e := by
  induction h with
  | spine hf _ ih ihr =>
    intro h'
    cases h' with
    | lex ha => cases ha
    | ended ha => cases ha
    | first hf' => exact ih hf'
    | rest hf' hm =>
      obtain ⟨rfl, rfl⟩ := hf.unique hf'
      exact ihr hm
  | done hs =>
    intro h'
    cases h' with
    | lex _ => simp at hs
    | ended ha => cases ha
    | operand ho _ => simp [ho] at hs
    | tall ho _ _ => simp [ho] at hs
    | onward ho _ _ _ => simp [ho] at hs
  | joined ho hn ha _ ih ihr =>
    intro h'
    cases h' with
    | operand _ hn' => exact ih hn'
    | tall ho' hn' ha' =>
      obtain rfl := Option.some.inj (ho.symm.trans ho')
      obtain ⟨rfl, rfl⟩ := hn.unique hn'
      exact ha' ha
    | onward ho' hn' _ hm =>
      obtain rfl := Option.some.inj (ho.symm.trans ho')
      obtain ⟨rfl, rfl⟩ := hn.unique hn'
      exact ihr hm
  | sign hg hd hx ha ih =>
    intro h'
    cases h' with
    | signNested _ hd' => exact hd' hd
    | signOperand _ _ hx' => exact ih hx'
    | signTall hg' _ hx' ha' =>
      obtain rfl := Option.some.inj (hg.symm.trans hg')
      obtain ⟨rfl, rfl⟩ := hx.unique hx'
      exact ha' ha
    | unsigned hn _ => simp [hg] at hn
  | unsigned hn _ ih =>
    intro h'
    cases h' with
    | signNested hg _ => simp [hn] at hg
    | signOperand hg _ _ => simp [hn] at hg
    | signTall hg _ _ _ => simp [hn] at hg
    | unsigned _ hx => exact ih hx
  | number hk =>
    intro h'
    cases h' with
    | noOperand hk' _ _ => exact hk' hk
    | opened hk' _ => simp [hk] at hk'
  | ans hk =>
    intro h'
    cases h' with
    | noOperand _ hk' _ => exact hk' hk
    | opened hk' _ => simp [hk] at hk'
  | opened hk _ ih =>
    intro h'
    cases h' with
    | noOperand _ _ hk' => exact hk' hk
    | opened _ hx => exact ih hx
  | closed hd hx hc ih =>
    intro h'
    cases h' with
    | lex ha => cases ha
    | ended ha => cases ha
    | groupNested hd' => exact hd' hd
    | inside _ hx' => exact ih hx'
    | lexAfter _ hx' => cases (hx.unique hx').2
    | unclosed _ hx' hu =>
      obtain ⟨rfl, rfl⟩ := hx.unique hx'
      exact hu hc

theorem Fails.unique {e' : ParseError} (h : Fails limit size c d s e)
    (h' : Fails limit size c d s e') : e' = e := by
  induction h with
  | lex ha =>
    cases h' with
    | lex _ => rfl
    | first _ | rest _ _ | groupNested _ | inside _ _ | lexAfter _ _ | unclosed _ _ _ => cases ha
  | ended ha =>
    cases h' with
    | ended _ => rfl
    | first _ | rest _ _ | groupNested _ | inside _ _ | lexAfter _ _ | unclosed _ _ _ => cases ha
  | first hf ih =>
    cases h' with
    | lex ha | ended ha => cases ha
    | first hf' => exact ih hf'
    | rest hx _ => exact absurd hf (hx.not_fails _)
  | rest hx _ ih =>
    cases h' with
    | lex ha | ended ha => cases ha
    | first hf' => exact absurd hf' (hx.not_fails _)
    | rest hx' hm' =>
      obtain ⟨rfl, rfl⟩ := hx.unique hx'
      exact ih hm'
  | operand _ hf ih =>
    cases h' with
    | operand _ hf' => exact ih hf'
    | tall _ hy _ => exact absurd hf (hy.not_fails _)
    | onward _ hy _ _ => exact absurd hf (hy.not_fails _)
  | tall ho hy ha =>
    cases h' with
    | operand _ hf' => exact absurd hf' (hy.not_fails _)
    | tall _ _ _ => rfl
    | onward ho' hy' ha' _ =>
      obtain rfl := Option.some.inj (ho.symm.trans ho')
      obtain ⟨rfl, rfl⟩ := hy.unique hy'
      exact absurd ha' ha
  | onward ho hy ha _ ih =>
    cases h' with
    | operand _ hf' => exact absurd hf' (hy.not_fails _)
    | tall ho' hy' ha' =>
      obtain rfl := Option.some.inj (ho.symm.trans ho')
      obtain ⟨rfl, rfl⟩ := hy.unique hy'
      exact absurd ha ha'
    | onward ho' hy' _ hm' =>
      obtain rfl := Option.some.inj (ho.symm.trans ho')
      obtain ⟨rfl, rfl⟩ := hy.unique hy'
      exact ih hm'
  | signNested hg hd =>
    cases h' with
    | signNested _ _ => rfl
    | signOperand _ hd' _ | signTall _ hd' _ _ => exact absurd hd' hd
    | unsigned hn _ => simp [hg] at hn
  | signOperand hg hd hf ih =>
    cases h' with
    | signNested _ hd' => exact absurd hd hd'
    | signOperand _ _ hf' => exact ih hf'
    | signTall _ _ hx' _ => exact absurd hf (hx'.not_fails _)
    | unsigned hn _ => simp [hg] at hn
  | signTall hg hd hx ha =>
    cases h' with
    | signNested _ hd' => exact absurd hd hd'
    | signOperand _ _ hf' => exact absurd hf' (hx.not_fails _)
    | signTall _ _ _ _ => rfl
    | unsigned hn _ => simp [hg] at hn
  | unsigned hn _ ih =>
    cases h' with
    | signNested hg _ | signOperand hg _ _ | signTall hg _ _ _ => simp [hn] at hg
    | unsigned _ hf' => exact ih hf'
  | noOperand _ _ hk =>
    cases h' with
    | noOperand _ _ _ => rfl
    | opened hk' _ => exact absurd hk' hk
  | opened hk _ ih =>
    cases h' with
    | noOperand _ _ hk' => exact absurd hk hk'
    | opened _ hf' => exact ih hf'
  | groupNested hd =>
    cases h' with
    | lex ha | ended ha => cases ha
    | groupNested _ => rfl
    | inside hd' _ | lexAfter hd' _ | unclosed hd' _ _ => exact absurd hd' hd
  | inside hd hf ih =>
    cases h' with
    | lex ha | ended ha => cases ha
    | groupNested hd' => exact absurd hd hd'
    | inside _ hf' => exact ih hf'
    | lexAfter _ hx | unclosed _ hx _ => exact absurd hf (hx.not_fails _)
  | lexAfter hd hx =>
    cases h' with
    | lex ha | ended ha => cases ha
    | groupNested hd' => exact absurd hd hd'
    | inside _ hf' => exact absurd hf' (hx.not_fails _)
    | lexAfter _ hx' =>
      cases (hx.unique hx').2
      rfl
    | unclosed _ hx' hu =>
      obtain ⟨rfl, rfl⟩ := hx.unique hx'
      exact hu.elim
  | unclosed hd hx hu =>
    cases h' with
    | lex ha | ended ha => cases ha
    | groupNested hd' => exact absurd hd hd'
    | inside _ hf' => exact absurd hf' (hx.not_fails _)
    | lexAfter _ hx' =>
      obtain ⟨rfl, rfl⟩ := hx.unique hx'
      exact hu.elim
    | unclosed _ _ _ => rfl

end Reading
end DeskCalculator
