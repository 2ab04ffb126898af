import DeskCalculator.Expression.Grammar
import DeskCalculator.Proofs.Outcome

/-! The parser reads what the grammar derives, and nothing else. What is read is derived by
induction on the rules of reading; what is derived is read by induction on the derivation, where a
chain is followed by anything that can be joined to it. -/
namespace DeskCalculator
namespace Reading

def Joint.part : Joint → Part
  | .operator tier => .chain tier
  | .adjacent => .primary

/-- The tokens that a call takes derive the tree it reads. What stands to the left of joined
operands has been derived before. -/
def Call.Derived : Call → List Token → Expr → Nat → Prop
  | .spine j, ts, x, n => Derives j.part ts x n
  | .more j left, ts, x, n =>
    ∀ ls m, Derives j.part ls left m → Derives j.part (ls ++ ts) x (max m n)
  | .signed, ts, x, n => Derives .signed ts x n
  | .atom, ts, x, n => Derives .primary ts x n
  | .group _, ts, x, n => ∃ us c k, ts = us ++ [c] ∧ c.kind = .closeParen ∧
      Derives (.chain .sum) us x k ∧ n = k + 1

variable {limit : Limit} {j : Joint} {c : Call} {d m n : Nat} {s r : List Item}
  {ls rs ts : List Token} {t : Token} {op : BinaryOp} {x y : Expr}

theorem derives_of_first (h : j.first.Derived ts x n) : Derives j.part ts x n := by
  cases j with
  | operator tier =>
    cases tier with
    | sum => exact .operand h
    | product => exact .operand h
  | adjacent => exact h

theorem op?_operator {tier : Tier} {k : TokenKind} :
    (Joint.operator tier).op? k = some op ↔ k.operator? = some op ∧ op.tier = tier := by
  simp [Joint.op?, Option.filter_eq_some_iff]

theorem op?_adjacent {k : TokenKind} :
    Joint.adjacent.op? k = some op ↔ k = .openParen ∧ op = .mul := by
  simp only [Joint.op?, Option.ite_none_right_eq_some, Option.some.injEq]
  exact and_congr_right fun _ => eq_comm

theorem derives_joined (hl : Derives j.part ls x m) (ho : j.op? t.kind = some op)
    (hr : (j.next t).Derived rs y n) :
    Derives j.part (ls ++ t :: rs) (.binary op x y) (max m n) := by
  cases j with
  | operator tier =>
    obtain ⟨hk, ht⟩ := op?_operator.1 ho
    have hy : Derives tier.operands rs y n := by
      cases tier with
      | sum => exact hr
      | product => exact hr
    exact .join hl hk ht hy
  | adjacent =>
    obtain ⟨hk, rfl⟩ := op?_adjacent.1 ho
    obtain ⟨us, c, k, rfl, hc, hy, rfl⟩ := hr
    exact .juxtaposed hl hk hy hc

/-- What a call reads is derived by the tokens that it takes, and these nest no deeper than the
limit allows. -/
theorem Reads.derived (h : Reads limit c d s x r) :
    ∃ ts n, s = ts.map .ok ++ r ∧ c.Derived ts x n ∧
      (limit.allows d = true → limit.allows (d + n) = true) := by
  induction h with
  | spine _ _ ih ihr =>
    obtain ⟨ts, m, rfl, hx, hm⟩ := ih
    obtain ⟨us, n, rfl, hy, hn⟩ := ihr
    refine ⟨ts ++ us, max m n, by simp, hy _ _ (derives_of_first hx), fun hd => ?_⟩
    rw [← Nat.add_max_add_left]
    exact Limit.allows_max (hm hd) (hn hd)
  | done _ =>
    refine ⟨[], 0, rfl, fun ls m hl => ?_, id⟩
    simpa using hl
  | @joined _ _ t _ _ _ _ _ _ _ ho _ _ _ ih ihr =>
    obtain ⟨ts, m, rfl, hy, hm⟩ := ih
    obtain ⟨us, n, rfl, hz, hn⟩ := ihr
    refine ⟨t :: ts ++ us, max m n, by simp, fun ls k hl => ?_, fun hd => ?_⟩
    · have hjoined := hz _ _ (derives_joined hl ho hy)
      simpa [Nat.max_assoc] using hjoined
    · rw [← Nat.add_max_add_left]
      exact Limit.allows_max (hm hd) (hn hd)
  | @sign d t _ _ _ _ hg hd _ _ ih =>
    obtain ⟨ts, n, rfl, hx, hn⟩ := ih
    refine ⟨t :: ts, n + 1, rfl, .sign hg hx, fun _ => ?_⟩
    have hdn := hn hd
    rwa [Nat.add_right_comm] at hdn
  | unsigned _ _ ih =>
    obtain ⟨ts, n, hs, hx, hn⟩ := ih
    exact ⟨ts, n, hs, .unsigned hx, hn⟩
  | @number _ t _ hk => exact ⟨[t], 0, rfl, .number hk, id⟩
  | @ans _ t _ hk => exact ⟨[t], 0, rfl, .ans hk, id⟩
  | @opened _ t _ _ _ hk _ ih =>
    obtain ⟨_, _, rfl, ⟨us, c, k, rfl, hc, hx, rfl⟩, hn⟩ := ih
    exact ⟨t :: (us ++ [c]), k + 1, rfl, .group hk hx hc, hn⟩
  | @closed d _ c _ _ _ hd _ hc ih =>
    obtain ⟨ts, n, rfl, hx, hn⟩ := ih
    refine ⟨ts ++ [c], n + 1, by simp, ⟨ts, c, n, rfl, hc, hx, rfl⟩, fun _ => ?_⟩
    have hdn := hn hd
    rwa [Nat.add_right_comm] at hdn

/-- The tree that a call is given has been checked. -/
def Call.Fits (limit : Limit) : Call → Prop
  | .more _ left => limit.allows left.height = true
  | _ => True

theorem fits_first : j.first.Fits limit := by
  cases j with
  | operator tier => cases tier <;> trivial
  | adjacent => trivial

theorem Reads.allows_height (h : Reads limit c d s x r) (hleaf : limit.allows 1 = true)
    (hc : c.Fits limit) : limit.allows x.height = true := by
  induction h with
  | spine _ _ ih ihr => exact ihr (ih fits_first)
  | done _ => exact hc
  | joined _ _ ha _ _ ihr => exact ihr ha
  | sign _ _ _ ha _ => exact ha
  | unsigned _ _ ih => exact ih trivial
  | number _ => exact hleaf
  | ans _ => exact hleaf
  | opened _ _ ih => exact ih trivial
  | closed _ _ _ ih => exact ih trivial

/-! What has been read ends where the next item is not joined to it, nor to the last operand in
it. -/

def Call.Ends : Call → List Item → Prop
  | .spine j, s | .more j _, s => j.part.Ends s
  | .signed, s => Part.signed.Ends s
  | .atom, _ | .group _, _ => True

theorem ends_iff : j.part.Ends s ↔ j.Stops s ∧ j.first.Ends s := by
  cases s with
  | nil =>
    cases j with
    | operator tier => cases tier <;> exact ⟨fun _ => ⟨trivial, trivial⟩, fun _ => trivial⟩
    | adjacent => exact ⟨fun _ => ⟨trivial, trivial⟩, fun _ => trivial⟩
  | cons i s =>
    cases i with
    | error e => exact ⟨False.elim, fun h => h.1.elim⟩
    | ok t =>
      cases j with
      | operator tier =>
        cases tier <;> cases hk : t.kind <;>
          simp [Joint.part, Joint.first, Call.Ends, Part.Ends, Part.goesOn, Joint.op?, hk,
            TokenKind.operator?, BinaryOp.tier]
      | adjacent =>
        cases hk : t.kind <;>
          simp [Joint.part, Joint.first, Call.Ends, Part.Ends, Part.goesOn, Joint.op?, hk]

theorem ends_next : (j.next t).Ends s ↔ j.first.Ends s := by
  cases j with
  | operator tier => rw [Joint.next_operator]
  | adjacent => rfl

theorem first_ends_of_op? (h : j.op? t.kind = some op) : j.first.Ends (.ok t :: s) := by
  cases j with
  | operator tier =>
    obtain ⟨hk, rfl⟩ := op?_operator.1 h
    cases hkind : t.kind <;> simp [hkind, TokenKind.operator?] at hk <;> subst hk <;>
      simp [Joint.first, Call.Ends, Joint.part, Part.Ends, Part.goesOn, hkind,
        TokenKind.operator?, BinaryOp.tier]
  | adjacent => trivial

theorem next_ne_more (i : Joint) (left : Expr) : j.next t ≠ .more i left := by
  cases j with
  | operator tier => cases tier <;> nofun
  | adjacent => nofun

theorem first_ne_more (i : Joint) (left : Expr) : j.first ≠ .more i left := by
  cases j with
  | operator tier => cases tier <;> nofun
  | adjacent => nofun

theorem Reads.ends (h : Reads limit c d s x r) :
    (∀ j left, c = .more j left → j.first.Ends s) → c.Ends r := by
  induction h with
  | spine _ _ ih ihr =>
    intro _
    refine ihr fun j' left hj => ?_
    cases hj
    exact ih fun i left hi => absurd hi (first_ne_more i left)
  | done hs =>
    intro hc
    exact ends_iff.2 ⟨hs, hc _ _ rfl⟩
  | joined _ _ _ _ ih ihr =>
    intro _
    refine ihr fun j' left hj => ?_
    cases hj
    exact ends_next.1 (ih fun i left hi => absurd hi (next_ne_more i left))
  | sign _ _ _ _ ih => exact fun _ => ih (by simp)
  | unsigned _ _ ih => exact fun _ => Part.ends_signed_iff.2 (ih (by simp))
  | number _ => exact fun _ => trivial
  | ans _ => exact fun _ => trivial
  | opened _ _ _ => exact fun _ => trivial
  | closed _ _ _ _ => exact fun _ => trivial

theorem Reads.ends_expression (h : Reads limit .expression d s x r) : (Part.chain .sum).Ends r :=
  h.ends (by simp)

theorem reads_spine_iff {m : List Item} (hx : Reads limit j.first d s x m) :
    Reads limit (.spine j) d s y r ↔ Reads limit (.more j x) d m y r := by
  constructor
  · intro h
    cases h with
    | spine hx' hm =>
      obtain ⟨rfl, rfl⟩ := hx.unique hx'
      exact hm
  · intro hm
    exact .spine hx hm

theorem reads_more_iff {m : List Item} {z : Expr} (ho : j.op? t.kind = some op)
    (hy : Reads limit (j.next t) d s y m)
    (ha : limit.allows (Expr.binary op x y).height = true) :
    Reads limit (.more j x) d (.ok t :: s) z r ↔
      Reads limit (.more j (.binary op x y)) d m z r := by
  constructor
  · intro h
    cases h with
    | done hs => simp [ho] at hs
    | joined ho' hy' _ hm =>
      obtain rfl := Option.some.inj (ho.symm.trans ho')
      obtain ⟨rfl, rfl⟩ := hy.unique hy'
      exact hm
  · intro hm
    exact .joined ho hy ha hm

/-- The tokens `ts`, which stand before what the rest of the operands is read from, are read as the
leftmost operands. -/
def SpineReads (limit : Limit) (j : Joint) (ts : List Token) (x : Expr) (n : Nat) : Prop :=
  ∀ d rest z r, limit.allows (d + n) = true → j.first.Ends rest →
    (Reads limit (.spine j) d (ts.map .ok ++ rest) z r ↔ Reads limit (.more j x) d rest z r)

def PartReads (limit : Limit) : Part → List Token → Expr → Nat → Prop
  | .chain tier, ts, x, n => SpineReads limit (.operator tier) ts x n
  | .primary, ts, x, n => SpineReads limit .adjacent ts x n
  | .signed, ts, x, n => ∀ d rest, limit.allows (d + n) = true → Part.signed.Ends rest →
      Reads limit .signed d (ts.map .ok ++ rest) x rest

theorem SpineReads.reads (h : SpineReads limit j ts x n) (hd : limit.allows (d + n) = true)
    (hs : j.part.Ends s) : Reads limit (.spine j) d (ts.map .ok ++ s) x s :=
  (h _ _ _ _ hd (ends_iff.1 hs).2).2 (.done (ends_iff.1 hs).1)

theorem PartReads.operand {tier : Tier} (h : PartReads limit tier.operands ts x n)
    (hd : limit.allows (d + n) = true) (hs : (Joint.operator tier).first.Ends s) :
    Reads limit (Joint.operator tier).first d (ts.map .ok ++ s) x s := by
  cases tier with
  | sum => exact SpineReads.reads h hd hs
  | product => exact h d s hd hs

theorem head_of_primary (h : Derives .primary ts x n) :
    ∃ t us, ts = t :: us ∧ t.kind.sign? = none := by
  generalize hp : Part.primary = p at h
  induction h with
  | operand _ _ => cases hp
  | join _ _ _ _ _ _ => cases hp
  | unsigned _ _ => cases hp
  | sign _ _ _ => cases hp
  | @number t hk => exact ⟨t, [], rfl, by simp [hk, TokenKind.sign?]⟩
  | @ans t hk => exact ⟨t, [], rfl, by simp [hk, TokenKind.sign?]⟩
  | @group o c us _ _ hk _ _ _ => exact ⟨o, us ++ [c], rfl, by simp [hk, TokenKind.sign?]⟩
  | juxtaposed _ _ _ _ ih _ =>
    obtain ⟨t, us, rfl, ht⟩ := ih rfl
    exact ⟨t, _, rfl, ht⟩

theorem expression_ends_of_close (ht : t.kind = .closeParen) :
    (Joint.operator .sum).part.Ends (.ok t :: s) := by
  simp [Joint.part, Part.Ends, Part.goesOn, ht, TokenKind.operator?]

theorem SpineReads.group {o e : Token} {rest : List Item}
    (h : SpineReads limit (.operator .sum) ts x n) (hd : limit.allows (d + (n + 1)) = true)
    (he : e.kind = .closeParen) :
    Reads limit (.group o) d (ts.map .ok ++ .ok e :: rest) x rest := by
  have hinner : Reads limit .expression (d + 1) (ts.map .ok ++ .ok e :: rest) x (.ok e :: rest) :=
    h.reads (by rwa [Nat.add_right_comm]) (expression_ends_of_close he)
  exact .closed (Limit.allows_of_le hd (by omega)) hinner he

/-- What is derived is read, if it keeps to the limit. -/
theorem reads_of_derives {p : Part} (h : Derives p ts x n) (hx : limit.allows x.height = true) :
    PartReads limit p ts x n := by
  induction h with
  | operand _ ih =>
    intro d rest z r hd hs
    exact reads_spine_iff ((ih hx).operand hd hs)
  | @join tier ls rs t op x y m n _ ho ht _ ihl ihr =>
    intro d rest z r hd hs
    have hj : (Joint.operator tier).op? t.kind = some op := op?_operator.2 ⟨ho, ht⟩
    simp only [Expr.height] at hx
    have hright : Reads limit ((Joint.operator tier).next t) d (rs.map .ok ++ rest) y rest := by
      rw [Joint.next_operator]
      exact (ihr (Limit.allows_of_le hx (by omega))).operand
        (Limit.allows_of_le hd (by omega)) hs
    have hleft := ihl (Limit.allows_of_le hx (by omega)) d (.ok t :: (rs.map .ok ++ rest)) z r
      (Limit.allows_of_le hd (by omega)) (first_ends_of_op? hj)
    have hmore := hleft.trans (reads_more_iff hj hright (by simpa only [Expr.height] using hx))
    simpa using hmore
  | unsigned h ih =>
    intro d rest hd hs
    have hread := SpineReads.reads (ih hx) hd (Part.ends_signed_iff.1 hs)
    obtain ⟨t, us, rfl, ht⟩ := head_of_primary h
    exact .unsigned ht hread
  | @sign t sg ts x n hg _ ih =>
    intro d rest hd hs
    have hinner := ih (Limit.allows_of_le hx (by simp [Expr.height])) (d + 1) rest
      (by rwa [Nat.add_right_comm]) hs
    exact .sign hg (Limit.allows_of_le hd (by omega)) hinner hx
  | number hk =>
    intro d rest z r _ _
    exact reads_spine_iff (.number hk)
  | ans hk =>
    intro d rest z r _ _
    exact reads_spine_iff (.ans hk)
  | @group o c ts x n ho _ hc ih =>
    intro d rest z r hd _
    have hgroup : Reads limit (.group o) d (ts.map .ok ++ .ok c :: rest) x rest :=
      SpineReads.group (ih hx) hd hc
    have hatom : Reads limit .atom d (.ok o :: (ts.map .ok ++ .ok c :: rest)) x rest :=
      .opened ho hgroup
    have hspine := reads_spine_iff (j := .adjacent) (y := z) (r := r) hatom
    simpa using hspine
  | @juxtaposed o c ls ts x y m n _ ho _ hc ihl ihr =>
    intro d rest z r hd _
    simp only [Expr.height] at hx
    have hgroup : Reads limit (.group o) d (ts.map .ok ++ .ok c :: rest) y rest :=
      SpineReads.group (ihr (Limit.allows_of_le hx (by omega)))
        (Limit.allows_of_le hd (by omega)) hc
    have hleft := ihl (Limit.allows_of_le hx (by omega)) d
      (.ok o :: (ts.map .ok ++ .ok c :: rest)) z r (Limit.allows_of_le hd (by omega)) trivial
    have hmore := hleft.trans (reads_more_iff (op?_adjacent.2 ⟨ho, rfl⟩) hgroup
      (by simpa only [Expr.height] using hx))
    simpa using hmore

end Reading

open Reading

theorem Derives.unique {p : Part} {ts : List Token} {x y : Expr} {m n : Nat}
    (hx : Derives p ts x m) (hy : Derives p ts y n) : x = y := by
  have hx' : PartReads none p ts x m := reads_of_derives hx rfl
  have hy' : PartReads none p ts y n := reads_of_derives hy rfl
  cases p with
  | chain tier =>
    have h := SpineReads.reads (d := 0) hx' rfl (Part.ends_nil _)
    exact ((SpineReads.reads hy' rfl (Part.ends_nil _)).unique h).1
  | primary =>
    have h := SpineReads.reads (d := 0) hx' rfl (Part.ends_nil _)
    exact ((SpineReads.reads hy' rfl (Part.ends_nil _)).unique h).1
  | signed => exact ((hy' 0 [] rfl (Part.ends_nil _)).unique (hx' 0 [] rfl (Part.ends_nil _))).1

theorem Parser.run_eq_ok_iff_derives {limit : Limit} (hleaf : limit.allows 1 = true) {s : Text}
    {x : Expr} :
    (run limit s).1 = .ok x ↔ ∃ ts n, Scan.all 0 s = ts.map .ok ∧
      Derives (.chain .sum) ts x n ∧ limit.allows n = true ∧ limit.allows x.height = true := by
  rw [run_eq_ok_iff]
  constructor
  · intro h
    obtain ⟨ts, n, hs, hx, hn⟩ := h.derived
    rw [Nat.zero_add] at hn
    have hzero : limit.allows 0 = true := Limit.allows_of_le hleaf (Nat.zero_le 1)
    exact ⟨ts, n, by simpa using hs, hx, hn hzero, h.allows_height hleaf trivial⟩
  · rintro ⟨ts, n, hs, hx, hn, hheight⟩
    have h := SpineReads.reads (d := 0) (reads_of_derives hx hheight) (by rwa [Nat.zero_add])
      (Part.ends_nil _)
    simpa [hs] using h

theorem parse_ok_iff {s : Text} {x : Expr} :
    parse s = .ok x ↔ ∃ ts n, Scan.all 0 s = ts.map .ok ∧
      Derives (.chain .sum) ts x n ∧ n ≤ maxDepth ∧ x.height ≤ maxDepth := by
  have h : (Parser.run (some maxDepth) s).1 = .ok x ↔ _ :=
    Parser.run_eq_ok_iff_derives (by decide)
  simpa only [parse, Limit.allows_some] using h

/-- A text is read as the tree `x` if and only if it is all tokens, these derive `x`, no sign and
no group is nested deeper than the limit, and `x` is not taller. Tokens derive no other tree. -/
theorem parse_eq_ok_iff_derives (s : Text) (x : Expr) :
    (parse s = .ok x ↔ ∃ ts n, Scan.all 0 s = ts.map .ok ∧
      Derives (.chain .sum) ts x n ∧ n ≤ maxDepth ∧ x.height ≤ maxDepth) ∧
    ∀ ts y m n, Derives (.chain .sum) ts x m → Derives (.chain .sum) ts y n → x = y := by
  refine ⟨parse_ok_iff, ?_⟩
  intro ts y m n hx hy
  exact hx.unique hy

end DeskCalculator
