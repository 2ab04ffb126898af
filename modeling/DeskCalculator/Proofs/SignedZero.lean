import DeskCalculator.Proofs.Evaluation
import DeskCalculator.Proofs.Walks
import DeskCalculator.Proofs.Zeros
import DeskCalculator.Session.History

/-! Where negative zero cannot come from. A numeral is never negative, a sum or a difference is negative
zero only if its left operand is, and a minus sign subtracts from zero, which is positive. So only
products and quotients make a negative zero of values that are none. -/
namespace DeskCalculator

open Binary64

namespace Expr

theorem isAdditive_binary {op : BinaryOp} {l r : Expr} : (binary op l r).isAdditive = true ↔
    op.tier = .sum ∧ l.isAdditive = true ∧ r.isAdditive = true := by
  simp only [isAdditive, Bool.and_eq_true, beq_iff_eq, and_assoc]

theorem isAdditive_iff {x : Expr} (hx : x.IsComplete) :
    x.isAdditive = true ↔ ∀ op : BinaryOp, op.tier = .product → [op.symbol] ∉ x.words := by
  induction x with
  | hole => exact hx.elim
  | number t =>
    have hother (op : BinaryOp) : [op.symbol] ≠ t := by
      rintro rfl
      obtain ⟨d, hd⟩ := Decimal.exists_read? hx
      cases op <;> cases hd
    simp [isAdditive, words, hother]
  | ans => simp [isAdditive, words, Lexeme.answerWord]
  | binary op l r ihl ihr =>
    rw [isAdditive_binary, ihl hx.1, ihr hx.2]
    simp only [words, List.mem_append, List.mem_cons, not_or]
    constructor
    · rintro ⟨htier, hl, hr⟩ q hq
      refine ⟨hl q hq, fun heq => ?_, hr q hq⟩
      have hop := BinaryOp.symbol_injective (List.cons.inj heq).1
      rw [hop, htier] at hq
      cases hq
    · intro h
      refine ⟨?_, fun q hq => (h q hq).1, fun q hq => (h q hq).2.2⟩
      cases htier : op.tier with
      | sum => rfl
      | product => exact absurd rfl (h op htier).2.1
  | signed s x ih =>
    have hother (op : BinaryOp) (htier : op.tier = .product) : [op.symbol] ≠ [s.symbol] := by
      revert htier
      cases op <;> cases s <;> decide
    rw [isAdditive, ih hx]
    simp only [words, List.mem_cons, not_or]
    exact ⟨fun h op htier => ⟨hother op htier, h op htier⟩, fun h op htier => (h op htier).2⟩

end Expr

theorem exists_evaluate_numeral {w : Text} (h : IsNumeral w) (answer : Float) :
    ∃ v, (Expr.number w).evaluate answer = .ok v ∧ v ≠ -0.0 := by
  obtain ⟨p, hle, hp⟩ := Decimal.exists_readPlace? h
  refine ⟨ofPlace false p, Expr.evaluate_numeral h hp answer, fun hzero => ?_⟩
  have hsign := isNegative_ofPlace hle false
  rw [hzero] at hsign
  exact absurd hsign (by decide +kernel)

theorem zero_sub_ne (v : Float) : 0.0 - v ≠ -0.0 :=
  fun h => absurd (sub_eq_neg_zero h).1 (by decide +kernel)

namespace Expr

variable {x : Expr} {answer : Float}

theorem evaluate_negated_ne (hx : x.IsComplete) (answer : Float) :
    ∃ v, (signed .minus x).evaluate answer = .ok v ∧ v ≠ -0.0 := by
  obtain ⟨v, hv⟩ := exists_evaluate hx answer
  exact ⟨0.0 - v, by simp only [evaluate, hv]; rfl, zero_sub_ne v⟩

/-- One case for each kind of node: none makes a negative zero of operands that are none. -/
theorem evaluate_ne (hx : x.IsComplete) (hsum : x.isAdditive = true) (ha : answer ≠ -0.0) :
    ∃ v, x.evaluate answer = .ok v ∧ v ≠ -0.0 := by
  induction x with
  | hole => exact hx.elim
  | number t => exact exists_evaluate_numeral hx answer
  | ans => exact ⟨answer, rfl, ha⟩
  | binary op l r ihl ihr =>
    obtain ⟨htier, hl, hr⟩ := isAdditive_binary.1 hsum
    obtain ⟨v, hv, hvne⟩ := ihl hx.1 hl
    obtain ⟨w, hw, -⟩ := ihr hx.2 hr
    refine ⟨op.apply v w, by simp only [evaluate, hv, hw]; rfl, fun hzero => hvne ?_⟩
    cases op with
    | add => exact (add_eq_neg_zero hzero).1
    | sub => exact (sub_eq_neg_zero hzero).1
    | mul | div => cases htier
  | signed s x ih =>
    cases s with
    | minus => exact evaluate_negated_ne (x := x) hx answer
    | plus =>
      obtain ⟨v, hv, hne⟩ := ih hx hsum
      exact ⟨v, by simp only [evaluate, hv]; rfl, hne⟩

end Expr

namespace Session

variable {s : Session} {x : Expr} {line : Text}

theorem run_ans_ne (hs : s.ans ≠ -0.0) (hx : x.IsComplete) (hsum : x.isAdditive = true) :
    (s.run x).session.ans ≠ -0.0 := by
  obtain ⟨v, hv, hne⟩ := Expr.evaluate_ne hx hsum hs
  rw [(s.run_of_evaluate hv).2]
  exact hne

theorem runLine_ans_ne (hs : s.ans ≠ -0.0)
    (hline : ∀ x, parse line = .ok x → x.isAdditive = true) :
    (s.runLine line).session.ans ≠ -0.0 := by
  cases h : parse line with
  | error e => rwa [(s.runLine_of_parse_error h).2]
  | ok x =>
    rw [(s.runLine_of_parse_ok h).2]
    exact run_ans_ne hs (isComplete_of_parse h).1 (hline x h)

end Session

namespace Desk

/-- The last answer is not negative zero, and no tree that is kept can make it so. -/
structure IsAdditive (d : Desk) : Prop where
  ans_ne : d.session.ans ≠ -0.0
  trees : ∀ x ∈ d.trees, x.IsComplete ∧ x.isAdditive = true

variable {d : Desk}

theorem IsAdditive.step (h : d.IsAdditive) {r : Request} (hr : r.IsAdditive) :
    (d.step r).2.IsAdditive := by
  -- A tree that is kept from now on is as harmless as those before it.
  have hkept {x : Expr} (hx : x.IsComplete ∧ x.isAdditive = true) :
      ∀ y ∈ d.trees ++ [x], y.IsComplete ∧ y.isAdditive = true := by
    intro y hy
    rcases List.mem_append.1 hy with hy | hy
    · exact h.trees y hy
    · exact List.mem_singleton.1 hy ▸ hx
  cases r with
  | line t => exact ⟨Session.runLine_ans_ne h.ans_ne hr, h.trees⟩
  | parse t =>
    cases hp : DeskCalculator.parse t with
    | error e => simpa [Desk.step, hp] using h
    | ok x =>
      have hx := hkept ⟨(isComplete_of_parse hp).1, hr x hp⟩
      simpa [Desk.step, hp] using IsAdditive.mk (d := ⟨d.session, d.trees ++ [x]⟩) h.ans_ne hx
  | stored i =>
    cases hi : d.trees[i]? with
    | none => simpa [Desk.step, hi] using h
    | some x =>
      obtain ⟨hx, hsum⟩ := h.trees x (List.mem_of_getElem? hi)
      have hans := Session.run_ans_ne h.ans_ne hx hsum
      simpa [Desk.step, hi] using IsAdditive.mk (d := ⟨(d.session.run x).session, d.trees⟩) hans h.trees
  | tree x => exact ⟨Session.run_ans_ne h.ans_ne hr.1 hr.2, hkept hr⟩

theorem IsAdditive.after (h : d.IsAdditive) {rs : List Request}
    (hrs : ∀ r ∈ rs, r.IsAdditive) : (d.after rs).IsAdditive := by
  induction rs generalizing d with
  | nil => exact h
  | cons r rs ih =>
    exact ih (h.step (hrs r List.mem_cons_self)) fun q hq => hrs q (List.mem_cons_of_mem r hq)

end Desk

/-- A minus sign gives no negative zero, and neither do signs, sums and differences of a last answer that
is none, so a session that is given no product and no quotient never holds one. Whether a line has a
product or a quotient can be read off its words. -/
theorem negative_zero_free :
    (∀ s x, parse s = .ok (.signed .minus x) → ∀ answer,
      ∃ v, (Expr.signed .minus x).evaluate answer = .ok v ∧ v ≠ -0.0) ∧
    (∀ s x, parse s = .ok x → x.isAdditive = true → ∀ answer, answer ≠ -0.0 →
      ∃ v, x.evaluate answer = .ok v ∧ v ≠ -0.0) ∧
    (∀ s x, parse s = .ok x → (x.isAdditive = true ↔
      ∀ op : BinaryOp, op.tier = .product → [op.symbol] ∉ Token.words false s.tokens)) ∧
    ∀ rs : List Desk.Request, (∀ r ∈ rs, r.IsAdditive) →
      (Desk.new.after rs).session.ans ≠ -0.0 := by
  refine ⟨fun s x h answer => ?_, fun s x h hsum answer ha => ?_, fun s x h => ?_, fun rs hrs => ?_⟩
  · exact Expr.evaluate_negated_ne (x := x) (isComplete_of_parse h).1 answer
  · exact Expr.evaluate_ne (isComplete_of_parse h).1 hsum ha
  · rw [← words_of_parse h]
    exact Expr.isAdditive_iff (isComplete_of_parse h).1
  · have hnew : Desk.new.IsAdditive := ⟨by decide +kernel, nofun⟩
    exact (hnew.after hrs).ans_ne

/-- The second line is kept and evaluated at the zero that the first one comes to. Its number is smaller
than any double but zero. -/
theorem negative_zero_free_underflow :
    let x : Expr := .binary .sub (.signed .plus .ans) (.number "1e-400".toList)
    let rs : List Desk.Request := [.line "-0".toList, .parse "+ans-1e-400".toList, .stored 0]
    parse "-0".toList = .ok (.signed .minus (.number ['0'])) ∧
    (∃ v, (Expr.signed .minus (.number ['0'])).evaluate (-0.0) = .ok v ∧ v ≠ -0.0) ∧
    parse "+ans-1e-400".toList = .ok x ∧ (∃ v, x.evaluate 0.0 = .ok v ∧ v ≠ -0.0) ∧
    (∀ op : BinaryOp, op.tier = .product →
      [op.symbol] ∉ Token.words false (Text.tokens "+ans-1e-400".toList)) ∧
    (Desk.new.after rs).session.ans ≠ -0.0 := by
  intro x rs
  obtain ⟨hminus, hsum, hwords, hsession⟩ := negative_zero_free
  have hfirst : parse "-0".toList = .ok (.signed .minus (.number ['0'])) := by decide +kernel
  have hsecond : parse "+ans-1e-400".toList = .ok x := by decide +kernel
  have hrs : ∀ r ∈ rs, r.IsAdditive := by
    simp only [rs, List.forall_mem_cons, Desk.Request.IsAdditive, hfirst, hsecond]
    refine ⟨?_, ?_, trivial, nofun⟩
    all_goals
      rintro y hy
      cases hy
      rfl
  exact ⟨hfirst, hminus _ _ hfirst _, hsecond, hsum _ _ hsecond rfl _ (by decide +kernel),
    (hwords _ _ hsecond).1 rfl, hsession rs hrs⟩

/-- A product does give negative zero. -/
example : (Session.new.runLine "0*-1".toList).session.ans = -0.0 := by decide +kernel

end DeskCalculator
