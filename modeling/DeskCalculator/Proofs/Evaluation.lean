import DeskCalculator.Proofs.Literals
import DeskCalculator.Proofs.Printing
import DeskCalculator.Session.Basic
import Mathlib.Control.Monad.Basic

/-! Every expression that a text is read as has a value, whatever the last answer is. A tree that is
read has no holes, and each of its numbers is a numeral, which is a text that has a value. -/
namespace DeskCalculator
namespace Expr

variable {t : Text} {x : Expr}

theorem faults_number_of_isLiteral (h : Literal.IsLiteral t) : (number t).faults = [] := by
  rw [faults, if_pos (Literal.isSome_read?_iff.2 h)]

theorem faults_number (h : ¬ Literal.IsLiteral t) : (number t).faults = [.malformedLiteral t] := by
  rw [faults, if_neg (mt Literal.isSome_read?_iff.1 h)]

theorem exists_evaluate_of_faults (answer : Float) (h : x.faults = []) :
    ∃ v, x.evaluate answer = .ok v := by
  induction x with
  | hole => cases h
  | number t =>
    rw [faults] at h
    split at h
    · rename_i ht
      obtain ⟨v, hv⟩ := Option.isSome_iff_exists.1 ht
      exact ⟨v, by simp [evaluate, hv]⟩
    · cases h
  | ans => exact ⟨answer, rfl⟩
  | binary op l r ihl ihr =>
    rw [faults, List.append_eq_nil_iff] at h
    obtain ⟨v, hv⟩ := ihl h.1
    obtain ⟨w, hw⟩ := ihr h.2
    exact ⟨op.apply v w, by simp only [evaluate, hv, hw]; rfl⟩
  | signed s x ih =>
    obtain ⟨v, hv⟩ := ih h
    exact ⟨s.apply v, by simp only [evaluate, hv]; rfl⟩

theorem evaluate_numeral {p : Nat} (h : IsNumeral t) (hp : Literal.readPlace? t = some p)
    (answer : Float) : (number t).evaluate answer = .ok (Binary64.ofPlace false p) := by
  rw [evaluate, Literal.read?_unsigned (.inl h), hp]
  rfl

theorem IsComplete.faults_eq_nil (hx : x.IsComplete) : x.faults = [] := by
  induction x with
  | hole => exact hx.elim
  | number t =>
    have hliteral : Literal.IsLiteral t := .numeral .none hx
    exact faults_number_of_isLiteral hliteral
  | ans => rfl
  | binary op l r ihl ihr => rw [faults, ihl hx.1, ihr hx.2, List.append_nil]
  | signed s x ih => exact ih hx

theorem exists_evaluate (hx : x.IsComplete) (answer : Float) :
    ∃ v, x.evaluate answer = .ok v :=
  exists_evaluate_of_faults answer hx.faults_eq_nil

end Expr

/-- What a text is read as has a value for every last answer, infinities and what is no number
among them, so no line fails for another reason than that it is not read, whatever the session. -/
theorem evaluate_of_parse :
    (∀ s x, parse s = .ok x → ∀ answer, ∃ v, x.evaluate answer = .ok v) ∧
    ∀ (session : Session) (line : Text) (e : EvalError),
      (session.runLine line).result ≠ .error (.eval e) := by
  have hvalue : ∀ s x, parse s = .ok x → ∀ answer, ∃ v, x.evaluate answer = .ok v :=
    fun s x hx => Expr.exists_evaluate (isComplete_of_parse hx).1
  refine ⟨hvalue, fun session line e he => ?_⟩
  cases hx : parse line with
  | error e' =>
    rw [(session.runLine_of_parse_error hx).1] at he
    cases he
  | ok x =>
    obtain ⟨v, hv⟩ := hvalue line x hx session.ans
    rw [(session.runLine_of_evaluate hx hv).1] at he
    cases he

/-- A numeral may end with its point, or with the point before an exponent. -/
theorem evaluate_of_parse_pointed :
    parse "-1.e5(ans/0.)".toList = .ok (.signed .minus (.binary .mul (.number "1.e5".toList)
      (.binary .div .ans (.number "0.".toList)))) ∧
    ∀ answer, ∃ v, (Expr.signed .minus (.binary .mul (.number "1.e5".toList)
      (.binary .div .ans (.number "0.".toList)))).evaluate answer = .ok v := by
  have hparse : parse "-1.e5(ans/0.)".toList = .ok (.signed .minus
      (.binary .mul (.number "1.e5".toList) (.binary .div .ans (.number "0.".toList)))) := by
    decide +kernel
  exact ⟨hparse, evaluate_of_parse.1 _ _ hparse⟩

/-! Why an expression has no value. Evaluation ends with the first fault that a walk from left to
right comes to, and the last answer has no part in it. -/

namespace Expr

variable {t : Text} {x y l r : Expr} {op : BinaryOp} {sign : Sign} {p q : List Nat}
  {e f : EvalError}

/-- A right operand is only evaluated when nothing is wrong with the left one. -/
theorem evaluate_of_faults (answer : Float) {es : List EvalError} (h : x.faults = e :: es) :
    x.evaluate answer = .error e := by
  induction x generalizing es with
  | hole =>
    cases h
    rfl
  | number t =>
    rw [faults] at h
    split at h
    · cases h
    · rename_i ht
      cases h
      rw [Bool.not_eq_true, Option.isSome_eq_false_iff, Option.isNone_iff_eq_none] at ht
      simp [evaluate, ht]
  | ans => cases h
  | binary op l r ihl ihr =>
    rw [faults] at h
    rcases List.append_eq_cons_iff.1 h with ⟨hl, hr⟩ | ⟨es', hl, -⟩
    · obtain ⟨v, hv⟩ := exists_evaluate_of_faults answer hl
      simp only [evaluate, hv, ihr hr]
      rfl
    · simp only [evaluate, ihl hl]
      rfl
  | signed s x ih =>
    simp only [evaluate, ih h]
    rfl

namespace FaultAt

theorem binary_iff : (Expr.binary op l r).FaultAt p e ↔
    (∃ q, p = 0 :: q ∧ l.FaultAt q e) ∨ ∃ q, p = 1 :: q ∧ r.FaultAt q e := by
  constructor
  · intro h
    cases h with
    | @operand _ y i q _ hy hq =>
      match i, hy with
      | 0, hy =>
        obtain rfl := Option.some.inj hy
        exact .inl ⟨q, rfl, hq⟩
      | 1, hy =>
        obtain rfl := Option.some.inj hy
        exact .inr ⟨q, rfl, hq⟩
  · rintro (⟨q, rfl, hq⟩ | ⟨q, rfl, hq⟩)
    · exact .operand rfl hq
    · exact .operand rfl hq

theorem signed_iff : (Expr.signed sign x).FaultAt p e ↔ ∃ q, p = 0 :: q ∧ x.FaultAt q e := by
  constructor
  · intro h
    cases h with
    | @operand _ y i q _ hy hq =>
      match i, hy with
      | 0, hy =>
        obtain rfl := Option.some.inj hy
        exact ⟨q, rfl, hq⟩
  · rintro ⟨q, rfl, hq⟩
    exact .operand rfl hq

theorem unique (h : x.FaultAt p e) (h' : x.FaultAt p f) : e = f := by
  induction h with
  | hole =>
    cases h'
    rfl
  | number _ =>
    cases h'
    rfl
  | operand hy _ ih =>
    cases h' with
    | operand hy' h' =>
      obtain rfl := Option.some.inj (hy.symm.trans hy')
      exact ih h'

theorem eq_nil (h : x.FaultAt p e) (hx : x.operands = []) : p = [] := by
  cases h with
  | hole => rfl
  | number _ => rfl
  | operand hy _ =>
    rw [hx] at hy
    cases hy

end FaultAt

theorem LeftOf.asymm (h : LeftOf p q) : ¬ LeftOf q p := by
  induction p generalizing q with
  | nil => exact h.elim
  | cons i p ih =>
    cases q with
    | nil => exact h.elim
    | cons j q =>
      rcases h with hlt | ⟨rfl, h⟩
      · rintro (hgt | ⟨rfl, -⟩) <;> omega
      · rintro (hgt | ⟨-, h'⟩)
        · omega
        · exact ih h h'

theorem IsFirstFault.unique (h : x.IsFirstFault p e) (h' : x.IsFirstFault q f) : e = f := by
  have hpaths : q = p := by
    rcases h.leftOf q f h'.fault with hq | hq
    · exact hq
    · rcases h'.leftOf p e h.fault with hp | hp
      · exact hp.symm
      · exact absurd hp hq.asymm
  subst hpaths
  exact h.fault.unique h'.fault

/-- What comes first among the faults of an operand comes first among those on paths to it. -/
theorem IsFirstFault.leftOf_cons (h : x.IsFirstFault p e) (i : Nat) (hq : x.FaultAt q f) :
    i :: q = i :: p ∨ LeftOf (i :: p) (i :: q) := by
  rcases h.leftOf q f hq with rfl | hq
  · exact .inl rfl
  · exact .inr (.inr ⟨rfl, hq⟩)

theorem not_faultAt_of_faults (h : x.faults = []) (p : List Nat) (e : EvalError) :
    ¬ x.FaultAt p e := by
  induction x generalizing p with
  | hole => cases h
  | number t =>
    intro hp
    cases hp with
    | number ht =>
      rw [faults_number ht] at h
      cases h
    | operand hy _ => cases hy
  | ans =>
    intro hp
    cases hp with
    | operand hy _ => cases hy
  | binary op l r ihl ihr =>
    rw [faults, List.append_eq_nil_iff] at h
    rw [FaultAt.binary_iff]
    rintro (⟨q, -, hq⟩ | ⟨q, -, hq⟩)
    · exact ihl h.1 q hq
    · exact ihr h.2 q hq
  | signed s x ih =>
    rw [FaultAt.signed_iff]
    rintro ⟨q, -, hq⟩
    exact ih h q hq

theorem exists_isFirstFault {es : List EvalError} (h : x.faults = e :: es) :
    ∃ p, x.IsFirstFault p e := by
  induction x generalizing es with
  | hole =>
    cases h
    exact ⟨[], .hole, fun q f hq => .inl (hq.eq_nil rfl)⟩
  | number t =>
    by_cases ht : Literal.IsLiteral t
    · rw [faults_number_of_isLiteral ht] at h
      cases h
    · rw [faults_number ht] at h
      cases h
      exact ⟨[], .number ht, fun q f hq => .inl (hq.eq_nil rfl)⟩
  | ans => cases h
  | binary op l r ihl ihr =>
    rw [faults] at h
    rcases List.append_eq_cons_iff.1 h with ⟨hl, hr⟩ | ⟨es', hl, -⟩
    · obtain ⟨p, hp⟩ := ihr hr
      refine ⟨1 :: p, FaultAt.binary_iff.2 (.inr ⟨p, rfl, hp.fault⟩), fun q f hq => ?_⟩
      rcases FaultAt.binary_iff.1 hq with ⟨q', rfl, hq'⟩ | ⟨q', rfl, hq'⟩
      · exact absurd hq' (not_faultAt_of_faults hl q' f)
      · exact hp.leftOf_cons _ hq'
    · obtain ⟨p, hp⟩ := ihl hl
      refine ⟨0 :: p, FaultAt.binary_iff.2 (.inl ⟨p, rfl, hp.fault⟩), fun q f hq => ?_⟩
      rcases FaultAt.binary_iff.1 hq with ⟨q', rfl, hq'⟩ | ⟨q', rfl, hq'⟩
      · exact hp.leftOf_cons _ hq'
      · exact .inr (.inl Nat.zero_lt_one)
  | signed s x ih =>
    obtain ⟨p, hp⟩ := ih h
    refine ⟨0 :: p, FaultAt.signed_iff.2 ⟨p, rfl, hp.fault⟩, fun q f hq => ?_⟩
    obtain ⟨q', rfl, hq'⟩ := FaultAt.signed_iff.1 hq
    exact hp.leftOf_cons _ hq'

theorem IsSubtree.faults_eq_nil (h : y.IsSubtree x) (hx : x.faults = []) : y.faults = [] := by
  induction h with
  | refl => exact hx
  | left op r _ ih =>
    rw [faults, List.append_eq_nil_iff] at hx
    exact ih hx.1
  | right op l _ ih =>
    rw [faults, List.append_eq_nil_iff] at hx
    exact ih hx.2
  | signed s _ ih => exact ih hx

theorem faults_eq_nil_iff : x.faults = [] ↔
    ∀ y : Expr, y.IsSubtree x → y ≠ .hole ∧ ∀ t, y = .number t → Literal.IsLiteral t := by
  constructor
  · intro hx y hy
    have hfaults := hy.faults_eq_nil hx
    refine ⟨?_, ?_⟩
    · rintro rfl
      cases hfaults
    · rintro t rfl
      by_contra ht
      rw [faults_number ht] at hfaults
      cases hfaults
  · intro h
    induction x with
    | hole => exact absurd rfl (h _ .refl).1
    | number t => exact faults_number_of_isLiteral ((h _ .refl).2 t rfl)
    | ans => rfl
    | binary op l r ihl ihr =>
      rw [faults, ihl fun y hy => h y (.left op r hy), ihr fun y hy => h y (.right op l hy),
        List.append_nil]
    | signed s x ih => exact ih fun y hy => h y (.signed s hy)

theorem evaluate_eq_error_iff (answer : Float) :
    x.evaluate answer = .error e ↔ ∃ p, x.IsFirstFault p e := by
  cases hx : x.faults with
  | nil =>
    obtain ⟨v, hv⟩ := exists_evaluate_of_faults answer hx
    rw [hv]
    exact ⟨nofun, fun ⟨p, hp⟩ => absurd hp.fault (not_faultAt_of_faults hx p e)⟩
  | cons f es =>
    obtain ⟨q, hq⟩ := exists_isFirstFault hx
    rw [evaluate_of_faults answer hx, Except.error.injEq]
    exact ⟨fun hf => ⟨q, hf ▸ hq⟩, fun ⟨p, hp⟩ => hq.unique hp⟩

/-- An expression has a value if and only if nothing in it is a hole and the text of each number is a
literal. It fails with the error of the fault that a walk from left to right comes to first, where a
left operand is walked through before the right one. So the last answer does not decide whether it
fails or how. -/
theorem evaluate_first_fault (x : Expr) (answer : Float) :
    ((∃ v, x.evaluate answer = .ok v) ↔
      ∀ y : Expr, y.IsSubtree x → y ≠ .hole ∧ ∀ t, y = .number t → Literal.IsLiteral t) ∧
    (∀ e, x.evaluate answer = .error e ↔ ∃ p, x.IsFirstFault p e) ∧
    ∀ (other : Float) (e : EvalError),
      x.evaluate answer = .error e ↔ x.evaluate other = .error e := by
  refine ⟨?_, fun e => evaluate_eq_error_iff answer, fun other e => ?_⟩
  · rw [← faults_eq_nil_iff]
    constructor
    · rintro ⟨v, hv⟩
      cases hx : x.faults with
      | nil => rfl
      | cons e es =>
        rw [evaluate_of_faults answer hx] at hv
        cases hv
    · exact exists_evaluate_of_faults answer
  · rw [evaluate_eq_error_iff, evaluate_eq_error_iff]

/-- A number that has no value stands before the hole here, below a sign on the left. -/
example : (binary .mul (binary .add .ans (signed .minus (number "1e".toList)))
    (signed .plus hole)).faults = [.malformedLiteral "1e".toList, .emptyOperand] := by
  decide +kernel

end Expr
end DeskCalculator
