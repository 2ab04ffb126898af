import DeskCalculator.Proofs.Evaluation
import DeskCalculator.Proofs.Packing

/-! The texts of values as lines. The text of a finite value is a numeral, with a minus sign before it
if the value is negative, so it is read as that numeral or as its negation, and either has the value
again. Only negative zero does not come back, since what is subtracted from zero is never negative zero,
and what is not finite has no text that is read. -/
namespace DeskCalculator

open Binary64

section Numeral

variable {w : Text} {p : Nat}

theorem parse_numeral (h : IsNumeral w) : parse w = .ok (.number w) :=
  Parser.run_print (x := .number w) h rfl

theorem parse_negated (h : IsNumeral w) : parse ('-' :: w) = .ok (.signed .minus (.number w)) :=
  Parser.run_print (x := .signed .minus (.number w)) h rfl

theorem evaluate_negated (h : IsNumeral w) (hp : Literal.readPlace? w = some p) (answer : Float) :
    (Expr.signed .minus (.number w)).evaluate answer = .ok (0.0 - ofPlace false p) := by
  rw [Expr.evaluate, Expr.evaluate_numeral h hp]
  rfl

end Numeral

/-- Apart from its sign a finite value is written as a numeral that stands for its place. -/
theorem exists_valueText {v : Float} (h : v.isFinite = true) :
    ∃ w, valueText v = (if isNegative v then '-' :: w else w) ∧ IsNumeral w ∧
      Literal.readPlace? w = some (place v) := by
  have hplace := (isFinite_iff v).1 h
  have hbelow : ¬ infinity < place v := by omega
  by_cases hzero : place v = 0
  · refine ⟨['0'], ?_, Decimal.isNumeral_of_read? (d := ⟨0, 0⟩) rfl, ?_⟩
    · simp [valueText, hzero]
    · rw [hzero]
      rfl
  · obtain ⟨hw, hreads⟩ := Shortest.reads_ofPlace (Nat.le_of_lt hplace)
    refine ⟨Shortest.ofPlace (place v), ?_, hw, hreads⟩
    simp [valueText, hzero, hbelow, Nat.ne_of_lt hplace]

theorem zero_sub_magnitude {v : Float} (h : v.isFinite = true) (hn : isNegative v = true) :
    0.0 - ofPlace false (place v) = if v = -0.0 then 0.0 else v := by
  have hv := ofPlace_place v
  rw [hn] at hv
  rcases Nat.eq_zero_or_pos (place v) with hzero | hpos
  · rw [hzero] at hv ⊢
    have hnegative : v = -0.0 := hv.symm.trans (by decide +kernel)
    rw [if_pos hnegative]
    decide +kernel
  · have hne : v ≠ -0.0 := by
      rintro rfl
      exact absurd hpos (by decide +kernel)
    rw [if_neg hne, zero_sub_ofPlace hpos (Nat.le_of_lt ((isFinite_iff v).1 h)), hv]

theorem parse_valueText_of_not_finite {v : Float} (h : v.isFinite = false) :
    ∃ e, parse (valueText v) = .error (.lex e) := by
  have hplace : ¬ place v < infinity := fun hlt => by simp [(isFinite_iff v).2 hlt] at h
  have hinfinity : infinity ≠ 0 := by decide +kernel
  rcases Nat.lt_or_ge infinity (place v) with hbeyond | hle
  · have hparse : parse "NaN".toList = .error (.lex ⟨['N'], 0⟩) := by decide +kernel
    exact ⟨_, by simpa [valueText, hbeyond] using hparse⟩
  · have heq : place v = infinity := by omega
    cases hn : isNegative v with
    | false =>
      have hparse : parse "inf".toList = .error (.lex ⟨['i'], 0⟩) := by decide +kernel
      exact ⟨_, by simpa [valueText, heq, hinfinity, hn] using hparse⟩
    | true =>
      have hparse : parse "-inf".toList = .error (.lex ⟨['i'], 1⟩) := by decide +kernel
      exact ⟨_, by simpa [valueText, heq, hinfinity, hn] using hparse⟩

/-- Every finite value can be typed in again. Without its sign its text is a numeral, so the text is
read as a number, or as a number that is negated, and is evaluated to the value whatever the last answer
is. A session that printed the value as an answer is restored by any session that is given the text.
Only negative zero comes back as zero, and what is not finite is not read. -/
theorem parse_valueText (v : Float) :
    (v.isFinite = true → isNegative v = false → parse (valueText v) = .ok (.number (valueText v)) ∧
      ∀ answer, (Expr.number (valueText v)).evaluate answer = .ok v) ∧
    (v.isFinite = true → isNegative v = true → ∃ w, valueText v = '-' :: w ∧
      parse (valueText v) = .ok (.signed .minus (.number w)) ∧
      ∀ answer, (Expr.signed .minus (.number w)).evaluate answer =
        .ok (if v = -0.0 then 0.0 else v)) ∧
    (v = -0.0 → valueText v = "-0".toList) ∧
    (v.isFinite = false → ∃ e, parse (valueText v) = .error (.lex e)) ∧
    ∀ (s t : Session) line, (s.runLine line).result = .ok v → v.isFinite = true → v ≠ -0.0 →
      (t.runLine (valueText v)).result = .ok v ∧
      (t.runLine (valueText v)).session = (s.runLine line).session := by
  have hpositive : v.isFinite = true → isNegative v = false →
      parse (valueText v) = .ok (.number (valueText v)) ∧
      ∀ answer, (Expr.number (valueText v)).evaluate answer = .ok v := by
    intro hfinite hn
    obtain ⟨w, htext, hw, hreads⟩ := exists_valueText hfinite
    rw [htext, hn, if_neg (by decide)]
    refine ⟨parse_numeral hw, fun answer => ?_⟩
    rw [Expr.evaluate_numeral hw hreads, ← hn, ofPlace_place]
  have hnegative : v.isFinite = true → isNegative v = true → ∃ w, valueText v = '-' :: w ∧
      parse (valueText v) = .ok (.signed .minus (.number w)) ∧
      ∀ answer, (Expr.signed .minus (.number w)).evaluate answer =
        .ok (if v = -0.0 then 0.0 else v) := by
    intro hfinite hn
    obtain ⟨w, htext, hw, hreads⟩ := exists_valueText hfinite
    rw [hn, if_pos rfl] at htext
    refine ⟨w, htext, htext ▸ parse_negated hw, fun answer => ?_⟩
    rw [evaluate_negated hw hreads, zero_sub_magnitude hfinite hn]
  have hzero : v = -0.0 → valueText v = "-0".toList := by
    rintro rfl
    decide +kernel
  refine ⟨hpositive, hnegative, hzero, parse_valueText_of_not_finite, fun s t line hs hfinite hne => ?_⟩
  -- Either way the line has a tree that is evaluated to the value, which the session then holds.
  have hvalue : ∃ x, parse (valueText v) = .ok x ∧ ∀ answer, x.evaluate answer = .ok v := by
    cases hn : isNegative v with
    | false => exact ⟨_, hpositive hfinite hn⟩
    | true =>
      obtain ⟨w, -, hparse, hx⟩ := hnegative hfinite hn
      rw [if_neg hne] at hx
      exact ⟨_, hparse, hx⟩
  obtain ⟨x, hparse, hx⟩ := hvalue
  obtain ⟨hresult, hsession⟩ := t.runLine_of_evaluate hparse (hx t.ans)
  have hans : (s.runLine line).session.ans = v := by rw [s.runLine_session, hs]; rfl
  exact ⟨hresult, hsession.trans (congrArg Session.mk hans.symm)⟩

/-- A quotient that is printed with zeros after the point restores a session that holds infinity. -/
theorem parse_valueText_quotient :
    let v : Float := -2.5e-7
    let t : Session := ⟨Float.ofBits 0x7ff0000000000000⟩
    valueText v = "-0.00000025".toList ∧
    (∃ w, valueText v = '-' :: w ∧ parse (valueText v) = .ok (.signed .minus (.number w)) ∧
      ∀ answer, (Expr.signed .minus (.number w)).evaluate answer = .ok v) ∧
    (t.runLine (valueText v)).result = .ok v ∧
    (t.runLine (valueText v)).session = (Session.new.runLine "1/-4000000".toList).session ∧
    ∃ e, parse (valueText t.ans) = .error (.lex e) := by
  intro v t
  have htext : valueText v = "-0.00000025".toList := by decide +kernel
  have hfinite : v.isFinite = true := by decide +kernel
  have hnegative : isNegative v = true := by decide +kernel
  have hne : v ≠ -0.0 := by decide +kernel
  have hprinted : (Session.new.runLine "1/-4000000".toList).result = .ok v := by decide +kernel
  have hinfinite : t.ans.isFinite = false := by decide +kernel
  obtain ⟨-, hread, -, -, hrestored⟩ := parse_valueText v
  obtain ⟨hresult, hsession⟩ := hrestored Session.new t _ hprinted hfinite hne
  have htree := hread hfinite hnegative
  simp only [if_neg hne] at htree
  exact ⟨htext, htree, hresult, hsession, (parse_valueText t.ans).2.2.2.1 hinfinite⟩

end DeskCalculator
