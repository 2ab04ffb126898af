import DeskCalculator.Expression.Recognizer
import DeskCalculator.Proofs.Derivation
import Mathlib.Control.Monad.Basic

/-! The parser and the one pass with a stack agree. A call of the parser takes the recognizer from
the state that the call starts in to the state after an operand, with the same parentheses open, or
to the error of the call. -/
namespace DeskCalculator
namespace Reading

def Call.state : Call → Recognizer.State
  | .more _ _ => .read
  | .spine _ | .signed | .atom | .group _ => .due

/-- The parentheses that are open when the call starts, given those open when it ends. -/
def Call.opened (outer : List Nat) : Call → List Nat
  | .group o => o.position :: outer
  | .spine _ | .more _ _ | .signed | .atom => outer

/-- An operand by itself is read only where there is no sign. -/
def Call.Ready : Call → List Item → Prop
  | .atom, .ok t :: _ | .spine .adjacent, .ok t :: _ => t.kind.sign? = none
  | _, _ => True

end Reading

namespace Recognizer

open Reading

variable {limit : Limit} {j : Joint} {c : Call} {size d : Nat} {s r : List Item} {t : Token}
  {op : BinaryOp} {x : Expr} {e : ParseError} {state : State} {opened outer : List Nat}

theorem run_of_step {state' : State} {opened' : List Nat}
    (h : step state opened t = .ok (state', opened')) :
    run size state opened (.ok t :: s) = run size state' opened' s := by
  simp [run, h]

theorem run_of_step_error (h : step state opened t = .error e) :
    run size state opened (.ok t :: s) = .error e := by
  simp [run, h]

theorem step_open (ht : t.kind = .openParen) :
    step state opened t = .ok (.due, t.position :: opened) := by
  cases state <;> simp [step, ht]

theorem step_sign {g : Sign} (ht : t.kind.sign? = some g) :
    step .due opened t = .ok (.due, opened) := by
  cases hk : t.kind <;> simp_all [step, TokenKind.sign?]

theorem step_op? (ht : j.op? t.kind = some op) :
    step .read outer t = .ok (.due, (j.next t).opened outer) := by
  cases j with
  | operator tier =>
    have hk := (op?_operator.1 ht).1
    have hopened : ((Joint.operator tier).next t).opened outer = outer := by
      cases tier <;> rfl
    rw [hopened]
    cases hkind : t.kind <;> simp_all [step, TokenKind.operator?]
  | adjacent => exact step_open (op?_adjacent.1 ht).1

/-- A token after a whole expression is misplaced, unless it closes a parenthesis. -/
theorem step_of_ends (h : (Part.chain .sum).Ends (.ok t :: s))
    (hclose : t.kind = .closeParen → opened = []) :
    step .read opened t = .error (misplaced t opened) := by
  simp only [Part.Ends] at h
  cases hk : t.kind with
  | closeParen => simp [step, hk, hclose hk, misplaced]
  | blank | number | ans => simp [step, hk]
  | plus | minus | star | slash | openParen =>
    simp [hk, Part.goesOn, TokenKind.operator?] at h

theorem run_first (size : Nat) (s : List Item) :
    run size j.first.state (j.first.opened outer) s = run size .due outer s := by
  cases j with
  | operator tier => cases tier <;> rfl
  | adjacent => rfl

theorem run_joined (size : Nat) (s : List Item) (ht : j.op? t.kind = some op) :
    run size .read outer (.ok t :: s) =
      run size (j.next t).state ((j.next t).opened outer) s := by
  have hstate : (j.next t).state = .due := by
    cases j with
    | operator tier => cases tier <;> rfl
    | adjacent => rfl
  rw [run_of_step (step_op? ht), hstate]

theorem next_ready : (j.next t).Ready s := by
  cases j with
  | operator tier => cases tier <;> trivial
  | adjacent => trivial

theorem first_ready (h : (Call.spine j).Ready s) : j.first.Ready s := by
  cases j with
  | operator tier => cases tier <;> trivial
  | adjacent =>
    cases s with
    | nil => trivial
    | cons i s =>
      cases i with
      | error e => trivial
      | ok t => exact h

/-- What a call reads takes the recognizer past an operand. -/
theorem run_of_reads (size : Nat) (h : Reads limit c d s x r) (outer : List Nat) :
    run size c.state (c.opened outer) s = run size .read outer r := by
  induction h generalizing outer with
  | spine _ _ ih ihr =>
    have hfirst := ih outer
    rw [run_first] at hfirst
    exact hfirst.trans (ihr outer)
  | done _ => rfl
  | @joined _ _ _ _ s _ _ _ _ _ ho _ _ _ ih ihr =>
    have hnext := (run_joined size s ho).trans (ih outer)
    exact hnext.trans (ihr outer)
  | sign hg _ _ _ ih => exact (run_of_step (step_sign hg)).trans (ih outer)
  | unsigned _ _ ih => exact ih outer
  | number hk => exact run_of_step (by simp [step, hk, Call.state, Call.opened])
  | ans hk => exact run_of_step (by simp [step, hk, Call.state, Call.opened])
  | opened hk _ ih => exact (run_of_step (step_open hk)).trans (ih outer)
  | closed _ _ hc ih => exact (ih _).trans (run_of_step (by simp [step, hc]))

/-- A call that fails, and not for the limit, fails as the recognizer does. -/
theorem run_of_fails (h : Fails limit size c d s e) (he : ∀ p, e ≠ .tooDeep p) (hc : c.Ready s)
    (outer : List Nat) : run size c.state (c.opened outer) s = .error e := by
  induction h generalizing outer with
  | lex _ => rfl
  | @ended c _ ha => cases c <;> first | rfl | cases ha
  | first _ ih =>
    have hfirst := ih he (first_ready hc) outer
    rwa [run_first] at hfirst
  | rest hf _ ih =>
    have hfirst := run_of_reads size hf outer
    rw [run_first] at hfirst
    exact hfirst.trans (ih he trivial outer)
  | @operand _ _ _ _ s _ _ ho _ ih =>
    exact (run_joined size s ho).trans (ih he next_ready outer)
  | tall _ _ _ => exact absurd rfl (he _)
  | @onward _ _ _ _ s _ _ _ _ ho hn _ _ ih =>
    have hnext := (run_joined size s ho).trans (run_of_reads size hn outer)
    exact hnext.trans (ih he trivial outer)
  | signNested _ _ => exact absurd rfl (he _)
  | signOperand hg _ _ ih => exact (run_of_step (step_sign hg)).trans (ih he trivial outer)
  | signTall _ _ _ _ => exact absurd rfl (he _)
  | unsigned hn _ ih => exact ih he hn outer
  | @noOperand _ t _ hnumber hans hopen =>
    have hsign : t.kind.sign? = none := hc
    refine run_of_step_error ?_
    cases hk : t.kind <;> simp_all [step, Call.state, TokenKind.sign?]
  | opened hk _ ih => exact (run_of_step (step_open hk)).trans (ih he trivial outer)
  | groupNested _ => exact absurd rfl (he _)
  | @inside _ o _ _ _ _ ih => exact ih he trivial (o.position :: outer)
  | @lexAfter _ o _ _ _ _ _ hx => exact run_of_reads size hx (o.position :: outer)
  | @unclosed _ o _ r _ _ hx hu =>
    refine (run_of_reads size hx (o.position :: outer)).trans ?_
    cases r with
    | nil => rfl
    | cons i r =>
      cases i with
      | error e => exact hu.elim
      | ok t =>
        have hends := hx.ends_expression
        exact run_of_step_error (step_of_ends hends fun hk => absurd hk hu)

theorem recognize_of_line {source : Text} {result : Except ParseError Expr}
    (h : Parser.Line limit source result) (he : ∀ p, result ≠ .error (.tooDeep p)) :
    recognize source = result.map fun _ => () := by
  cases h with
  | whole hx => exact run_of_reads _ hx []
  | failed hf => exact run_of_fails hf (fun p hp => he p (by rw [hp])) trivial []
  | lexAfter hx => exact run_of_reads _ hx []
  | leftOver hx =>
    refine (run_of_reads _ hx []).trans ?_
    exact run_of_step_error (step_of_ends hx.ends_expression fun _ => rfl)

/-! What the recognizer holds after some tokens decides whether an expression begins with them. -/

def after (state : State) (opened : List Nat) :
    List Token → Except ParseError (State × List Nat)
  | [] => .ok (state, opened)
  | t :: ts =>
    match step state opened t with
    | .error e => .error e
    | .ok (state, opened) => after state opened ts

variable {ts us : List Token} {state' : State} {opened' : List Nat}

theorem run_of_after (size : Nat) (s : List Item)
    (h : after state opened ts = .ok (state', opened')) :
    run size state opened (ts.map .ok ++ s) = run size state' opened' s := by
  induction ts generalizing state opened with
  | nil =>
    cases h
    rfl
  | cons t ts ih =>
    cases ht : step state opened t with
    | error e => simp [after, ht] at h
    | ok q =>
      simp only [after, ht] at h
      exact (run_of_step ht).trans (ih h)

theorem run_of_after_error (h : after state opened ts = .error e) :
    run size state opened (ts.map .ok ++ s) = .error e := by
  induction ts generalizing state opened with
  | nil => cases h
  | cons t ts ih =>
    cases ht : step state opened t with
    | error e' =>
      simp only [after, ht, Except.error.injEq] at h
      exact run_of_step_error (h ▸ ht)
    | ok q =>
      simp only [after, ht] at h
      exact (run_of_step ht).trans (ih h)

theorem after_append (h : after state opened ts = .ok (state', opened')) :
    after state opened (ts ++ us) = after state' opened' us := by
  induction ts generalizing state opened with
  | nil =>
    cases h
    rfl
  | cons t ts ih =>
    cases ht : step state opened t with
    | error e => simp [after, ht] at h
    | ok q =>
      simp only [after, ht] at h
      simpa only [List.cons_append, after, ht] using ih h

theorem not_tooDeep (h : Fails none size c d s e) (p : Nat) : e ≠ .tooDeep p := by
  generalize hl : (none : Limit) = limit at h
  induction h <;> subst hl <;> simp_all

theorem isExpression_iff : IsExpression ts ↔ run 0 .due [] (ts.map .ok) = .ok () := by
  constructor
  · rintro ⟨x, n, hx⟩
    have hread : PartReads none (.chain .sum) ts x n := reads_of_derives hx rfl
    have h := SpineReads.reads (d := 0) hread rfl (Part.ends_nil _)
    rw [List.append_nil] at h
    exact run_of_reads 0 h []
  · intro h
    rcases Parser.reads_or_fails none ts with ⟨x, r, hx⟩ | ⟨e, he⟩
    · have hrest : run 0 .read [] r = .ok () := (run_of_reads 0 hx []).symm.trans h
      cases r with
      | nil =>
        obtain ⟨us, n, hs, hd, -⟩ := hx.derived
        have hts : ts = us := Item.eq_of_map_ok (by simpa using hs)
        exact ⟨x, n, hts ▸ hd⟩
      | cons i r =>
        cases i with
        | error e => cases hrest
        | ok t =>
          have herror := step_of_ends hx.ends_expression fun _ => rfl
          rw [run_of_step_error herror] at hrest
          cases hrest
    · have herror := run_of_fails he (not_tooDeep he) trivial []
      rw [show Call.expression.opened [] = [] from rfl] at herror
      cases herror.symm.trans h

theorem run_close (size : Nat) (opened : List Nat) :
    run size .read opened ((List.replicate opened.length ⟨.closeParen, [')'], 0⟩).map .ok) =
      .ok () := by
  induction opened with
  | nil => rfl
  | cons p opened ih => exact (run_of_step rfl).trans ih

theorem viable_iff : Viable ts ↔ ∃ state opened, after .due [] ts = .ok (state, opened) := by
  constructor
  · rintro ⟨us, hus⟩
    cases h : after .due [] ts with
    | error e =>
      rw [isExpression_iff, List.map_append, run_of_after_error h] at hus
      cases hus
    | ok q => exact ⟨q.1, q.2, rfl⟩
  · rintro ⟨state, opened, h⟩
    have hclose := run_close 0 opened
    cases state with
    | read =>
      refine ⟨List.replicate opened.length ⟨.closeParen, [')'], 0⟩, isExpression_iff.2 ?_⟩
      rw [List.map_append, run_of_after _ _ h]
      exact hclose
    | due =>
      refine ⟨⟨.ans, Lexeme.answerWord, 0⟩ ::
        List.replicate opened.length ⟨.closeParen, [')'], 0⟩, isExpression_iff.2 ?_⟩
      rw [List.map_append, run_of_after _ _ h]
      exact (run_of_step rfl).trans hclose

/-! Where the recognizer fails, and what it blames. -/

theorem step_enclose {os : List Token}
    (h : step state (os.map (·.position)) t = .ok (state', opened')) :
    opened' = (enclose os t).map (·.position) := by
  cases state <;> cases hk : t.kind <;> simp [step, hk] at h
  all_goals
    simp only [enclose, hk]
  case read.closeParen =>
    cases os with
    | nil => simp at h
    | cons o os =>
      simp only [List.map_cons, Except.ok.injEq, Prod.mk.injEq] at h
      simp [← h.2]
  all_goals
    simp [← h.2]

theorem after_foldl_enclose (os : List Token)
    (h : after state (os.map (·.position)) ts = .ok (state', opened')) :
    opened' = (ts.foldl enclose os).map (·.position) := by
  induction ts generalizing state os with
  | nil =>
    cases h
    rfl
  | cons t ts ih =>
    cases ht : step state (os.map (·.position)) t with
    | error e => simp [after, ht] at h
    | ok q =>
      obtain ⟨state₁, opened₁⟩ := q
      simp only [after, ht] at h
      rw [step_enclose ht] at h
      exact ih _ h

theorem exists_unclosed {p : Nat} {ps : List Nat} (h : after .due [] ts = .ok (state, p :: ps)) :
    ∃ o os, unclosed ts = o :: os ∧ o.position = p := by
  have hopen : p :: ps = (unclosed ts).map (·.position) := after_foldl_enclose [] h
  cases hts : unclosed ts with
  | nil => simp [hts] at hopen
  | cons o os =>
    simp only [hts, List.map_cons, List.cons.injEq] at hopen
    exact ⟨o, os, rfl, hopen.1.symm⟩

theorem step_error (h : step state opened t = .error e) :
    e = .unexpectedToken t.text t.position ∨ ∃ p os, opened = p :: os ∧ e = .unclosedParen p := by
  cases state <;> cases hk : t.kind <;> cases opened <;> simp_all [step, misplaced]

theorem atEnd_error (h : atEnd size state opened = .error e) :
    e = .unexpectedEnd size ∨ ∃ p os, opened = p :: os ∧ e = .unclosedParen p := by
  cases state <;> cases opened <;> simp_all [atEnd]

theorem blames_token (h : after .due [] ts = .ok (state, opened))
    (he : step state opened t = .error e) : Blames size ts (.ok t :: s) e := by
  have hviable : ¬ Viable (ts ++ [t]) := by
    rw [viable_iff, after_append h]
    rintro ⟨state', opened', h'⟩
    simp [after, he] at h'
  rcases step_error he with rfl | ⟨p, ps, rfl, rfl⟩
  · exact .token hviable
  · obtain ⟨o, os, hts, rfl⟩ := exists_unclosed h
    exact .unclosed hviable hts

theorem blames_end (h : after .due [] ts = .ok (state, opened))
    (he : atEnd size state opened = .error e) : Blames size ts [] e := by
  have hwhole : ¬ IsExpression ts := by
    have hrun := run_of_after 0 [] h
    rw [List.append_nil] at hrun
    rw [isExpression_iff, hrun]
    cases state <;> cases opened <;> simp_all [run, atEnd]
  rcases atEnd_error he with rfl | ⟨p, ps, rfl, rfl⟩
  · exact .ended hwhole
  · obtain ⟨o, os, hts, rfl⟩ := exists_unclosed h
    exact .endedOpen hwhole hts

theorem exists_blames (ts : List Token) (h : after .due [] ts = .ok (state, opened))
    (hs : run size state opened s = .error e) :
    ∃ us rest, s = us.map .ok ++ rest ∧ Viable (ts ++ us) ∧ Blames size (ts ++ us) rest e := by
  induction s generalizing ts state opened with
  | nil =>
    refine ⟨[], [], rfl, ?_, ?_⟩
    · rw [List.append_nil]
      exact viable_iff.2 ⟨state, opened, h⟩
    · rw [List.append_nil]
      exact blames_end h hs
  | cons i s ih =>
    cases i with
    | error e' =>
      cases hs
      refine ⟨[], .error e' :: s, rfl, ?_, .lex⟩
      rw [List.append_nil]
      exact viable_iff.2 ⟨state, opened, h⟩
    | ok t =>
      cases ht : step state opened t with
      | error e' =>
        rw [run_of_step_error ht] at hs
        cases hs
        refine ⟨[], .ok t :: s, rfl, ?_, ?_⟩
        · rw [List.append_nil]
          exact viable_iff.2 ⟨state, opened, h⟩
        · rw [List.append_nil]
          exact blames_token h ht
      | ok q =>
        rw [run_of_step ht] at hs
        have hts : after .due [] (ts ++ [t]) = .ok q := by
          rw [after_append h]
          simp [after, ht]
        obtain ⟨us, rest, rfl, hv, hb⟩ := ih _ hts hs
        exact ⟨t :: us, rest, rfl, by simpa using hv, by simpa using hb⟩

end Recognizer

open Recognizer

/-- Unless a line is too deep for the parser, it is accepted or fails as the recognizer says, and
the error is about the first item that no expression goes on with. A parenthesis that is said to be
never closed is the innermost one that is open there. -/
theorem parse_agrees_recognize {s : Text} (h : ∀ p, parse s ≠ .error (.tooDeep p)) :
    (parse s).map (fun _ => ()) = recognize s ∧
    ∀ e, parse s = .error e → ∃ ts rest, Scan.all 0 s = ts.map .ok ++ rest ∧
      Viable ts ∧ Blames s.size ts rest e := by
  have hrun := recognize_of_line (Parser.line_run (some maxDepth) s) h
  refine ⟨hrun.symm, fun e he => ?_⟩
  rw [← parse, he] at hrun
  obtain ⟨us, rest, hs, hv, hb⟩ := exists_blames [] rfl hrun
  exact ⟨us, rest, hs, hv, hb⟩

/-- In `(1 2` the second number comes where only an operator or the parenthesis could. -/
theorem parse_agrees_recognize_unclosed :
    (∀ p, parse "(1 2".toList ≠ .error (.tooDeep p)) ∧
    (parse "(1 2".toList).map (fun _ => ()) = recognize "(1 2".toList ∧
    parse "(1 2".toList = .error (.unclosedParen 0) := by
  have hparse : parse "(1 2".toList = .error (.unclosedParen 0) := by decide +kernel
  have hdeep : ∀ p, parse "(1 2".toList ≠ .error (.tooDeep p) := by
    intro p
    rw [hparse]
    simp
  exact ⟨hdeep, (parse_agrees_recognize hdeep).1, hparse⟩

end DeskCalculator
