import DeskCalculator.Proofs.Consumption
import DeskCalculator.Session.History
import Mathlib.Data.List.Basic

/-! What a session remembers of its past is the last value, and nothing else of its past matters.
-/
namespace DeskCalculator
namespace Desk

variable {d e : Desk} {r : Request}

/-- One step: the last answer is replaced by the value that the request is answered with. -/
theorem step_ans (d : Desk) (r : Request) :
    (d.step r).2.session.ans = (d.step r).1.value?.getD d.session.ans := by
  cases r with
  | line t => exact d.session.runLine_session t
  | parse t => cases hp : parse t <;> simp [step, hp, Answer.value?]
  | stored i =>
    cases hi : d.trees[i]? with
    | none => simp [step, hi, Answer.value?]
    | some x => simpa [step, hi, Answer.value?] using d.session.run_session x
  | tree x => exact d.session.run_session x

/-- A run: the last answer is the last value. -/
theorem after_ans (d : Desk) (rs : List Request) :
    (d.after rs).session.ans =
      ((d.answers rs).filterMap Answer.value?).getLast?.getD d.session.ans := by
  induction rs generalizing d with
  | nil => rfl
  | cons r rs ih =>
    have hstep := step_ans d r
    simp only [after, answers, List.filterMap_cons, ih]
    cases hv : (d.step r).1.value? with
    | none => simp_all
    | some v => simp_all [List.getLast?_cons]

theorem step_session_of_value?_eq_none (h : (d.step r).1.value? = none) :
    (d.step r).2.session = d.session := by
  have hstep := step_ans d r
  rw [h] at hstep
  exact congrArg Session.mk hstep

/-- A request that is answered with a value is answered so by any desk with the same session, once
its tree is supplied, and leaves it with the same session. -/
theorem step_direct (h : (d.step r).1.value?.isSome = true) (hs : e.session = d.session) :
    (e.step (d.direct r)).1 = (d.step r).1 ∧
      (e.step (d.direct r)).2.session = (d.step r).2.session := by
  cases r with
  | line t => simp [direct, step, hs]
  | parse t => cases hp : parse t <;> simp [step, hp, Answer.value?] at h
  | stored i =>
    cases hi : d.trees[i]? with
    | none => simp [step, hi, Answer.value?] at h
    | some x => simp [direct, step, hi, hs]
  | tree x => simp [direct, step, hs]

theorem answers_successes (rs : List Request) (hs : e.session = d.session) :
    e.answers (d.successes rs) = (d.answers rs).filter (·.value?.isSome) ∧
      (e.after (d.successes rs)).session = (d.after rs).session := by
  induction rs generalizing d e with
  | nil => exact ⟨rfl, hs⟩
  | cons r rs ih =>
    by_cases h : (d.step r).1.value?.isSome = true
    · obtain ⟨hanswer, hsession⟩ := step_direct h hs
      obtain ⟨hanswers, hafter⟩ := ih hsession
      simp [successes, answers, after, h, hanswer, hanswers, hafter]
    · -- The request that is left out leaves no trace in the session, so the desks go on agreeing.
      have hnone : (d.step r).1.value? = none := by simpa using h
      obtain ⟨hanswers, hafter⟩ := ih (hs.trans (step_session_of_value?_eq_none hnone).symm)
      simp [successes, answers, after, hnone, hanswers, hafter]

/-- The history of a session, for all requests. After each of them the last answer is the value of
the last that had one, or zero. A line is answered with the value of its tree at the answer held
before it. And what failed or was only parsed can be taken out of the history. -/
theorem answers_history (rs : List Request) :
    (∀ n, (new.after (rs.take n)).session.ans =
      (((new.answers rs).take n).filterMap Answer.value?).getLast?.getD 0.0) ∧
    (∀ n t, rs[n]? = some (Request.line t) →
      (new.answers rs)[n]? = some (Answer.line ((parse t).mapError .parse >>= fun x =>
        (x.evaluate (new.after (rs.take n)).session.ans).mapError .eval))) ∧
    new.answers (new.successes rs) = (new.answers rs).filter (·.value?.isSome) ∧
    (new.after (new.successes rs)).session.ans = (new.after rs).session.ans := by
  refine ⟨fun n => ?_, fun n t h => ?_, ?_⟩
  · rw [after_ans, answers_take]
    rfl
  · rw [getElem?_answers, h]
    exact congrArg (fun result => some (Answer.line result)) (Session.runLine_result _ t)
  · obtain ⟨hanswers, hafter⟩ := answers_successes (d := new) rs rfl
    exact ⟨hanswers, congrArg Session.ans hafter⟩

/-- A tree that is parsed first and evaluated later sees the answer of that moment. -/
theorem answers_history_stored :
    let rs : List Request :=
      [.parse "ans*2".toList, .line "21".toList, .stored 0, .line "ans+1".toList]
    rs[3]? = some (.line "ans+1".toList) ∧ (new.answers rs)[3]? = some (.line (.ok 43.0)) := by
  intro rs
  have hline : rs[3]? = some (.line "ans+1".toList) := rfl
  have hvalue : ((parse "ans+1".toList).mapError .parse >>= fun x =>
      (x.evaluate (new.after (rs.take 3)).session.ans).mapError .eval) =
      (.ok 43.0 : Except LineError Float) := by
    decide +kernel
  have hanswer := (answers_history rs).2.1 3 _ hline
  rw [hvalue] at hanswer
  exact ⟨hline, hanswer⟩

end Desk

/-! What a session reports of a line. The lexer traces a token when it is scanned, and it holds back
no more than one that was put back, so the trace is the tokens that the parser has passed, each of
them once, and the one that it has looked at and not passed. How far that is depends on the answer
alone. -/

namespace Lexer

/-- In the text `s`, the lexer has passed the tokens `ts`. It has scanned these and what is put
back, which is one token at most. -/
structure Passed (s : Text) (ts : List Token) (l : Lexer) : Prop where
  all : Scan.all 0 s = ts.map .ok ++ l.stream
  trace : l.trace.reverse = ts ++ l.pending
  pending : l.pending.length ≤ 1

variable {s : Text} {ts us : List Token} {t : Token} {l m k : Lexer} {e : ParseError}

theorem passed_ofText (s : Text) : Passed s [] (ofText s) where
  all := rfl
  trace := rfl
  pending := Nat.zero_le 1

theorem Passed.trace_eq (h : Passed s ts l) (hnone : l.pending = []) : l.trace.reverse = ts := by
  simpa [hnone] using h.trace

theorem Passed.finished (h : Passed s ts l) (hl : l.next = .finished) :
    l.trace.reverse = ts ∧ Scan.all 0 s = ts.map .ok ++ [] :=
  ⟨h.trace_eq (pending_of_finished hl), by rw [h.all, stream_of_finished hl]⟩

theorem Passed.token (h : Passed s ts l) (hl : l.next = .token t m) :
    Passed s (ts ++ [t]) m ∧ m.pending = [] := by
  have hall : Scan.all 0 s = (ts ++ [t]).map .ok ++ m.stream := by
    rw [h.all, stream_of_token hl]
    simp
  have hscanned := h.trace
  rcases trace_of_token hl with ⟨hagain, htrace⟩ | ⟨hfresh, hnone, htrace⟩
  · have hnone : m.pending = [] := by simpa [hagain] using h.pending
    rw [hagain, hnone, ← htrace] at hscanned
    exact ⟨⟨hall, by simpa [hnone] using hscanned, by simp [hnone]⟩, hnone⟩
  · rw [hfresh, List.append_nil] at hscanned
    exact ⟨⟨hall, by simp [htrace, hscanned, hnone], by simp [hnone]⟩, hnone⟩

/-- Whether a token was scanned or given again, put back it is there to be given once more. -/
theorem Passed.lookAhead (h : Passed s ts l) (hl : l.next = .token t m) :
    Passed s ts (m.putBack t) := by
  obtain ⟨htaken, hnone⟩ := h.token hl
  have hscanned := htaken.trace_eq hnone
  exact ⟨by simpa using htaken.all, by simpa [putBack, hnone] using hscanned,
    by simp [putBack, hnone]⟩

theorem Passed.step (h : Passed s ts l) (hstep : Step l m) : ∃ us, Passed s (ts ++ us) m := by
  cases hstep with
  | token hl => exact ⟨_, (h.token hl).1⟩
  | lookAhead hl => exact ⟨[], by simpa using h.lookAhead hl⟩

theorem Passed.steps (h : Passed s ts l) (hsteps : Steps l m) : ∃ us, Passed s (ts ++ us) m := by
  induction hsteps with
  | refl => exact ⟨[], by simpa using h⟩
  | tail _ hstep ih =>
    obtain ⟨us, hus⟩ := ih
    obtain ⟨vs, hvs⟩ := hus.step hstep
    exact ⟨us ++ vs, by simpa using hvs⟩

theorem Passed.unique (h : Passed s us l) (hall : Scan.all 0 s = ts.map .ok ++ l.stream) :
    Passed s ts l := by
  have hitems : us.map Except.ok = ts.map (Except.ok (ε := LexError)) :=
    List.append_cancel_right (h.all.symm.trans hall)
  rwa [← Item.eq_of_map_ok hitems]

theorem Passed.exists_rest (h : Passed s ts l) :
    ∃ rest, Scan.all 0 s = l.trace.reverse.map .ok ++ rest :=
  ⟨Scan.all l.position l.rest, by simp [h.all, h.trace, stream]⟩

theorem Passed.opens (h : Passed s [] l) {o : Token} (ho : Opens l o us k) :
    ∃ pre, Passed s (pre ++ o :: us) k ∧ o.kind = .openParen ∧ IsExpression us ∧
      (Part.chain .sum).Ends k.stream := by
  cases ho with
  | intro hj hi ho hk hs hus hends =>
    obtain ⟨pre, hpre⟩ := h.steps hj
    obtain ⟨hopened, -⟩ := hpre.token hi
    obtain ⟨vs, hvs⟩ := hopened.steps hk
    refine ⟨pre, hvs.unique ?_, ho, hus, hends⟩
    rw [hopened.all, hs]
    simp

/-- Where a lexer has stopped with an error, its trace goes as far as the error asks. -/
theorem Halts.lookahead (h : Halts (ofText s) e m) :
    ∃ rest, Scan.all 0 s = m.trace.reverse.map .ok ++ rest ∧
      Lookahead (.error e) m.trace.reverse rest := by
  have hstart := passed_ofText s
  cases h with
  | lex hk hl =>
    obtain ⟨ts, hts⟩ := hstart.steps hk
    obtain ⟨hnone, htrace⟩ := trace_of_error hl
    have hall := hts.all
    rw [stream_of_error hl] at hall
    rw [htrace, hts.trace_eq hnone]
    exact ⟨_, hall, .lex⟩
  | unexpectedToken hk hl =>
    obtain ⟨ts, hts⟩ := hstart.steps hk
    obtain ⟨htaken, hnone⟩ := hts.token hl
    rw [htaken.trace_eq hnone]
    exact ⟨_, htaken.all, .unexpectedToken⟩
  | unexpectedEnd hk hl =>
    obtain ⟨ts, hts⟩ := hstart.steps hk
    obtain ⟨htrace, hall⟩ := hts.finished hl
    rw [htrace]
    exact ⟨_, hall, .unexpectedEnd⟩
  | unclosed ho hl ht =>
    obtain ⟨pre, hpre, ho, hus, hends⟩ := hstart.opens ho
    rw [stream_of_token hl] at hends
    obtain ⟨htaken, hnone⟩ := hpre.token hl
    rw [htaken.trace_eq hnone]
    exact ⟨_, htaken.all, .unclosed ho hus ht hends⟩
  | unclosedEnd ho hl =>
    obtain ⟨pre, hpre, ho, hus, -⟩ := hstart.opens ho
    obtain ⟨htrace, hall⟩ := hpre.finished hl
    rw [htrace]
    exact ⟨_, hall, .unclosedEnd ho hus⟩
  | tooDeep hk =>
    obtain ⟨ts, hts⟩ := hstart.steps hk
    obtain ⟨rest, hrest⟩ := hts.exists_rest
    exact ⟨rest, hrest, .tooDeep⟩

end Lexer

open Lexer

theorem Parser.run_lookahead (limit : Limit) (s : Text) :
    ∃ rest, Scan.all 0 s = (run limit s).2.trace.reverse.map .ok ++ rest ∧
      Lookahead (run limit s).1 (run limit s).2.trace.reverse rest := by
  have hmoves : (expression limit (ofText s)).Moves (ofText s) :=
    chain_steps limit .sum 0 (ofText s)
  rw [run]
  split
  · rename_i e m ho
    rw [ho] at hmoves
    exact Halts.lookahead hmoves
  · rename_i x m lt ho
    rw [ho] at hmoves
    split
    · rename_i hl
      exact Halts.lookahead (.lex hmoves hl)
    · rename_i hl
      obtain ⟨ts, hts⟩ := (passed_ofText s).steps hmoves
      obtain ⟨htrace, hall⟩ := hts.finished hl
      rw [htrace]
      exact ⟨_, hall, .parsed⟩
    · rename_i hl
      exact Halts.lookahead (.unexpectedToken hmoves hl)

/-- The records of a line are those of the tokens at its front, each once and in order, as far as
one has to look to answer it, then one of its tree, if it is read, and then one of the answers
before and after, if it has a value. Only those of the tokens are traces. -/
theorem Session.runLine_log (session : Session) (line : Text) :
    ∃ ts rest, Scan.all 0 line = ts.map .ok ++ rest ∧ Lookahead (parse line) ts rest ∧
      (session.runLine line).log = ts.map .scanned ++
        ((parse line).toOption.toList.map fun x => .parsed line x.nodeCount) ++
        ((session.runLine line).result.toOption.toList.map fun _ =>
          .answered session.ans (session.runLine line).session.ans) ∧
      ((session.runLine line).log.filter fun r => r.level = .trace).map Record.text =
        ts.map fun t => "token ".toList ++ t.display := by
  obtain ⟨rest, hall, hlookahead⟩ := Parser.run_lookahead (some maxDepth) line
  rw [← parse] at hlookahead
  have hlog := session.runLine_log_eq line
  rw [parseLogged_log] at hlog
  generalize (Parser.run (some maxDepth) line).2.trace.reverse = ts at hall hlookahead hlog
  refine ⟨ts, rest, hall, hlookahead, hlog, ?_⟩
  have htraces : (ts.map Record.scanned).filter (fun r => r.level = .trace) =
      ts.map Record.scanned := by simp [Record.level]
  have hparsed (xs : List Expr) : (xs.map fun x => Record.parsed line x.nodeCount).filter
      (fun r => r.level = .trace) = [] := by simp [Record.level]
  have hanswered (vs : List Float) (a b : Float) : (vs.map fun _ => Record.answered a b).filter
      (fun r => r.level = .trace) = [] := by simp [Record.level]
  rw [hlog, List.filter_append, List.filter_append, htraces, hparsed, hanswered, List.append_nil,
    List.append_nil, List.map_map]
  rfl

/-- The number that stands where the group should end is the last token that is looked at. -/
example : (Session.new.runLine "(1 2)@".toList).log.map Record.text =
    ["token \x7b \"type\": \"(\", \"value\": \"(\" \x7d".toList,
      "token \x7b \"type\": \"N\", \"value\": \"1\" \x7d".toList,
      "token \x7b \"type\": \"N\", \"value\": \"2\" \x7d".toList] := by decide +kernel

end DeskCalculator
