import DeskCalculator.Expression.Parser
import DeskCalculator.Expression.Value

/-! A session remembers the value of the last expression that had one, and reports what it does.
-/
namespace DeskCalculator

inductive Level
  | trace
  | debug
  deriving DecidableEq, Repr

inductive Record
  | scanned (token : Token)
  | parsed (source : Text) (nodes : Nat)
  | answered (before after : Float)

namespace Record

def level : Record → Level
  | .scanned _ => .trace
  | .parsed _ _ => .debug
  | .answered _ _ => .debug

def text : Record → Text
  | .scanned t => "token ".toList ++ t.display
  | .parsed s n =>
    "parsed ".toList ++ s.quoted ++ " into ".toList ++ Text.ofNat n ++ " nodes".toList
  | .answered x y => "ans ".toList ++ valueText x ++ " -> ".toList ++ valueText y

end Record

structure Session where
  ans : Float

structure Reply (ε : Type) where
  result : Except ε Float
  log : List Record
  session : Session

def parseLogged (source : Text) : Except ParseError Expr × List Record :=
  let (result, lexer) := Parser.run (some maxDepth) source
  let scanned := lexer.trace.reverse.map Record.scanned
  match result with
  | .ok x => (.ok x, scanned ++ [.parsed source x.nodeCount])
  | .error e => (.error e, scanned)

theorem parseLogged_result (source : Text) : (parseLogged source).1 = parse source := by
  simp only [parseLogged, parse]
  split <;> simp_all

theorem parseLogged_log (source : Text) :
    (parseLogged source).2 =
      (Parser.run (some maxDepth) source).2.trace.reverse.map Record.scanned ++
        (parse source).toOption.toList.map fun x => .parsed source x.nodeCount := by
  simp only [parseLogged, parse]
  split <;> simp_all [Except.toOption]

namespace Session

def new : Session := ⟨0.0⟩

/-- Evaluates an expression. A failure leaves the last answer as it was. -/
def run (s : Session) (x : Expr) : Reply EvalError :=
  match x.evaluate s.ans with
  | .ok v => ⟨.ok v, [.answered s.ans v], ⟨v⟩⟩
  | .error e => ⟨.error e, [], s⟩

def runLine (s : Session) (line : Text) : Reply LineError :=
  match parseLogged line with
  | (.error e, log) => ⟨.error (.parse e), log, s⟩
  | (.ok x, log) =>
    let r := s.run x
    ⟨r.result.mapError .eval, log ++ r.log, r.session⟩

variable {x : Expr} {v : Float} {line : Text}

theorem run_of_evaluate (s : Session) (h : x.evaluate s.ans = .ok v) :
    (s.run x).result = .ok v ∧ (s.run x).session = ⟨v⟩ := by
  simp [run, h]

theorem runLine_of_parse_ok (s : Session) (h : parse line = .ok x) :
    (s.runLine line).result = (s.run x).result.mapError .eval ∧
      (s.runLine line).session = (s.run x).session := by
  have hlogged := parseLogged_result line
  rw [h] at hlogged
  unfold runLine
  split
  · simp_all
  · simp_all

theorem runLine_of_evaluate (s : Session) (h : parse line = .ok x)
    (hv : x.evaluate s.ans = .ok v) :
    (s.runLine line).result = .ok v ∧ (s.runLine line).session = ⟨v⟩ := by
  obtain ⟨hresult, hsession⟩ := s.runLine_of_parse_ok h
  obtain ⟨hvalue, hkept⟩ := s.run_of_evaluate hv
  rw [hresult, hvalue, hsession, hkept]
  exact ⟨rfl, rfl⟩

theorem runLine_of_parse_error (s : Session) {e : ParseError} (h : parse line = .error e) :
    (s.runLine line).result = .error (.parse e) ∧ (s.runLine line).session = s := by
  have hlogged := parseLogged_result line
  rw [h] at hlogged
  unfold runLine
  split
  · simp_all
  · simp_all

theorem run_result (s : Session) (x : Expr) : (s.run x).result = x.evaluate s.ans := by
  unfold run
  split <;> simp_all

theorem run_log (s : Session) (x : Expr) :
    (s.run x).log = (s.run x).result.toOption.toList.map fun _ =>
      .answered s.ans (s.run x).session.ans := by
  unfold run
  split <;> rfl

/-- A tree that has a value replaces the last answer, and one that has none leaves it. -/
theorem run_session (s : Session) (x : Expr) :
    (s.run x).session.ans = (s.run x).result.toOption.getD s.ans := by
  unfold run
  split <;> rfl

theorem runLine_result (s : Session) (line : Text) :
    (s.runLine line).result =
      (parse line).mapError .parse >>= fun x => (x.evaluate s.ans).mapError .eval := by
  cases h : parse line with
  | error e => exact (s.runLine_of_parse_error h).1
  | ok x => rw [(s.runLine_of_parse_ok h).1, run_result]; rfl

theorem runLine_session (s : Session) (line : Text) :
    (s.runLine line).session.ans = (s.runLine line).result.toOption.getD s.ans := by
  cases h : parse line with
  | error e =>
    obtain ⟨hresult, hsession⟩ := s.runLine_of_parse_error h
    rw [hresult, hsession]
    rfl
  | ok x =>
    obtain ⟨hresult, hsession⟩ := s.runLine_of_parse_ok h
    rw [hresult, hsession, run_session]
    cases (s.run x).result <;> rfl

theorem runLine_log_eq (s : Session) (line : Text) :
    (s.runLine line).log = (parseLogged line).2 ++
      (s.runLine line).result.toOption.toList.map fun _ =>
        .answered s.ans (s.runLine line).session.ans := by
  unfold runLine
  split
  · rename_i e log h
    rw [h]
    exact (List.append_nil log).symm
  · rename_i x log h
    dsimp only
    rw [h, s.run_log x]
    cases (s.run x).result <;> rfl

end Session
end DeskCalculator
