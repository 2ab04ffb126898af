import DeskCalculator.Proofs.Reading

/-! The functions of the parser follow the rules of reading, whatever the lexer has passed, what was
put back and what it has still to scan. -/
namespace DeskCalculator
namespace Parser

open Reading

namespace Outcome

/-- The rules give this outcome for the call on the lexer `l`. -/
def Follows {n : Nat} (o : Outcome n) (limit : Limit) (c : Call) (d : Nat) (l : Lexer) : Prop :=
  match o with
  | .parsed x m _ => Reads limit c d l.stream x.expr m.stream ∧ m.source = l.source
  | .failed e _ => Fails limit l.source.size c d l.stream e

variable {limit : Limit} {c c' : Call} {j : Joint} {d d' n n' : Nat} {l l' m k : Lexer} {t : Token}
  {x : Subtree}

@[simp] theorem follows_weaken {o : Outcome n} (h : n ≤ n') :
    (o.weaken h).Follows limit c d l ↔ o.Follows limit c d l := by
  cases o <;> rfl

/-- What a call comes to at last is what the last call that it makes comes to. -/
theorem Follows.last {o : Outcome n} (h : o.Follows limit c d l) (hs : l.source = l'.source)
    (hr : ∀ x r, Reads limit c d l.stream x r → Reads limit c' d' l'.stream x r)
    (hf : ∀ e, Fails limit l'.source.size c d l.stream e →
      Fails limit l'.source.size c' d' l'.stream e) :
    o.Follows limit c' d' l' := by
  cases o with
  | parsed x k lt => exact ⟨hr x.expr _ h.1, h.2.trans hs⟩
  | failed e k =>
    simp only [Follows, hs] at h ⊢
    exact hf e h

theorem follows_lex {e : LexError} (hl : l.next = .error e m) (hc : c.asks = true) :
    (failed (.lex e) k : Outcome n).Follows limit c d l := by
  simp only [Follows, Lexer.stream_of_error hl]
  exact .lex hc

theorem follows_ended (hl : l.next = .finished) (hc : c.needsOperand = true) :
    (failed (.unexpectedEnd l.source.size) k : Outcome n).Follows limit c d l := by
  simp only [Follows, Lexer.stream_of_finished hl]
  exact .ended hc

theorem follows_done (hl : l.next = .finished) (hn : l.size < n) :
    (parsed x l hn).Follows limit (.more j x.expr) d l := by
  refine ⟨.done ?_, rfl⟩
  simp [Lexer.stream_of_finished hl]

theorem follows_putBack (hl : l.next = .token t m) (hj : j.op? t.kind = none)
    (hn : (m.putBack t).size < n) : (parsed x (m.putBack t) hn).Follows limit (.more j x.expr) d l := by
  have hs : (m.putBack t).stream = l.stream := by simp [Lexer.stream_of_token hl]
  refine ⟨?_, by simp [Lexer.source_of_token hl]⟩
  rw [hs]
  exact .done (by simpa [Lexer.stream_of_token hl] using hj)

theorem follows_failed {e : ParseError} (hl : l.next = .token t m)
    (h : Fails limit m.source.size c d (.ok t :: m.stream) e) :
    (failed e k : Outcome n).Follows limit c d l := by
  simp only [Follows, Lexer.stream_of_token hl, ← Lexer.source_of_token hl]
  exact h

/-- A chain and the groups next to an operand go on in the same way, once an operand is joined. -/
theorem follows_joined {o : Outcome n} {op : BinaryOp} {y : Subtree} (hl : l.next = .token t m)
    (hj : j.op? t.kind = some op) (hy : Reads limit (j.next t) d m.stream y.expr k.stream)
    (hk : k.source = m.source) (ha : limit.allows (Subtree.binary op x y).height = true)
    (h : o.Follows limit (.more j (.binary op x.expr y.expr)) d k) :
    o.Follows limit (.more j x.expr) d l := by
  rw [Subtree.height_eq, Subtree.expr_binary] at ha
  refine h.last (hk.trans (Lexer.source_of_token hl)) ?_ ?_
  · intro z r hr
    rw [Lexer.stream_of_token hl]
    exact .joined hj hy ha hr
  · intro e he
    rw [Lexer.stream_of_token hl]
    exact .onward hj hy ha he

end Outcome

open Outcome

/-! One theorem for each function, with the measure of the function itself. -/

mutual

theorem chain_follows (limit : Limit) (tier : Tier) (d : Nat) (l : Lexer) :
    (chain limit tier d l).Follows limit (.spine (.operator tier)) d l := by
  have first := operand_follows limit tier d l
  rw [chain]
  split
  · rename_i e m ho
    rw [ho] at first
    exact .first first
  · rename_i x m lt ho
    rw [ho] at first
    rw [follows_weaken]
    exact (chainRest_follows limit tier d x m).last first.2 (fun _ _ => .spine first.1)
      fun _ => .rest first.1
termination_by 7 * l.size + (2 * tier.rank + 3)

theorem chainRest_follows (limit : Limit) (tier : Tier) (d : Nat) (x : Subtree) (l : Lexer) :
    (chainRest limit tier d x l).Follows limit (.more (.operator tier) x.expr) d l := by
  rw [chainRest]
  split
  · rename_i hl
    exact follows_lex hl rfl
  · rename_i hl
    exact follows_done hl _
  · rename_i t m hl
    have hm := Lexer.size_token hl
    split
    · rename_i hop
      exact follows_putBack hl (by simp [Joint.op?, hop]) _
    · rename_i op hop
      split
      · rename_i htier
        have hj : (Joint.operator tier).op? t.kind = some op := by simp [Joint.op?, hop, htier]
        have right := operand_follows limit tier d m
        rw [← Joint.next_operator tier t] at right
        split
        · rename_i ho
          rw [ho] at right
          exact follows_failed hl (.operand hj right)
        · rename_i y k lt ho
          rw [ho] at right
          obtain ⟨hy, hk⟩ := right
          dsimp only
          split
          · rename_i ha
            rw [follows_weaken]
            have rest := chainRest_follows limit tier d (.binary op x y) k
            exact follows_joined hl hj hy hk ha rest
          · rename_i ha
            rw [Subtree.height_eq] at ha
            exact follows_failed hl (.tall hj hy ha)
      · rename_i htier
        exact follows_putBack hl (by simp [Joint.op?, hop, htier]) _
termination_by 7 * l.size
decreasing_by
  all_goals
    have := tier.rank_le_one
    omega

theorem operand_follows (limit : Limit) (tier : Tier) (d : Nat) (l : Lexer) :
    (operand limit tier d l).Follows limit (Joint.operator tier).first d l := by
  cases tier with
  | sum =>
    rw [operand]
    exact chain_follows limit .product d l
  | product =>
    rw [operand]
    exact signed_follows limit d l
termination_by 7 * l.size + (2 * tier.rank + 2)
decreasing_by
  all_goals
    simp only [Tier.rank]
    omega

theorem signed_follows (limit : Limit) (d : Nat) (l : Lexer) :
    (signed limit d l).Follows limit .signed d l := by
  rw [signed]
  split
  · rename_i hl
    exact follows_lex hl rfl
  · rename_i hl
    exact follows_ended hl rfl
  · rename_i t m hl
    have hm := Lexer.size_token hl
    split
    · rename_i sg hg
      split
      · rename_i hd
        have inner := signed_follows limit (d + 1) m
        split
        · rename_i ho
          rw [ho] at inner
          exact follows_failed hl (.signOperand hg hd inner)
        · rename_i x k lt ho
          rw [ho] at inner
          obtain ⟨hx, hk⟩ := inner
          dsimp only
          split
          · rename_i ha
            rw [Subtree.height_eq] at ha
            refine ⟨?_, hk.trans (Lexer.source_of_token hl)⟩
            rw [Lexer.stream_of_token hl]
            exact .sign hg hd hx ha
          · rename_i ha
            rw [Subtree.height_eq] at ha
            exact follows_failed hl (.signTall hg hd hx ha)
      · rename_i hd
        exact follows_failed hl (.signNested hg hd)
    · rename_i hn
      rw [follows_weaken]
      have inner := primary_follows limit d (m.putBack t)
      refine inner.last ((Lexer.source_putBack m t).trans (Lexer.source_of_token hl)) ?_ ?_
      · intro x r hr
        rw [Lexer.stream_of_token hl]
        exact .unsigned hn hr
      · intro e he
        rw [Lexer.stream_of_token hl]
        exact .unsigned hn he
termination_by 7 * l.size + 1
decreasing_by
  · omega
  · rw [Lexer.size_putBack]
    omega

theorem primary_follows (limit : Limit) (d : Nat) (l : Lexer) :
    (primary limit d l).Follows limit (.spine .adjacent) d l := by
  have atom {n : Nat} {e : ParseError} {k : Lexer}
      (h : (failed e k : Outcome n).Follows limit .atom d l) :
      (failed e k : Outcome n).Follows limit (.spine .adjacent) d l := .first h
  rw [primary]
  split
  · rename_i hl
    exact atom (follows_lex hl rfl)
  · rename_i hl
    exact atom (follows_ended hl rfl)
  · rename_i t m hl
    have hm := Lexer.size_token hl
    have after {x : Subtree} {k : Lexer}
        (hx : Reads limit .atom d (.ok t :: m.stream) x.expr k.stream)
        (hk : k.source = m.source) (hlt : k.size < l.size) :
        (groups limit d x k).Follows limit (.spine .adjacent) d l := by
      refine (groups_follows limit d x k).last (hk.trans (Lexer.source_of_token hl)) ?_ ?_
      · intro y r hr
        rw [Lexer.stream_of_token hl]
        exact .spine hx hr
      · intro e he
        rw [Lexer.stream_of_token hl]
        exact .rest hx he
    split
    · rename_i hk
      rw [follows_weaken]
      exact after (.number hk) rfl hm
    · rename_i hk
      rw [follows_weaken]
      exact after (.ans hk) rfl hm
    · rename_i hk
      have inner := group_follows limit d t m
      split
      · rename_i ho
        rw [ho] at inner
        exact atom (follows_failed hl (.opened hk inner))
      · rename_i x k lt ho
        rw [ho] at inner
        rw [follows_weaken]
        exact after (.opened hk inner.1) inner.2 (by omega)
    · rename_i hnumber hans hopen
      exact atom (follows_failed hl (.noOperand hnumber hans hopen))
termination_by 7 * l.size

theorem groups_follows (limit : Limit) (d : Nat) (x : Subtree) (l : Lexer) :
    (groups limit d x l).Follows limit (.more .adjacent x.expr) d l := by
  rw [groups]
  split
  · rename_i hl
    exact follows_lex hl rfl
  · rename_i hl
    exact follows_done hl _
  · rename_i t m hl
    have hm := Lexer.size_token hl
    split
    · rename_i hopen
      have hj : Joint.adjacent.op? t.kind = some .mul := by simp [Joint.op?, hopen]
      have right := group_follows limit d t m
      split
      · rename_i ho
        rw [ho] at right
        exact follows_failed hl (.operand hj right)
      · rename_i y k lt ho
        rw [ho] at right
        obtain ⟨hy, hk⟩ := right
        dsimp only
        split
        · rename_i ha
          rw [follows_weaken]
          have rest := groups_follows limit d (.binary .mul x y) k
          exact follows_joined hl hj hy hk ha rest
        · rename_i ha
          rw [Subtree.height_eq] at ha
          exact follows_failed hl (.tall hj hy ha)
    · rename_i hopen
      exact follows_putBack hl (by simp [Joint.op?, hopen]) _
termination_by 7 * l.size

theorem group_follows (limit : Limit) (d : Nat) (o : Token) (l : Lexer) :
    (group limit d o l).Follows limit (.group o) d l := by
  rw [group]
  split
  · rename_i hd
    have inner := chain_follows limit .sum (d + 1) l
    split
    · rename_i ho
      rw [ho] at inner
      exact .inside hd inner
    · rename_i x m lt ho
      rw [ho] at inner
      obtain ⟨hx, hm⟩ := inner
      split
      · rename_i hl
        rw [Lexer.stream_of_error hl] at hx
        exact .lexAfter hd hx
      · rename_i hl
        rw [Lexer.stream_of_finished hl] at hx
        exact .unclosed hd hx trivial
      · rename_i t k hl
        rw [Lexer.stream_of_token hl] at hx
        split
        · rename_i hc
          exact ⟨.closed hd hx hc, (Lexer.source_of_token hl).trans hm⟩
        · rename_i hc
          exact .unclosed hd hx hc
  · rename_i hd
    exact .groupNested hd
termination_by 7 * l.size + 6
decreasing_by
  simp only [Tier.rank]
  omega

end

theorem reads_or_fails (limit : Limit) (ts : List Token) :
    (∃ x r, Reads limit .expression 0 (ts.map .ok) x r) ∨
      ∃ e, Fails limit 0 .expression 0 (ts.map .ok) e := by
  let l : Lexer := { Lexer.ofText [] with pending := ts }
  have hl : l.stream = ts.map .ok := by
    simp [l, Lexer.stream, Lexer.ofText, Scan.all_of_none (show Scan.first 0 [] = none from rfl)]
  have h := chain_follows limit .sum 0 l
  cases ho : chain limit .sum 0 l with
  | parsed x m lt =>
    rw [ho] at h
    exact .inl ⟨x.expr, _, hl ▸ h.1⟩
  | failed e m =>
    rw [ho] at h
    exact .inr ⟨e, hl ▸ h⟩

/-- What the rules allow reading the whole of a text to come to. -/
inductive Line (limit : Limit) (source : Text) : Except ParseError Expr → Prop
  | whole {x : Expr} :
      Reads limit .expression 0 (Scan.all 0 source) x [] → Line limit source (.ok x)
  | failed {e : ParseError} :
      Fails limit source.size .expression 0 (Scan.all 0 source) e → Line limit source (.error e)
  | lexAfter {x : Expr} {e : LexError} {r : List Item} :
      Reads limit .expression 0 (Scan.all 0 source) x (.error e :: r) →
      Line limit source (.error (.lex e))
  | leftOver {x : Expr} {t : Token} {r : List Item} :
      Reads limit .expression 0 (Scan.all 0 source) x (.ok t :: r) →
      Line limit source (.error (.unexpectedToken t.text t.position))

theorem line_run (limit : Limit) (source : Text) : Line limit source (run limit source).1 := by
  have h := chain_follows limit .sum 0 (Lexer.ofText source)
  rw [run, expression]
  split
  · rename_i e m ho
    rw [ho] at h
    exact .failed h
  · rename_i x m lt ho
    rw [ho] at h
    obtain ⟨hx, -⟩ := h
    rw [Lexer.stream_ofText] at hx
    split
    · rename_i hl
      rw [Lexer.stream_of_error hl] at hx
      exact .lexAfter hx
    · rename_i hl
      rw [Lexer.stream_of_finished hl] at hx
      exact .whole hx
    · rename_i hl
      rw [Lexer.stream_of_token hl] at hx
      exact .leftOver hx

theorem run_eq_ok_iff {limit : Limit} {source : Text} {x : Expr} :
    (run limit source).1 = .ok x ↔ Reads limit .expression 0 (Scan.all 0 source) x [] := by
  have h := line_run limit source
  constructor
  · intro hx
    rw [hx] at h
    cases h with
    | whole hr => exact hr
  · intro hx
    cases hr : (run limit source).1 with
    | ok y =>
      rw [hr] at h
      cases h with
      | whole hy => rw [(hx.unique hy).1]
    | error e =>
      rw [hr] at h
      cases h with
      | failed he => exact absurd he (hx.not_fails e)
      | lexAfter hy => cases (hx.unique hy).2
      | leftOver hy => cases (hx.unique hy).2

theorem line_iff {limit : Limit} {source : Text} {result : Except ParseError Expr} :
    Line limit source result ↔ (run limit source).1 = result := by
  constructor
  · intro h
    have hline := line_run limit source
    cases h with
    | whole hx => exact run_eq_ok_iff.2 hx
    | failed he =>
      generalize (run limit source).1 = ran at hline
      cases hline with
      | whole hx => exact absurd he (hx.not_fails _)
      | failed he' => rw [he.unique he']
      | lexAfter hx | leftOver hx => exact absurd he (hx.not_fails _)
    | lexAfter hx | leftOver hx =>
      generalize (run limit source).1 = ran at hline
      cases hline with
      | failed he => exact absurd he (hx.not_fails _)
      | whole hx' | lexAfter hx' | leftOver hx' => cases (hx.unique hx').2 <;> rfl
  · rintro rfl
    exact line_run limit source

end Parser
end DeskCalculator
