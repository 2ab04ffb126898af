import DeskCalculator.Proofs.Recognition
import Mathlib.Logic.Relation

/-! What the parser does to its lexer. It takes tokens, and it puts back none but the one that it
has just taken, so it leaves a suffix of the stream wherever it stops. It stops with an error at the
item that the error is about, or where it would have found more. What it takes as an expression goes
as far as any expression at the front of the stream. -/
namespace DeskCalculator
namespace Lexer

/-- One use of the lexer that the parser goes on after: a token is taken, or it is taken and put back
at once. -/
inductive Step : Lexer → Lexer → Prop
  | token {l m : Lexer} {t : Token} : l.next = .token t m → Step l m
  | lookAhead {l m : Lexer} {t : Token} : l.next = .token t m → Step l (m.putBack t)

abbrev Steps : Lexer → Lexer → Prop := Relation.ReflTransGen Step

/-- Steps lead to the parenthesis `o`, which is taken, and from there past the tokens `us`, a whole
expression that does not go on. -/
inductive Opens : Lexer → Token → List Token → Lexer → Prop
  | intro {l j i k : Lexer} {o : Token} {us : List Token} :
      Steps l j → j.next = .token o i → o.kind = .openParen → Steps i k →
      i.stream = us.map .ok ++ k.stream → IsExpression us → (Part.chain .sum).Ends k.stream →
      Opens l o us k

/-- Steps lead to where the error is met, and what is taken there leaves the last lexer. -/
inductive Halts : Lexer → ParseError → Lexer → Prop
  | lex {l k m : Lexer} {e : LexError} : Steps l k → k.next = .error e m → Halts l (.lex e) m
  | unexpectedToken {l k m : Lexer} {t : Token} :
      Steps l k → k.next = .token t m → Halts l (.unexpectedToken t.text t.position) m
  | unexpectedEnd {l k : Lexer} {p : Nat} :
      Steps l k → k.next = .finished → Halts l (.unexpectedEnd p) k
  | unclosed {l k m : Lexer} {o t : Token} {us : List Token} :
      Opens l o us k → k.next = .token t m → t.kind ≠ .closeParen →
      Halts l (.unclosedParen o.position) m
  | unclosedEnd {l k : Lexer} {o : Token} {us : List Token} :
      Opens l o us k → k.next = .finished → Halts l (.unclosedParen o.position) k
  | tooDeep {l k : Lexer} {p : Nat} : Steps l k → Halts l (.tooDeep p) k

variable {l m k : Lexer} {o : Token} {us : List Token} {e : ParseError}

theorem Step.stream_suffix (h : Step l m) : m.stream <:+ l.stream := by
  cases h with
  | @token _ t hl =>
    rw [stream_of_token hl]
    exact List.suffix_cons (.ok t) m.stream
  | @lookAhead m t hl =>
    have hsame : (m.putBack t).stream = l.stream := (stream_of_token hl).symm
    exact hsame ▸ List.suffix_rfl

/-- Nothing is lost from the middle of the stream, repeated or moved. -/
theorem Steps.stream_suffix (h : Steps l m) : m.stream <:+ l.stream := by
  induction h with
  | refl => exact List.suffix_rfl
  | tail _ hstep ih => exact hstep.stream_suffix.trans ih

theorem Opens.steps (h : Opens l o us k) : Steps l k := by
  cases h with
  | intro hj hi _ hk _ _ _ => exact hj.trans (.head (.token hi) hk)

theorem Opens.head (h : Opens m o us k) (hm : Steps l m) : Opens l o us k := by
  cases h with
  | intro hj hi ho hk hs hus hends => exact .intro (hm.trans hj) hi ho hk hs hus hends

theorem Halts.head (h : Halts m e k) (hm : Steps l m) : Halts l e k := by
  cases h with
  | lex hk hl => exact .lex (hm.trans hk) hl
  | unexpectedToken hk hl => exact .unexpectedToken (hm.trans hk) hl
  | unexpectedEnd hk hl => exact .unexpectedEnd (hm.trans hk) hl
  | unclosed ho hl ht => exact .unclosed (ho.head hm) hl ht
  | unclosedEnd ho hl => exact .unclosedEnd (ho.head hm) hl
  | tooDeep hk => exact .tooDeep (hm.trans hk)

theorem Halts.stream_suffix (h : Halts l e m) : m.stream <:+ l.stream := by
  cases h with
  | @lex _ _ e hk hl =>
    have hitem := List.suffix_cons (.error e) m.stream
    rw [← stream_of_error hl] at hitem
    exact hitem.trans hk.stream_suffix
  | unexpectedToken hk hl => exact Steps.stream_suffix (hk.tail (.token hl))
  | unexpectedEnd hk _ => exact hk.stream_suffix
  | unclosed ho hl _ => exact Steps.stream_suffix (ho.steps.tail (.token hl))
  | unclosedEnd ho _ => exact ho.steps.stream_suffix
  | tooDeep hk => exact hk.stream_suffix

end Lexer

namespace Parser

open Reading Lexer

namespace Outcome

def Moves {n : Nat} (o : Outcome n) (l : Lexer) : Prop :=
  match o with
  | .parsed _ m _ => Steps l m
  | .failed e m => Halts l e m

variable {n n' : Nat} {o : Outcome n} {l m : Lexer}

@[simp] theorem moves_weaken (h : n ≤ n') : (o.weaken h).Moves l ↔ o.Moves l := by
  cases o <;> rfl

theorem Moves.head (h : o.Moves m) (hm : Steps l m) : o.Moves l := by
  cases o with
  | parsed x k lt => exact hm.trans h
  | failed e k => exact Halts.head h hm

theorem Moves.stream_suffix (h : o.Moves l) : o.lexer.stream <:+ l.stream := by
  cases o with
  | parsed x k lt => exact Steps.stream_suffix h
  | failed e k => exact Halts.stream_suffix h

end Outcome

open Outcome

/-! One theorem for each function. That of a group begins before the parenthesis is taken. -/

mutual

theorem chain_steps (limit : Limit) (tier : Tier) (d : Nat) (l : Lexer) :
    (chain limit tier d l).Moves l := by
  have first := operand_steps limit tier d l
  rw [chain]
  split
  · rename_i e m ho
    rw [ho] at first
    exact first
  · rename_i x m lt ho
    rw [ho] at first
    rw [moves_weaken]
    exact (chainRest_steps limit tier d x m).head first
termination_by 7 * l.size + (2 * tier.rank + 3)

theorem chainRest_steps (limit : Limit) (tier : Tier) (d : Nat) (x : Subtree) (l : Lexer) :
    (chainRest limit tier d x l).Moves l := by
  rw [chainRest]
  split
  · rename_i hl
    exact .lex .refl hl
  · exact .refl
  · rename_i t m hl
    have hm := size_token hl
    split
    · exact .single (.lookAhead hl)
    · rename_i op hop
      split
      · have right := (operand_steps limit tier d m).head (.single (.token hl))
        split
        · rename_i ho
          rw [ho] at right
          exact right
        · rename_i y k lt ho
          rw [ho] at right
          dsimp only
          split
          · rw [moves_weaken]
            exact (chainRest_steps limit tier d (.binary op x y) k).head right
          · exact .tooDeep right
      · exact .single (.lookAhead hl)
termination_by 7 * l.size
decreasing_by
  all_goals
    have := tier.rank_le_one
    omega

theorem operand_steps (limit : Limit) (tier : Tier) (d : Nat) (l : Lexer) :
    (operand limit tier d l).Moves l := by
  cases tier with
  | sum =>
    rw [operand]
    exact chain_steps limit .product d l
  | product =>
    rw [operand]
    exact signed_steps limit d l
termination_by 7 * l.size + (2 * tier.rank + 2)
decreasing_by
  all_goals
    simp only [Tier.rank]
    omega

theorem signed_steps (limit : Limit) (d : Nat) (l : Lexer) :
    (signed limit d l).Moves l := by
  rw [signed]
  split
  · rename_i hl
    exact .lex .refl hl
  · rename_i hl
    exact .unexpectedEnd .refl hl
  · rename_i t m hl
    have hm := size_token hl
    split
    · split
      · have inner := (signed_steps limit (d + 1) m).head (.single (.token hl))
        split
        · rename_i ho
          rw [ho] at inner
          exact inner
        · rename_i x k lt ho
          rw [ho] at inner
          dsimp only
          split
          · exact inner
          · exact .tooDeep inner
      · exact .tooDeep (.single (.token hl))
    · rw [moves_weaken]
      exact (primary_steps limit d (m.putBack t)).head (.single (.lookAhead hl))
termination_by 7 * l.size + 1
decreasing_by
  · omega
  · rw [size_putBack]
    omega

theorem primary_steps (limit : Limit) (d : Nat) (l : Lexer) :
    (primary limit d l).Moves l := by
  rw [primary]
  split
  · rename_i hl
    exact .lex .refl hl
  · rename_i hl
    exact .unexpectedEnd .refl hl
  · rename_i t m hl
    have hm := size_token hl
    split
    · rw [moves_weaken]
      exact (groups_steps limit d _ m).head (.single (.token hl))
    · rw [moves_weaken]
      exact (groups_steps limit d _ m).head (.single (.token hl))
    · rename_i hk
      have inner := group_steps limit d hl hk
      split
      · rename_i ho
        rw [ho] at inner
        exact inner
      · rename_i x k lt ho
        rw [ho] at inner
        rw [moves_weaken]
        exact (groups_steps limit d x k).head inner
    · exact .unexpectedToken .refl hl
termination_by 7 * l.size

theorem groups_steps (limit : Limit) (d : Nat) (x : Subtree) (l : Lexer) :
    (groups limit d x l).Moves l := by
  rw [groups]
  split
  · rename_i hl
    exact .lex .refl hl
  · exact .refl
  · rename_i t m hl
    have hm := size_token hl
    split
    · rename_i hk
      have right := group_steps limit d hl hk
      split
      · rename_i ho
        rw [ho] at right
        exact right
      · rename_i y k lt ho
        rw [ho] at right
        dsimp only
        split
        · rw [moves_weaken]
          exact (groups_steps limit d (.binary .mul x y) k).head right
        · exact .tooDeep right
    · exact .single (.lookAhead hl)
termination_by 7 * l.size

theorem group_steps (limit : Limit) (d : Nat) {j l : Lexer} {o : Token}
    (hj : j.next = .token o l) (hk : o.kind = .openParen) : (group limit d o l).Moves j := by
  have opened : Steps j l := .single (.token hj)
  rw [group]
  split
  · have inner := chain_steps limit .sum (d + 1) l
    have follows := chain_follows limit .sum (d + 1) l
    split
    · rename_i ho
      rw [ho] at inner
      exact Halts.head inner opened
    · rename_i x m lt ho
      rw [ho] at inner follows
      obtain ⟨ts, n, hs, hx, -⟩ := follows.1.derived
      have passed : Opens j o ts m :=
        .intro .refl hj hk inner hs ⟨x.expr, n, hx⟩ follows.1.ends_expression
      split
      · rename_i hl
        exact .lex passed.steps hl
      · rename_i hl
        exact .unclosedEnd passed hl
      · rename_i t k hl
        split
        · exact passed.steps.tail (.token hl)
        · rename_i hc
          exact .unclosed passed hl hc
  · exact .tooDeep opened
termination_by 7 * l.size + 6
decreasing_by
  simp only [Tier.rank]
  omega

end

end Parser

namespace Recognizer

variable {ts us : List Token} {t : Token} {s q r : List Item}

theorem after_of_isExpression (h : IsExpression ts) : after .due [] ts = .ok (.read, []) := by
  have hrun := isExpression_iff.1 h
  cases hts : after .due [] ts with
  | error e =>
    have herror : run 0 .due [] (ts.map .ok ++ []) = .error e := run_of_after_error hts
    rw [List.append_nil, hrun] at herror
    cases herror
  | ok p =>
    obtain ⟨state, opened⟩ := p
    have hend := run_of_after 0 [] hts
    rw [List.append_nil, hrun] at hend
    cases state with
    | due => cases hend
    | read =>
      cases opened with
      | nil => rfl
      | cons p opened => cases hend

/-- An expression that cannot go on with the next token is the front of no other expression that
does. -/
theorem not_viable_of_ends (h : IsExpression ts) (hends : (Part.chain .sum).Ends (.ok t :: s)) :
    ¬ Viable (ts ++ [t]) := by
  have herror : step .read [] t = .error (misplaced t []) := step_of_ends hends fun _ => rfl
  rw [viable_iff, after_append (after_of_isExpression h)]
  rintro ⟨state, opened, hafter⟩
  simp [after, herror] at hafter

theorem length_le_of_ends (h : IsExpression ts) (hends : (Part.chain .sum).Ends r)
    (hus : IsExpression us) (hitems : us.map .ok ++ q = ts.map .ok ++ r) :
    us.length ≤ ts.length := by
  rcases List.append_eq_append_iff.1 hitems with ⟨is, hts, -⟩ | ⟨is, hvs, hr⟩
  · have hlength := congrArg List.length hts
    simp only [List.length_map, List.length_append] at hlength
    omega
  · obtain ⟨ts', vs, rfl, hts', rfl⟩ := List.map_eq_append_iff.1 hvs
    obtain rfl := Item.eq_of_map_ok hts'
    cases vs with
    | nil => simp
    | cons t vs =>
      rw [hr] at hends
      have hviable : Viable (ts' ++ [t]) := ⟨vs, by simpa using hus⟩
      exact absurd hviable (not_viable_of_ends h hends)

end Recognizer

theorem Part.exists_of_ends {i : Item} {r : List Item} (h : (Part.chain .sum).Ends (i :: r)) :
    ∃ t, i = .ok t ∧
      (t.kind = .closeParen ∨ t.kind = .number ∨ t.kind = .ans ∨ t.kind = .blank) := by
  cases i with
  | error e => exact h.elim
  | ok t =>
    refine ⟨t, rfl, ?_⟩
    cases hk : t.kind <;> simp_all [Part.Ends, Part.goesOn, TokenKind.operator?]

/-- Wherever the parser stops, it has taken the front of the stream and left the rest as it was,
whatever has been put back. If it gives a tree, it has taken tokens that derive the tree, the item
that it has stopped before cannot go on with them, and no expression at the front of the stream is
longer. -/
theorem Parser.expression_stream (limit : Limit) (l : Lexer) :
    (expression limit l).lexer.stream <:+ l.stream ∧
    ∀ x, (expression limit l).result = .ok x → ∃ ts n, ts ≠ [] ∧
      l.stream = ts.map .ok ++ (expression limit l).lexer.stream ∧
      Derives (.chain .sum) ts x n ∧
      (∀ i rest, (expression limit l).lexer.stream = i :: rest → ∃ t, i = .ok t ∧
        (t.kind = .closeParen ∨ t.kind = .number ∨ t.kind = .ans ∨ t.kind = .blank)) ∧
      ∀ us rest, l.stream = us.map .ok ++ rest → IsExpression us → us.length ≤ ts.length := by
  refine ⟨(chain_steps limit .sum 0 l).stream_suffix, fun x hx => ?_⟩
  have hfollows := chain_follows limit .sum 0 l
  rw [← expression] at hfollows
  cases ho : expression limit l with
  | failed e m =>
    rw [ho] at hx
    cases hx
  | parsed y m lt =>
    rw [ho] at hfollows hx
    obtain rfl := Except.ok.inj hx
    obtain ⟨hreads, -⟩ := hfollows
    obtain ⟨ts, n, hs, hder, -⟩ := hreads.derived
    have hends := hreads.ends_expression
    refine ⟨ts, n, hder.ne_nil, hs, hder, fun i rest hi => ?_, fun us rest hus hexpr => ?_⟩
    · have hnext : m.stream = i :: rest := hi
      rw [hnext] at hends
      exact Part.exists_of_ends hends
    · exact Recognizer.length_le_of_ends ⟨y.expr, n, hder⟩ hends hexpr (hus.symm.trans hs)

/-- A number that never stood in the text `+ans)` is put back before it. -/
theorem Parser.expression_stream_putBack :
    let l := (Lexer.ofText "+ans)".toList).putBack ⟨.number, ['7'], 40⟩
    let x := Expr.binary .add (.number ['7']) .ans
    (expression (some maxDepth) l).result = .ok x ∧
    ∃ ts n, l.stream = ts.map .ok ++ (expression (some maxDepth) l).lexer.stream ∧
      Derives (.chain .sum) ts x n := by
  intro l x
  have hx : (expression (some maxDepth) l).result = .ok x := by decide +kernel
  obtain ⟨ts, n, -, hs, hder, -⟩ := (expression_stream (some maxDepth) l).2 x hx
  exact ⟨hx, ts, n, hs, hder⟩

end DeskCalculator
