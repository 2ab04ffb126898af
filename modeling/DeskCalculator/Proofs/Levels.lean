import DeskCalculator.Proofs.Progress
import Mathlib.Control.Monad.Basic

/-! The levels read what the parser reads. Their functions and the parser's satisfy the same equations,
one for each thing that the lexer can answer. A loop never runs out of items, since each iteration
takes some, and a level is missing only where the limit does not allow it. -/
namespace DeskCalculator
namespace Parser

open Reading (Joint)
open Outcome

/-! Equations by what the lexer answers. -/

section Equations

variable {limit : Limit} {j : Joint} {n : Nat} {x : Subtree} {e : LexError} {t : Token}
  {op : BinaryOp} {l m : Lexer} {read : Token → Lexer → Attempt}
  {again again' : Subtree → Lexer → Attempt} {next : Token → Lexer → Attempt}

theorem iterate_error (hl : l.next = .error e m) :
    iterate limit j read again x l = some (.error (.lex e), m) := by
  simp [iterate, hl]

theorem iterate_finished (hl : l.next = .finished) :
    iterate limit j read again x l = some (.ok x, l) := by
  simp [iterate, hl]

theorem iterate_stops (hl : l.next = .token t m) (hj : j.op? t.kind = none) :
    iterate limit j read again x l = some (.ok x, m.putBack t) := by
  simp [iterate, hl, hj]

theorem iterate_joins (hl : l.next = .token t m) (hj : j.op? t.kind = some op) :
    iterate limit j read again x l = (read t m).andThen fun y k =>
      if limit.allows (Subtree.binary op x y).height then again (.binary op x y) k
      else some (.error (.tooDeep t.position), k) := by
  simp [iterate, hl, hj]

namespace Level

theorem first_error (hl : l.next = .error e m) : first l next = some (.error (.lex e), m) := by
  simp [first, hl]

theorem first_finished (hl : l.next = .finished) :
    first l next = some (.error (.unexpectedEnd l.source.size), l) := by
  simp [first, hl]

theorem first_token (hl : l.next = .token t m) : first l next = next t m := by
  simp [first, hl]

theorem close_error (o : Token) (hl : l.next = .error e m) :
    close o x l = some (.error (.lex e), m) := by
  simp [close, hl]

theorem close_finished (o : Token) (hl : l.next = .finished) :
    close o x l = some (.error (.unclosedParen o.position), l) := by
  simp [close, hl]

theorem close_token (o : Token) (hl : l.next = .token t m) : close o x l =
    if t.kind = .closeParen then some (.ok x, m)
    else some (.error (.unclosedParen o.position), m) := by
  simp [close, hl]

variable {limit : Limit} {d : Nat} {s : Sign} (inside : Option Level)

theorem atom_number (hl : l.next = .token t m) (hk : t.kind = .number) :
    atom limit d inside l = groups limit d inside (.number t.text) m := by
  simp only [atom, first_token hl, hk]

theorem atom_ans (hl : l.next = .token t m) (hk : t.kind = .ans) :
    atom limit d inside l = groups limit d inside .ans m := by
  simp only [atom, first_token hl, hk]

theorem atom_openParen (hl : l.next = .token t m) (hk : t.kind = .openParen) :
    atom limit d inside l = (group limit d inside t m).andThen (groups limit d inside) := by
  simp only [atom, first_token hl, hk]

theorem atom_other (hl : l.next = .token t m) (hnumber : t.kind ≠ .number) (hans : t.kind ≠ .ans)
    (hopen : t.kind ≠ .openParen) :
    atom limit d inside l = some (.error (.unexpectedToken t.text t.position), m) := by
  rw [atom, first_token hl]
  cases hk : t.kind <;> simp_all

theorem prefixed_sign (hl : l.next = .token t m) (hs : t.kind.sign? = some s) :
    prefixed limit d inside l =
      if limit.allows (d + 1) then
        inside.bind fun level => (level.signed m).andThen fun x k =>
          if limit.allows (Subtree.signed s x).height then some (.ok (.signed s x), k)
          else some (.error (.tooDeep t.position), k)
      else some (.error (.tooDeep t.position), m) := by
  simp only [prefixed, first_token hl, hs]

theorem prefixed_unsigned (hl : l.next = .token t m) (hs : t.kind.sign? = none) :
    prefixed limit d inside l = atom limit d inside (m.putBack t) := by
  simp only [prefixed, first_token hl, hs]

end Level

/-- An iteration needs the loop to go on only where fewer items are left. -/
theorem iterate_congr
    (hread : ∀ t m y k, read t m = some (.ok y, k) → k.stream.length < m.stream.length)
    (h : ∀ y k, k.stream.length < l.stream.length → again y k = again' y k) :
    iterate limit j read again x l = iterate limit j read again' x l := by
  cases hl : l.next with
  | error e m => rw [iterate_error hl, iterate_error hl]
  | finished => rw [iterate_finished hl, iterate_finished hl]
  | token t m =>
    cases hj : j.op? t.kind with
    | none => rw [iterate_stops hl hj, iterate_stops hl hj]
    | some op =>
      rw [iterate_joins hl hj, iterate_joins hl hj]
      cases hr : read t m with
      | none => rfl
      | some r =>
        obtain ⟨r | y, k⟩ := r
        · rfl
        · have hk := hread t m y k hr
          have hlength : k.stream.length < l.stream.length := by
            rw [Lexer.stream_of_token hl, List.length_cons]
            omega
          rw [Attempt.andThen_ok, Attempt.andThen_ok, h _ k hlength]

/-- A loop with as many iterations as there are items comes to its end. -/
theorem loop_eq_some {ending : Subtree → Lexer → Ending}
    (hread : ∀ t m y k, read t m = some (.ok y, k) → k.stream.length < m.stream.length)
    (hloop : ∀ y k, some (ending y k) = iterate limit j read (fun y k => some (ending y k)) y k)
    (hn : l.stream.length ≤ n) : loop limit j read n x l = some (ending x l) := by
  induction n generalizing x l with
  | zero =>
    rw [loop, hloop]
    exact iterate_congr hread fun y k hk => absurd hk (by omega)
  | succ n ih =>
    rw [loop, hloop]
    exact iterate_congr hread fun y k hk => ih (by omega)

end Equations

/-! The loops and the functions of the parser satisfy the same equations. -/

section Functions

variable (limit : Limit) (tier : Tier) (d : Nat) (x : Subtree) (l : Lexer)

theorem some_chainRest : some (chainRest limit tier d x l).ending =
    iterate limit (.operator tier) (fun _ m => some (operand limit tier d m).ending)
      (fun y k => some (chainRest limit tier d y k).ending) x l := by
  rw [chainRest]
  split
  · rename_i hl
    rw [iterate_error hl, ending_failed]
  · rename_i hl
    rw [iterate_finished hl, ending_parsed]
  · rename_i t m hl
    split
    · rename_i hop
      have hj : (Joint.operator tier).op? t.kind = none := by simp [Joint.op?, hop]
      rw [iterate_stops hl hj, ending_parsed]
    · rename_i op hop
      split
      · rename_i htier
        have hj : (Joint.operator tier).op? t.kind = some op := by simp [Joint.op?, hop, htier]
        rw [iterate_joins hl hj]
        split
        · rename_i ho
          rw [ho, ending_failed, ending_failed, Attempt.andThen_error]
        · rename_i y k lt ho
          rw [ho, ending_parsed, Attempt.andThen_ok]
          dsimp only
          split
          · rw [ending_weaken]
          · rw [ending_failed]
      · rename_i htier
        have hj : (Joint.operator tier).op? t.kind = none := by simp [Joint.op?, hop, htier]
        rw [iterate_stops hl hj, ending_parsed]

theorem some_groups : some (groups limit d x l).ending =
    iterate limit .adjacent (fun t m => some (group limit d t m).ending)
      (fun y k => some (groups limit d y k).ending) x l := by
  rw [groups]
  split
  · rename_i hl
    rw [iterate_error hl, ending_failed]
  · rename_i hl
    rw [iterate_finished hl, ending_parsed]
  · rename_i t m hl
    split
    · rename_i hopen
      have hj : Joint.adjacent.op? t.kind = some .mul := by simp [Joint.op?, hopen]
      rw [iterate_joins hl hj]
      split
      · rename_i ho
        rw [ho, ending_failed, ending_failed, Attempt.andThen_error]
      · rename_i y k lt ho
        rw [ho, ending_parsed, Attempt.andThen_ok]
        dsimp only
        split
        · rw [ending_weaken]
        · rw [ending_failed]
    · rename_i hopen
      have hj : Joint.adjacent.op? t.kind = none := by simp [Joint.op?, hopen]
      rw [iterate_stops hl hj, ending_parsed]

end Functions

structure Level.Agrees (level : Level) (limit : Limit) (d : Nat) : Prop where
  sum : ∀ l, level.sum l = some (chain limit .sum d l).ending
  product : ∀ l, level.product l = some (chain limit .product d l).ending
  signed : ∀ l, level.signed l = some (Parser.signed limit d l).ending
  primary : ∀ l, level.primary l = some (Parser.primary limit d l).ending

/-- A level is left where the limit allows one more. -/
inductive Leaves (limit : Limit) (d : Nat) : Option Level → Prop
  | none : ¬ limit.allows (d + 1) = true → Leaves limit d none
  | some {level : Level} : level.Agrees limit (d + 1) → Leaves limit d (some level)

namespace Level

variable {limit : Limit} {tier : Tier} {d : Nat} {inside : Option Level}

theorem group_eq_some (h : Leaves limit d inside) (o : Token) (l : Lexer) :
    group limit d inside o l = some (Parser.group limit d o l).ending := by
  rw [group, Parser.group]
  split
  · rename_i hd
    cases h with
    | none hnot => exact absurd hd hnot
    | @some level hlevel =>
      rw [Option.bind_some, hlevel.sum]
      split
      · rename_i ho
        rw [ho, ending_failed, Attempt.andThen_error]
      · rename_i x m lt ho
        rw [ho, ending_parsed, Attempt.andThen_ok]
        split
        · rename_i hl
          rw [close_error o hl, ending_failed]
        · rename_i hl
          rw [close_finished o hl, ending_failed]
        · rename_i t k hl
          rw [close_token o hl]
          split
          · rw [ending_parsed]
          · rw [ending_failed]
  · rw [ending_failed]

theorem length_lt_of_some {a : Activation} {f : Attempt} {x : Subtree} {m : Lexer}
    (ha : a.routine.isLoop = false) (hf : f = some (a.ending limit)) (h : f = some (.ok x, m)) :
    m.stream.length < a.lexer.stream.length :=
  (Activation.takes ha (Option.some.inj (hf.symm.trans h))).length_le

theorem groups_eq_some (h : Leaves limit d inside) (x : Subtree) (l : Lexer) :
    groups limit d inside x l = some (Parser.groups limit d x l).ending := by
  have hgroup : group limit d inside = fun o l => some (Parser.group limit d o l).ending :=
    funext fun o => funext fun l => group_eq_some h o l
  rw [groups, hgroup]
  refine loop_eq_some (fun t m y k hr => ?_) (some_groups limit d) (Nat.le_refl _)
  exact length_lt_of_some (a := ⟨.group t, d, m⟩) rfl rfl hr

theorem atom_eq_some (h : Leaves limit d inside) (l : Lexer) :
    atom limit d inside l = some (Parser.primary limit d l).ending := by
  rw [Parser.primary]
  split
  · rename_i hl
    rw [atom, first_error hl, ending_failed]
  · rename_i hl
    rw [atom, first_finished hl, ending_failed]
  · rename_i t m hl
    split
    · rename_i hk
      rw [atom_number inside hl hk, groups_eq_some h, ending_weaken]
    · rename_i hk
      rw [atom_ans inside hl hk, groups_eq_some h, ending_weaken]
    · rename_i hk
      rw [atom_openParen inside hl hk, group_eq_some h]
      split
      · rename_i ho
        rw [ho, ending_failed, ending_failed, Attempt.andThen_error]
      · rename_i x k lt ho
        rw [ho, ending_parsed, Attempt.andThen_ok, groups_eq_some h, ending_weaken]
    · rename_i hnumber hans hopen
      rw [atom_other inside hl hnumber hans hopen, ending_failed]

theorem prefixed_eq_some (h : Leaves limit d inside) (l : Lexer) :
    prefixed limit d inside l = some (Parser.signed limit d l).ending := by
  rw [Parser.signed]
  split
  · rename_i hl
    rw [prefixed, first_error hl, ending_failed]
  · rename_i hl
    rw [prefixed, first_finished hl, ending_failed]
  · rename_i t m hl
    split
    · rename_i s hs
      rw [prefixed_sign inside hl hs]
      split
      · rename_i hd
        cases h with
        | none hnot => exact absurd hd hnot
        | @some level hlevel =>
          rw [Option.bind_some, hlevel.signed]
          split
          · rename_i ho
            rw [ho, ending_failed, ending_failed, Attempt.andThen_error]
          · rename_i x k lt ho
            rw [ho, ending_parsed, Attempt.andThen_ok]
            dsimp only
            split
            · rw [ending_parsed]
            · rw [ending_failed]
      · rw [ending_failed]
    · rename_i hs
      rw [prefixed_unsigned inside hl hs, atom_eq_some h, ending_weaken]

theorem joined_eq_some {read : Lexer → Attempt}
    (h : ∀ l, read l = some (Parser.operand limit tier d l).ending) (l : Lexer) :
    joined limit tier read l = some (Parser.chain limit tier d l).ending := by
  have hread : read = fun l => some (Parser.operand limit tier d l).ending := funext h
  have hrest : ∀ x m, fold limit (.operator tier) (fun _ => read) x m =
      some (chainRest limit tier d x m).ending := by
    intro x m
    rw [hread]
    refine loop_eq_some (fun t m y k hr => ?_) (some_chainRest limit tier d) (Nat.le_refl _)
    exact length_lt_of_some (a := ⟨.operand tier, d, m⟩) rfl rfl hr
  rw [joined, h, chain]
  split
  · rename_i ho
    rw [ho, ending_failed, Attempt.andThen_error]
  · rename_i x m lt ho
    rw [ho, ending_parsed, Attempt.andThen_ok, hrest, ending_weaken]

theorem around_agrees (h : Leaves limit d inside) : (around limit d inside).Agrees limit d := by
  have hproduct : ∀ l, joined limit .product (prefixed limit d inside) l =
      some (chain limit .product d l).ending :=
    joined_eq_some fun l => by rw [operand, prefixed_eq_some h]
  have hsum : ∀ l, joined limit .sum (joined limit .product (prefixed limit d inside)) l =
      some (chain limit .sum d l).ending :=
    joined_eq_some fun l => by rw [operand, hproduct]
  exact ⟨hsum, hproduct, prefixed_eq_some h, atom_eq_some h⟩

end Level

/-- With as many levels as the depth leaves, none is missed. -/
theorem level_agrees (n d : Nat) : (level (some (d + n)) n d).Agrees (some (d + n)) d := by
  induction n generalizing d with
  | zero =>
    have hlimit : ¬ Limit.allows (some (d + 0)) (d + 1) = true := by simp [Limit.allows]
    exact Level.around_agrees (.none hlimit)
  | succ n ih =>
    have hinside := ih (d + 1)
    rw [Nat.add_right_comm, Nat.add_assoc] at hinside
    exact Level.around_agrees (.some hinside)

/-- The parser comes to an end from every lexer, whatever has been put back. Calls do not follow one
another without end, a routine that is no loop takes a token before it gives a tree, an iteration that
goes on takes two, and no call is deeper than the limit. So recursion on the levels that are left and
on the items that are left never runs out, and it comes to the same tree or error, and to the same
lexer. -/
theorem calls_come_to_an_end :
    (WellFounded fun b a => Calls (some maxDepth) a b) ∧
    (∀ (a : Activation) x m, a.routine.isLoop = false →
      a.ending (some maxDepth) = (.ok x, m) → Lexer.Takes 1 a.lexer m) ∧
    (∀ a b, Calls (some maxDepth) a b → a.routine.isLoop = true → b.routine.isLoop = true →
      Lexer.Takes 2 a.lexer b.lexer) ∧
    (∀ a b, Relation.ReflTransGen (Calls (some maxDepth)) a b → a.depth ≤ maxDepth →
      b.depth ≤ maxDepth) ∧
    ∀ d ≤ maxDepth, ∀ l,
      (level (some maxDepth) (maxDepth - d) d).sum l = some (chain (some maxDepth) .sum d l).ending ∧
      (level (some maxDepth) (maxDepth - d) d).product l =
        some (chain (some maxDepth) .product d l).ending ∧
      (level (some maxDepth) (maxDepth - d) d).signed l = some (signed (some maxDepth) d l).ending ∧
      (level (some maxDepth) (maxDepth - d) d).primary l =
        some (primary (some maxDepth) d l).ending := by
  refine ⟨calls_wellFounded _, fun a x m => a.takes, fun a b h => h.iteration, fun a b h ha => ?_,
    fun d hd l => ?_⟩
  · have hallowed : Limit.allows (some maxDepth) a.depth = true := Limit.allows_some.2 ha
    exact Limit.allows_some.1 (allows_depth_of_calls h hallowed)
  · have hagrees := level_agrees (maxDepth - d) d
    rw [Nat.add_sub_cancel' hd] at hagrees
    exact ⟨hagrees.sum l, hagrees.product l, hagrees.signed l, hagrees.primary l⟩

/-- A parenthesis that never stood in the text `2)(3)` is put back before it, at the last depth but
one. -/
theorem calls_come_to_an_end_putBack :
    let m := Lexer.ofText "2)(3)".toList
    let o : Token := ⟨.openParen, ['('], 40⟩
    let l := m.putBack o
    let inner := (group (some maxDepth) 255 o m).lexer
    Lexer.Takes 1 l (primary (some maxDepth) 255 l).lexer ∧ Lexer.Takes 2 l inner ∧
    Relation.ReflTransGen (Calls (some maxDepth)) ⟨.primary, 255, l⟩ ⟨.chain .sum, 256, m⟩ ∧
    256 ≤ maxDepth ∧
    (level (some maxDepth) 1 255).primary l = some (primary (some maxDepth) 255 l).ending := by
  intro m o l inner
  obtain ⟨-, htakes, hiteration, hdepth, hlevels⟩ := calls_come_to_an_end
  have hnext : l.next = .token o m := rfl
  let two : Subtree := .number ['2']
  let three : Subtree := .number ['3']
  have hinside : (group (some maxDepth) 255 o m).built = .ok two := by decide +kernel
  have hgroup : Activation.ending (some maxDepth) ⟨.group o, 255, m⟩ = (.ok two, inner) :=
    Prod.ext hinside rfl
  have hwhole : (primary (some maxDepth) 255 l).built = .ok (.binary .mul two three) := by
    decide +kernel
  have hprimary : Activation.ending (some maxDepth) ⟨.primary, 255, l⟩ =
      (.ok (.binary .mul two three), (primary (some maxDepth) 255 l).lexer) :=
    Prod.ext hwhole rfl
  have hcalls : Relation.ReflTransGen (Calls (some maxDepth)) ⟨.primary, 255, l⟩
      ⟨.chain .sum, 256, m⟩ :=
    .tail (.single (.primary_group hnext rfl)) (.group_chain rfl)
  exact ⟨htakes _ _ _ rfl hprimary,
    hiteration ⟨.groups .ans, 255, l⟩ _ (.groups_groups hnext rfl hgroup rfl) rfl rfl, hcalls,
    hdepth _ _ hcalls (by decide), (hlevels 255 (by decide) l).2.2.2⟩

end Parser
end DeskCalculator
