import DeskCalculator.Proofs.Derivation
import Mathlib.Logic.Relation

/-! That the parser comes to an end. A call is made with fewer items to read, or with as many and on a
lower level of the grammar, and at a depth that the limit allows. -/
namespace DeskCalculator

namespace Lexer

variable {m n : Nat} {l i k : Lexer} {t : Token}

theorem Takes.trans (h : Takes m l i) (h' : Takes n i k) : Takes (m + n) l k := by
  obtain ⟨ts, hts, hl⟩ := h
  obtain ⟨us, hus, hi⟩ := h'
  refine ⟨ts ++ us, ?_, ?_⟩
  · rw [List.length_append]
    omega
  · rw [hl, hi, List.map_append, List.append_assoc]

theorem Takes.length_le (h : Takes n l k) : k.stream.length + n ≤ l.stream.length := by
  obtain ⟨ts, hts, hl⟩ := h
  rw [hl, List.length_append, List.length_map]
  omega

theorem Takes.mono (h : Takes n l k) (hm : m ≤ n) : Takes m l k := by
  obtain ⟨ts, hts, hl⟩ := h
  exact ⟨ts, Nat.le_trans hm hts, hl⟩

theorem takes_of_token (h : l.next = .token t k) : Takes 1 l k :=
  ⟨[t], Nat.le_refl 1, stream_of_token h⟩

end Lexer

namespace Reading

def Call.isWhole : Call → Bool
  | .more _ _ => false
  | .spine _ | .signed | .atom | .group _ => true

variable {limit : Limit} {c : Call} {d n : Nat} {ts : List Token} {l m : Lexer} {x : Expr}

theorem ne_nil_of_derived (h : c.Derived ts x n) (hc : c.isWhole = true) : ts ≠ [] := by
  cases c with
  | spine j | signed | atom => exact Derives.ne_nil h
  | more j left => cases hc
  | group o =>
    obtain ⟨us, t, k, rfl, -⟩ := h
    simp

theorem Reads.takes (h : Reads limit c d l.stream x m.stream) (hc : c.isWhole = true) :
    Lexer.Takes 1 l m := by
  obtain ⟨ts, n, hs, hx, -⟩ := h.derived
  exact ⟨ts, List.length_pos_iff.2 (ne_nil_of_derived hx hc), hs⟩

end Reading

namespace Parser

open Reading Outcome Lexer

variable {limit : Limit} {a b : Activation}

theorem Outcome.Follows.takes {c : Call} {d n : Nat} {l m : Lexer} {o : Outcome n} {x : Subtree}
    (h : o.Follows limit c d l) (hc : c.isWhole = true) (ho : o.ending = (.ok x, m)) :
    Takes 1 l m := by
  obtain ⟨lt, rfl⟩ := exists_of_ending_ok ho
  exact h.1.takes hc

/-- A routine that is no loop takes a token at least before it comes to a tree. -/
theorem Activation.takes {x : Subtree} {m : Lexer} (ha : a.routine.isLoop = false)
    (h : a.ending limit = (.ok x, m)) : Takes 1 a.lexer m := by
  obtain ⟨f, d, l⟩ := a
  cases f with
  | chain tier => exact (chain_follows limit tier d l).takes rfl h
  | operand tier => cases tier <;> exact (operand_follows limit _ d l).takes rfl h
  | signed => exact (signed_follows limit d l).takes rfl h
  | primary => exact (primary_follows limit d l).takes rfl h
  | group o => exact (group_follows limit d o l).takes rfl h
  | chainRest tier left | groups left => cases ha

theorem Activation.takes_after {l m : Lexer} {t : Token} {x : Subtree} (hl : l.next = .token t a.lexer)
    (ha : a.routine.isLoop = false) (h : a.ending limit = (.ok x, m)) : Takes 2 l m :=
  (takes_of_token hl).trans (a.takes ha h)

/-- How far a routine is above a primary, which is what the parser comes down to at an item. -/
def Routine.rank : Routine → Nat
  | .group _ => 6
  | .chain tier => 2 * tier.rank + 3
  | .operand tier => 2 * tier.rank + 2
  | .signed => 1
  | .primary | .groups _ | .chainRest _ _ => 0

theorem Routine.rank_lt (f : Routine) : f.rank < 7 := by
  cases f with
  | chain tier | operand tier => cases tier <;> simp [rank, Tier.rank]
  | chainRest _ _ | signed | primary | groups _ | group _ => simp [rank]

/-- One call: a token has been taken for it, or it is made on a lower level for the same items. -/
theorem Calls.progress (h : Calls limit a b) : Takes 1 a.lexer b.lexer ∨
    b.lexer.stream = a.lexer.stream ∧ b.routine.rank < a.routine.rank := by
  cases h with
  | chain_operand => exact .inr ⟨rfl, Nat.lt_succ_self _⟩
  | @chain_rest tier d l m x ho =>
    exact .inl (Activation.takes (a := ⟨.operand tier, d, l⟩) rfl ho)
  | rest_operand hl _ _ => exact .inl (takes_of_token hl)
  | @rest_rest tier d l m k t op x y hl _ _ ho _ =>
    have right := Activation.takes_after (a := ⟨.operand tier, d, m⟩) hl rfl ho
    exact .inl (right.mono (by decide))
  | operand_chain => exact .inr ⟨rfl, by simp [Routine.rank, Tier.rank]⟩
  | operand_signed => exact .inr ⟨rfl, by simp [Routine.rank, Tier.rank]⟩
  | signed_signed hl _ _ => exact .inl (takes_of_token hl)
  | signed_primary hl _ => exact .inr ⟨(stream_of_token hl).symm, Nat.zero_lt_one⟩
  | number_groups hl _ | ans_groups hl _ | primary_group hl _ | groups_group hl _ =>
    exact .inl (takes_of_token hl)
  | @group_groups d l m k t x hl _ ho =>
    have inner := Activation.takes_after (a := ⟨.group t, d, m⟩) hl rfl ho
    exact .inl (inner.mono (by decide))
  | @groups_groups d l m k t x y hl _ ho _ =>
    have right := Activation.takes_after (a := ⟨.group t, d, m⟩) hl rfl ho
    exact .inl (right.mono (by decide))
  | group_chain _ => exact .inr ⟨rfl, by simp [Routine.rank, Tier.rank]⟩

theorem calls_wellFounded (limit : Limit) : WellFounded fun b a => Calls limit a b := by
  refine Subrelation.wf (fun {b a} h => ?_)
    (measure fun a : Activation => 7 * a.lexer.stream.length + a.routine.rank).wf
  change 7 * b.lexer.stream.length + b.routine.rank < 7 * a.lexer.stream.length + a.routine.rank
  have hrank := b.routine.rank_lt
  rcases h.progress with htaken | ⟨hstream, hlt⟩
  · have := htaken.length_le
    omega
  · rw [hstream]
    omega

/-- An iteration of a loop that goes on takes the token that joins an operand, and the operand. -/
theorem Calls.iteration (h : Calls limit a b) (ha : a.routine.isLoop = true)
    (hb : b.routine.isLoop = true) : Takes 2 a.lexer b.lexer := by
  cases h with
  | @rest_rest tier d l m k t op x y hl _ _ ho _ =>
    exact Activation.takes_after (a := ⟨.operand tier, d, m⟩) hl rfl ho
  | @groups_groups d l m k t x y hl _ ho _ =>
    exact Activation.takes_after (a := ⟨.group t, d, m⟩) hl rfl ho
  | chain_operand | chain_rest _ | operand_chain | operand_signed | signed_signed _ _ _
  | signed_primary _ _ | number_groups _ _ | ans_groups _ _ | primary_group _ _
  | group_groups _ _ _ | group_chain _ => cases ha
  | rest_operand _ _ _ | groups_group _ _ => cases hb

theorem Calls.allows_depth (h : Calls limit a b) (ha : limit.allows a.depth = true) :
    limit.allows b.depth = true := by
  cases h with
  | signed_signed _ _ hd | group_chain hd => exact hd
  | chain_operand | chain_rest _ | rest_operand _ _ _ | rest_rest _ _ _ _ _ | operand_chain
  | operand_signed | signed_primary _ _ | number_groups _ _ | ans_groups _ _ | primary_group _ _
  | group_groups _ _ _ | groups_group _ _ | groups_groups _ _ _ _ => exact ha

theorem allows_depth_of_calls (h : Relation.ReflTransGen (Calls limit) a b)
    (ha : limit.allows a.depth = true) : limit.allows b.depth = true := by
  induction h with
  | refl => exact ha
  | tail _ hcall ih => exact hcall.allows_depth ih

end Parser
end DeskCalculator
