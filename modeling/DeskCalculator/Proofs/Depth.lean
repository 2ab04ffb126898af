import DeskCalculator.Proofs.Nodes

/-! The limit on depth and height. It changes nothing but that some lines are too deep, and the
place that is blamed is a token with one level too many around it or a node that is one too tall. -/
namespace DeskCalculator
namespace Scope

/-- The depth of a part that nests `n` deep by itself, under `k` signs and parentheses. -/
def reach (k n : Nat) : Nat := if n = 0 then 0 else k + n

theorem reach_max (k m n : Nat) : max (reach k m) (reach k n) = reach k (max m n) := by
  unfold reach
  split_ifs <;> omega

theorem reach_succ (k n : Nat) : max (k + 1) (reach (k + 1) n) = reach k (n + 1) := by
  cases n with
  | zero => simp [reach]
  | succ n =>
    simp only [reach, Nat.add_eq_zero_iff, Nat.one_ne_zero, and_false, if_false]
    omega

variable {S js ks ts us : List Token} {t o : Token} {c : Scope} {op : BinaryOp} {s : Sign}
  {m n : Nat}

theorem endSigns_append (hks : ∀ t ∈ ks, t.kind.sign?.isSome = true) :
    endSigns (ks ++ S) = endSigns S :=
  List.dropWhile_append_of_pos hks

theorem endSigns_cons_open (ho : o.kind = .openParen) : endSigns (o :: S) = o :: S := by
  simp [endSigns, ho, TokenKind.sign?]

theorem step_sign (ht : t.kind.sign? = some s) : step ⟨true, S⟩ t = ⟨true, t :: S⟩ := by
  cases hk : t.kind <;> simp_all [step, TokenKind.sign?]

theorem step_open (ho : o.kind = .openParen) : step c o = ⟨true, o :: c.enclosing⟩ := by
  simp [step, ho]

theorem step_operator (ht : t.kind.operator? = some op) :
    step ⟨false, S⟩ t = ⟨true, endSigns S⟩ := by
  cases hk : t.kind <;> simp_all [step, TokenKind.operator?]

theorem step_close (ht : t.kind = .closeParen) :
    step c t = ⟨false, (endSigns c.enclosing).tail⟩ := by
  simp [step, ht]

theorem deepest_cons_opens (ht : c.Opens t) :
    c.deepest (t :: ts) = max (c.enclosing.length + 1) ((c.step t).deepest ts) := by
  simp [deepest, ht]

theorem deepest_cons_not_opens (ht : ¬ c.Opens t) :
    c.deepest (t :: ts) = (c.step t).deepest ts := by
  simp [deepest, ht]

theorem not_opens_operator (ht : t.kind.operator? = some op) : ¬ Opens ⟨false, S⟩ t := by
  cases hk : t.kind <;> simp_all [Opens, TokenKind.operator?]

theorem not_opens_close (ht : t.kind = .closeParen) : ¬ c.Opens t := by
  simp [Opens, ht, TokenKind.sign?]

/-- From the scope `c` the tokens go on to the end of an operand. Of their own signs and
parentheses only the signs `ks` are still open then. -/
structure Covers (c : Scope) (ts ks : List Token) (n : Nat) : Prop where
  after : ts.foldl step c = ⟨false, ks ++ c.enclosing⟩
  signs : ∀ t ∈ ks, t.kind.sign?.isSome = true
  deepest : c.deepest ts = reach c.enclosing.length n

theorem Covers.group {e : Token} (h : Covers ⟨true, o :: c.enclosing⟩ ts ks n)
    (ho : o.kind = .openParen) (he : e.kind = .closeParen) :
    Covers c (o :: (ts ++ [e])) [] (n + 1) where
  after := by
    have hin := h.after
    simp [step_open ho, step_close he, hin, endSigns_append h.signs, endSigns_cons_open ho]
  signs := by simp
  deepest := by
    have hin := h.deepest
    rw [deepest_cons_opens (.inl ho), step_open ho, deepest_append, hin,
      deepest_cons_not_opens (not_opens_close he)]
    simpa [Scope.deepest] using reach_succ c.enclosing.length n

theorem Covers.leaf (hk : t.kind = .number ∨ t.kind = .ans) : Covers ⟨true, S⟩ [t] [] 0 := by
  have hopens : ¬ Opens ⟨true, S⟩ t := by
    rcases hk with hk | hk <;> simp [Opens, hk, TokenKind.sign?]
  refine ⟨?_, by simp, ?_⟩
  · rcases hk with hk | hk <;> simp [step, hk]
  · rw [deepest_cons_not_opens hopens]
    rfl

theorem Covers.sign (h : Covers ⟨true, t :: S⟩ ts ks n) (hs : t.kind.sign? = some s) :
    Covers ⟨true, S⟩ (t :: ts) (ks ++ [t]) (n + 1) where
  after := by
    have hin := h.after
    simpa [step_sign hs] using hin
  signs := by
    intro u hu
    rcases List.mem_append.1 hu with hu | hu
    · exact h.signs u hu
    · have heq : u = t := List.mem_singleton.1 hu
      simp [heq, hs]
  deepest := by
    have hopens : Opens ⟨true, S⟩ t := .inr ⟨rfl, by simp [hs]⟩
    have hin := h.deepest
    rw [deepest_cons_opens hopens, step_sign hs, hin]
    exact reach_succ S.length n

theorem Covers.after_operator (h : Covers ⟨true, S⟩ ts ks n) (ho : t.kind.operator? = some op)
    (hS : endSigns S = S) : (ts ++ [t]).foldl step ⟨true, S⟩ = ⟨true, S⟩ := by
  have hin := h.after
  have hend : endSigns (ks ++ S) = S := (endSigns_append h.signs).trans hS
  rw [List.foldl_append, hin, List.foldl_cons, List.foldl_nil, step_operator ho, hend]

theorem Covers.append (h : Covers c ts [] m) (h' : Covers ⟨false, c.enclosing⟩ us ks n) :
    Covers c (ts ++ us) ks (max m n) where
  after := by
    have hleft : ts.foldl step c = ⟨false, c.enclosing⟩ := h.after
    have hright := h'.after
    rw [List.foldl_append, hleft, hright]
  signs := h'.signs
  deepest := by
    have hleft : ts.foldl step c = ⟨false, c.enclosing⟩ := h.after
    have hdeepest := h.deepest
    have hdeepest' := h'.deepest
    rw [deepest_append, hleft, hdeepest, hdeepest', reach_max]

theorem Covers.join (h : Covers ⟨true, S⟩ ts ks m) (ho : t.kind.operator? = some op)
    (hS : endSigns S = S) (h' : Covers ⟨true, S⟩ us js n) :
    Covers ⟨true, S⟩ (ts ++ t :: us) js (max m n) where
  after := by
    have hleft := h.after_operator ho hS
    have hright := h'.after
    rw [List.append_cons, List.foldl_append, hleft, hright]
  signs := h'.signs
  deepest := by
    have hleft := h.after_operator ho hS
    have hdeepest := h.deepest
    have hdeepest' := h'.deepest
    have hopens : ¬ (ts.foldl step ⟨true, S⟩).Opens t := by
      have hin := h.after
      rw [hin]
      exact not_opens_operator ho
    rw [List.append_cons, deepest_append, hleft, deepest_append, deepest_cons_not_opens hopens,
      hdeepest, hdeepest']
    simpa [Scope.deepest] using reach_max S.length m n

/-- What part a derivation is of decides what its own signs leave open. Operators end the signs
before them, so a chain is met only where no sign is innermost. -/
theorem covers_of_derives {p : Part} {x : Expr} (h : Derives p ts x n) (S : List Token)
    (hS : ∀ tier, p = .chain tier → endSigns S = S) :
    ∃ ks, Covers ⟨true, S⟩ ts ks n ∧ (p = .primary → ks = []) := by
  induction h generalizing S with
  | @operand tier _ _ _ _ ih =>
    obtain ⟨ks, h, -⟩ := ih S fun _ _ => hS tier rfl
    exact ⟨ks, h, nofun⟩
  | @join tier _ _ _ _ _ _ _ _ _ ho _ _ ihl ihr =>
    have hchain : endSigns S = S := hS tier rfl
    obtain ⟨ks, hl, -⟩ := ihl S fun _ _ => hchain
    obtain ⟨js, hr, -⟩ := ihr S fun _ _ => hchain
    exact ⟨js, hl.join ho hchain hr, nofun⟩
  | unsigned _ ih =>
    obtain ⟨ks, h, -⟩ := ih S nofun
    exact ⟨ks, h, nofun⟩
  | @sign t _ _ _ _ hs _ ih =>
    obtain ⟨ks, h, -⟩ := ih (t :: S) nofun
    exact ⟨ks ++ [t], h.sign hs, nofun⟩
  | number hk => exact ⟨[], Covers.leaf (.inl hk), fun _ => rfl⟩
  | ans hk => exact ⟨[], Covers.leaf (.inr hk), fun _ => rfl⟩
  | @group o _ _ _ _ ho _ hc ih =>
    obtain ⟨ks, h, -⟩ := ih (o :: S) fun _ _ => endSigns_cons_open ho
    exact ⟨[], Covers.group h ho hc, fun _ => rfl⟩
  | @juxtaposed o _ _ _ _ _ _ _ _ ho _ hc ihl ihr =>
    obtain ⟨ks, hl, hks⟩ := ihl S nofun
    obtain rfl := hks rfl
    obtain ⟨js, hr, -⟩ := ihr (o :: S) fun _ _ => endSigns_cons_open ho
    exact ⟨[], hl.append (Covers.group hr ho hc), fun _ => rfl⟩

/-- The depth that a derivation counts is the nesting of its tokens. -/
theorem nesting_of_derives {x : Expr} (h : Derives (.chain .sum) ts x n) : nesting ts = n := by
  obtain ⟨ks, hc, -⟩ := covers_of_derives h [] fun _ _ => rfl
  have hdeepest : nesting ts = reach 0 n := hc.deepest
  rw [hdeepest, reach]
  split_ifs <;> omega

theorem after_append (ts us : List Token) : after (ts ++ us) = us.foldl step (after ts) := by
  simp [after]

theorem after_of_primary {pre : List Token} {x : Expr} (ha : after pre = ⟨true, S⟩)
    (h : Derives .primary ts x n) : after (pre ++ ts) = ⟨false, S⟩ := by
  obtain ⟨ks, hc, hks⟩ := covers_of_derives h S nofun
  obtain rfl := hks rfl
  have hin := hc.after
  rw [after_append, ha, hin]
  rfl

/-- Where a part begins an operand is due, and the part is as deep as the scope says. -/
theorem after_of_begins {p : Part} {d : Nat} {pre : List Token} (h : Begins p d pre) :
    ∃ S, after pre = ⟨true, S⟩ ∧ S.length = d ∧ ∀ tier, p = .chain tier → endSigns S = S := by
  induction h with
  | line => exact ⟨[], rfl, rfl, fun _ _ => rfl⟩
  | @operand tier _ _ _ ih =>
    obtain ⟨S, ha, hd, hS⟩ := ih
    exact ⟨S, ha, hd, fun _ _ => hS tier rfl⟩
  | @join tier d n pre ls t op x _ hl ho _ ih =>
    obtain ⟨S, ha, hd, hS⟩ := ih
    obtain ⟨ks, hc, -⟩ := covers_of_derives hl S hS
    have hjoined := hc.after_operator ho (hS tier rfl)
    refine ⟨S, ?_, hd, fun _ _ => hS tier rfl⟩
    rw [List.append_assoc, after_append, ha, hjoined]
  | @sign d pre t s _ hs ih =>
    obtain ⟨S, ha, hd, -⟩ := ih
    refine ⟨t :: S, ?_, by rw [List.length_cons, hd], nofun⟩
    rw [after_append, ha]
    exact step_sign hs
  | unsigned _ ih =>
    obtain ⟨S, ha, hd, -⟩ := ih
    exact ⟨S, ha, hd, nofun⟩
  | @group d pre o _ ho ih =>
    obtain ⟨S, ha, hd, -⟩ := ih
    refine ⟨o :: S, ?_, by rw [List.length_cons, hd], fun _ _ => endSigns_cons_open ho⟩
    rw [after_append, ha]
    exact step_open ho
  | @juxtaposed d n pre ls o x _ hl ho ih =>
    obtain ⟨S, ha, hd, -⟩ := ih
    have hleft := after_of_primary ha hl
    refine ⟨o :: S, ?_, by rw [List.length_cons, hd], fun _ _ => endSigns_cons_open ho⟩
    rw [after_append, hleft]
    exact step_open ho

end Scope

namespace Reading

variable {limit : Limit} {j : Joint} {c : Call} {d n k size : Nat} {s r : List Item}
  {pre ts : List Token} {t : Token} {op : BinaryOp} {x y : Expr} {e : ParseError}

theorem Reads.unlimited (h : Reads limit c d s x r) : Reads none c d s x r := by
  induction h with
  | spine _ _ ih ihr => exact .spine ih ihr
  | done hs => exact .done hs
  | joined ho _ _ _ ih ihr => exact .joined ho ih rfl ihr
  | sign hg _ _ _ ih => exact .sign hg rfl ih rfl
  | unsigned hn _ ih => exact .unsigned hn ih
  | number hk => exact .number hk
  | ans hk => exact .ans hk
  | opened hk _ ih => exact .opened hk ih
  | closed _ _ hc ih => exact .closed rfl ih hc

/-- The call is made where the line has begun with the tokens `pre`, under `d` signs and groups. -/
def Call.At (d : Nat) (pre : List Token) : Call → Prop
  | .spine j => Begins j.part d pre
  | .more j left => ∃ front ls n, pre = front ++ ls ∧ Begins j.part d front ∧
      Derives j.part ls left n
  | .signed => Begins .signed d pre
  | .atom => Begins .primary d pre
  | .group o => ∃ front, pre = front ++ [o] ∧ o.kind = .openParen ∧
      (Scope.after front).enclosing.length = d ∧ Begins (.chain .sum) (d + 1) pre

theorem at_first (h : (Call.spine j).At d pre) : j.first.At d pre := by
  cases j with
  | operator tier => cases tier <;> exact Begins.operand h
  | adjacent => exact h

theorem at_next (h : (Call.more j x).At d pre) (ho : j.op? t.kind = some op) :
    (j.next t).At d (pre ++ [t]) := by
  obtain ⟨front, ls, n, rfl, hb, hx⟩ := h
  cases j with
  | operator tier =>
    obtain ⟨hk, ht⟩ := op?_operator.1 ho
    have hnext := Begins.join hb hx hk ht
    cases tier <;> exact hnext
  | adjacent =>
    obtain ⟨hk, -⟩ := op?_adjacent.1 ho
    obtain ⟨S, ha, hd, -⟩ := Scope.after_of_begins hb
    have hlen : (Scope.after (front ++ ls)).enclosing.length = d := by
      rw [Scope.after_of_primary ha hx, hd]
    exact ⟨front ++ ls, rfl, hk, hlen, .juxtaposed hb hx hk⟩

theorem at_group (h : Call.atom.At d pre) (ht : t.kind = .openParen) :
    (Call.group t).At d (pre ++ [t]) := by
  obtain ⟨S, ha, hd, -⟩ := Scope.after_of_begins h
  have hlen : (Scope.after pre).enclosing.length = d := by rw [ha, hd]
  exact ⟨pre, rfl, ht, hlen, .group h ht⟩

theorem at_more_first (h : (Call.spine j).At d pre) (hx : j.first.Derived ts x n) :
    (Call.more j x).At d (pre ++ ts) :=
  ⟨pre, ts, n, rfl, h, derives_of_first hx⟩

theorem at_more_next (h : (Call.more j x).At d pre) (ho : j.op? t.kind = some op)
    (hy : (j.next t).Derived ts y n) : (Call.more j (.binary op x y)).At d (pre ++ t :: ts) := by
  obtain ⟨front, ls, m, rfl, hb, hx⟩ := h
  exact ⟨front, ls ++ t :: ts, max m n, by simp, hb, derives_joined hx ho hy⟩

theorem builds_of_at (h : (Call.more j x).At d pre) (ho : j.op? t.kind = some op)
    (hy : (j.next t).Derived ts y n) (hs : (j.next t).Ends s) :
    Builds pre t (ts.map .ok ++ s) (.binary op x y) := by
  obtain ⟨front, ls, m, rfl, hb, hx⟩ := h
  cases j with
  | operator tier =>
    obtain ⟨hk, ht⟩ := op?_operator.1 ho
    cases tier with
    | sum => exact .join hb hx hk ht hy hs
    | product => exact .join hb hx hk ht hy hs
  | adjacent =>
    obtain ⟨hk, rfl⟩ := op?_adjacent.1 ho
    obtain ⟨us, c, l, rfl, hc, hinner, rfl⟩ := hy
    have hbuilds : Builds (front ++ ls) t (us.map .ok ++ .ok c :: s) (.binary .mul x y) :=
      .juxtaposed hb hx hk hinner hc
    simpa using hbuilds

theorem next_fits : (j.next t).Fits limit := by
  cases j with
  | operator tier => cases tier <;> trivial
  | adjacent => trivial

theorem operands_height (h : (Call.more j x).Fits (some k)) (hy : y.height ≤ k) :
    ∀ z ∈ (Expr.binary op x y).operands, z.height ≤ k := by
  have hx : x.height ≤ k := Limit.allows_some.1 h
  intro z hz
  simp only [Expr.operands, List.mem_cons, List.not_mem_nil, or_false] at hz
  rcases hz with rfl | rfl
  · exact hx
  · exact hy

/-- A parser with a limit calls a line too deep only at a token that goes beyond the limit. -/
theorem Fails.exceeds (h : Fails (some k) size c d s e) {p : Nat} (he : e = .tooDeep p)
    (hk : 1 ≤ k) (hd : d ≤ k) (hfit : c.Fits (some k)) (hat : c.At d pre) :
    ∃ us t post, pre.map .ok ++ s = us.map .ok ++ .ok t :: post ∧ t.position = p ∧
      ExceedsAt k us t post := by
  have hleaf : Limit.allows (some k) 1 = true := Limit.allows_some.2 hk
  induction h generalizing pre with
  | lex _ => cases he
  | ended _ => cases he
  | first _ ih => exact ih he hd fits_first (at_first hat)
  | rest hr _ ih =>
    obtain ⟨ts, n, rfl, hx, -⟩ := hr.derived
    have hnext := ih he hd (hr.allows_height hleaf fits_first) (at_more_first hat hx)
    simpa using hnext
  | operand ho _ ih =>
    have hnext := ih he hd next_fits (at_next hat ho)
    simpa using hnext
  | @tall j d t op s m x y ho hr ha =>
    obtain ⟨ts, n, rfl, hy, -⟩ := hr.derived
    have hends : (j.next t).Ends m := hr.ends fun i left hi => absurd hi (next_ne_more i left)
    have hbuilds := builds_of_at hat ho hy hends
    have hheight : y.height ≤ k := Limit.allows_some.1 (hr.allows_height hleaf next_fits)
    have hleft : x.height ≤ k := Limit.allows_some.1 hfit
    have htall : (Expr.binary op x y).height = k + 1 := by
      rw [Limit.allows_some] at ha
      simp only [Expr.height] at ha ⊢
      omega
    cases he
    exact ⟨pre, t, _, rfl, rfl, .inr ⟨_, hbuilds, htall, operands_height hfit hheight⟩⟩
  | onward ho hr ha _ ih =>
    obtain ⟨ts, n, rfl, hy, -⟩ := hr.derived
    have hnext := ih he hd ha (at_more_next hat ho hy)
    simpa using hnext
  | @signNested d t sg s hs ha =>
    obtain ⟨S, hS, hlen, -⟩ := Scope.after_of_begins hat
    rw [Limit.allows_some] at ha
    cases he
    refine ⟨pre, t, s, rfl, rfl, .inl ⟨.inr ⟨by rw [hS], by simp [hs]⟩, ?_⟩⟩
    rw [hS]
    dsimp only
    omega
  | signOperand hs ha _ ih =>
    have hnext := ih he (Limit.allows_some.1 ha) trivial (Begins.sign hat hs)
    simpa using hnext
  | @signTall d t sg s r x hs ha hr ht =>
    obtain ⟨ts, n, rfl, hx, -⟩ := hr.derived
    have hbuilds : Builds pre t (ts.map .ok ++ r) (.signed sg x) :=
      .sign hat hs hx (hr.ends (by simp))
    have hheight : x.height ≤ k := Limit.allows_some.1 (hr.allows_height hleaf trivial)
    have htall : (Expr.signed sg x).height = k + 1 := by
      rw [Limit.allows_some] at ht
      simp only [Expr.height] at ht ⊢
      omega
    cases he
    refine ⟨pre, t, _, rfl, rfl, .inr ⟨_, hbuilds, htall, fun z hz => ?_⟩⟩
    rwa [List.mem_singleton.1 hz]
  | unsigned _ _ ih => exact ih he hd trivial (Begins.unsigned hat)
  | noOperand _ _ _ => cases he
  | opened ht _ ih =>
    have hnext := ih he hd trivial (at_group hat ht)
    simpa using hnext
  | @groupNested d o s ha =>
    obtain ⟨front, rfl, ho, hlen, -⟩ := hat
    rw [Limit.allows_some] at ha
    cases he
    exact ⟨front, o, s, by simp, rfl, .inl ⟨.inl ho, by omega⟩⟩
  | inside ha _ ih =>
    obtain ⟨front, -, -, -, hb⟩ := hat
    exact ih he (Limit.allows_some.1 ha) trivial hb
  | lexAfter _ _ => cases he
  | unclosed _ _ _ => cases he

end Reading

open Reading

namespace Parser

theorem run_none_ne_tooDeep (s : Text) (p : Nat) : (run none s).1 ≠ .error (.tooDeep p) := by
  intro h
  have hline := line_run none s
  rw [h] at hline
  cases hline with
  | failed hf => exact Recognizer.not_tooDeep hf p rfl

theorem run_none_of_run {limit : Limit} {s : Text} {x : Expr} (h : (run limit s).1 = .ok x) :
    (run none s).1 = .ok x :=
  run_eq_ok_iff.2 (run_eq_ok_iff.1 h).unlimited

/-- With a limit or without one the parser says the same, unless the limit is met. -/
theorem run_eq_run_none {limit : Limit} {s : Text}
    (h : ∀ p, (run limit s).1 ≠ .error (.tooDeep p)) : (run limit s).1 = (run none s).1 := by
  have hlimit := Recognizer.recognize_of_line (line_run limit s) h
  have hnone := Recognizer.recognize_of_line (line_run none s) (run_none_ne_tooDeep s)
  rw [hlimit] at hnone
  cases hx : (run limit s).1 with
  | ok x => exact (run_none_of_run hx).symm
  | error e =>
    rw [hx] at hnone
    cases hy : (run none s).1 with
    | ok y =>
      rw [hy] at hnone
      cases hnone
    | error e' =>
      rw [hy] at hnone
      exact congrArg Except.error (Except.error.inj hnone)

end Parser

theorem parse_or_tooDeep {s : Text} {x : Expr} (h : (Parser.run none s).1 = .ok x) :
    parse s = .ok x ∨ ∃ p, parse s = .error (.tooDeep p) := by
  by_cases hdeep : ∃ p, parse s = .error (.tooDeep p)
  · exact .inr hdeep
  · exact .inl ((Parser.run_eq_run_none (not_exists.1 hdeep)).trans h)

theorem parse_eq_ok_iff_keepsTo {s : Text} {ts : List Token} {x : Expr}
    (hs : Scan.all 0 s = ts.map .ok) (hx : (Parser.run none s).1 = .ok x) :
    parse s = .ok x ↔ KeepsTo maxDepth ts x := by
  rw [maxDepth, keepsTo_iff, parse_ok_iff]
  constructor
  · rintro ⟨us, n, hus, hder, hn, hheight⟩
    have heq : ts = us := Item.eq_of_map_ok (hs.symm.trans hus)
    rw [heq, Scope.nesting_of_derives hder]
    exact ⟨hheight, hn⟩
  · rintro ⟨hheight, hn⟩
    obtain ⟨us, n, hus, hder, -⟩ := (Parser.run_eq_ok_iff_derives rfl).1 hx
    have heq : ts = us := Item.eq_of_map_ok (hs.symm.trans hus)
    rw [heq, Scope.nesting_of_derives hder] at hn
    exact ⟨us, n, hus, hder, hn, hheight⟩

/-- The limit changes nothing but that a line is too deep, which it is for all that does not keep to
the limit, and always at a token that goes beyond it. The nodes by which this is judged are those of
the tree that is read without a limit. -/
theorem parse_agrees_unlimited (s : Text) :
    ((∀ p, parse s ≠ .error (.tooDeep p)) → parse s = (Parser.run none s).1) ∧
    (∀ x, (Parser.run none s).1 = .ok x → ∃ ts, Scan.all 0 s = ts.map .ok ∧
      (KeepsTo maxDepth ts x → parse s = .ok x) ∧
      (¬ KeepsTo maxDepth ts x → ∃ p, parse s = .error (.tooDeep p))) ∧
    (∀ p, parse s = .error (.tooDeep p) → ∃ pre t post,
      Scan.all 0 s = pre.map .ok ++ .ok t :: post ∧ t.position = p ∧
      ExceedsAt maxDepth pre t post) ∧
    ∀ pre t post x z, Scan.all 0 s = pre.map .ok ++ .ok t :: post → Builds pre t post x →
      (Parser.run none s).1 = .ok z → x.IsSubtree z := by
  have hsame : (∀ p, parse s ≠ .error (.tooDeep p)) → parse s = (Parser.run none s).1 :=
    Parser.run_eq_run_none
  refine ⟨hsame, fun x hx => ?_, fun p hp => ?_, fun pre t post x z hs hbuilds hz => ?_⟩
  · obtain ⟨ts, n, hs, -⟩ := (Parser.run_eq_ok_iff_derives rfl).1 hx
    refine ⟨ts, hs, (parse_eq_ok_iff_keepsTo hs hx).2, fun hexceeds => ?_⟩
    by_contra hdeep
    have hparse : parse s = .ok x := (hsame fun p hp => hdeep ⟨p, hp⟩).trans hx
    exact hexceeds ((parse_eq_ok_iff_keepsTo hs hx).1 hparse)
  · have hline := Parser.line_run (some maxDepth) s
    rw [← parse, hp] at hline
    cases hline with
    | failed hf =>
      have hexceeds := hf.exceeds rfl (by decide) (Nat.zero_le _) trivial Begins.line
      simpa using hexceeds
  · have hread := Parser.run_eq_ok_iff.1 hz
    rw [hs] at hread
    exact hbuilds.isSubtree hread

end DeskCalculator
