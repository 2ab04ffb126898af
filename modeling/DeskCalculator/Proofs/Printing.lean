import DeskCalculator.Expression.Printer
import DeskCalculator.Proofs.Derivation
import DeskCalculator.Proofs.Scanning

/-! An expression that is printed is read back. A text is put together from others as an expression
is from its operands, so what the pieces spell decides what the whole spells. The parentheses that
are printed nest less deep than the tree is tall. -/
namespace DeskCalculator

/-- Wherever the text `s` begins, it is cut into tokens that derive `x`, as long as no numeral at
its end runs on. -/
def Spells (part : Part) (s : Text) (x : Expr) (n : Nat) : Prop :=
  ∀ p, ∃ ts, Derives part ts x n ∧ ∀ rest, Numeral.runsOn rest = false →
    Scan.all p (s ++ rest) = ts.map .ok ++ Scan.all (p + s.size) rest

namespace Spells

variable {part : Part} {tier : Tier} {s s' : Text} {x y : Expr} {m n : Nat}

theorem runsOn_of_ofSymbol? {c : Char} {k : TokenKind} (h : TokenKind.ofSymbol? c = some k)
    (rest : Text) : Numeral.runsOn (c :: rest) = false := by
  unfold TokenKind.ofSymbol? at h
  split at h <;> first | rfl | cases h

theorem ofSymbol?_operator (op : BinaryOp) :
    ∃ k, TokenKind.ofSymbol? op.symbol = some k ∧ k.operator? = some op := by
  cases op with
  | add => exact ⟨.plus, rfl, rfl⟩
  | sub => exact ⟨.minus, rfl, rfl⟩
  | mul => exact ⟨.star, rfl, rfl⟩
  | div => exact ⟨.slash, rfl, rfl⟩

theorem ofSymbol?_sign (sg : Sign) :
    ∃ k, TokenKind.ofSymbol? sg.symbol = some k ∧ k.sign? = some sg := by
  cases sg with
  | plus => exact ⟨.plus, rfl, rfl⟩
  | minus => exact ⟨.minus, rfl, rfl⟩

theorem as {whole : Part} (h : Spells part s x n)
    (hpart : ∀ ts, Derives part ts x n → Derives whole ts x n) : Spells whole s x n := by
  intro p
  obtain ⟨ts, hx, hs⟩ := h p
  exact ⟨ts, hpart ts hx, hs⟩

theorem number (hs : IsNumeral s) : Spells .primary s (.number s) 0 := by
  intro p
  refine ⟨[⟨.number, s, p⟩], .number rfl, fun rest hrest => ?_⟩
  simpa using Scan.all_numeral hs hrest

theorem ans : Spells .primary Lexeme.answerWord .ans 0 := by
  intro p
  refine ⟨[⟨.ans, Lexeme.answerWord, p⟩], .ans rfl, fun rest _ => ?_⟩
  simpa using Scan.all_ans

theorem sign (sg : Sign) (h : Spells .signed s x n) :
    Spells .signed (sg.symbol :: s) (.signed sg x) (n + 1) := by
  intro p
  obtain ⟨k, hk, hsign⟩ := ofSymbol?_sign sg
  obtain ⟨ts, hx, hs⟩ := h (p + Text.size [sg.symbol])
  refine ⟨⟨k, [sg.symbol], p⟩ :: ts, .sign hsign hx, fun rest hrest => ?_⟩
  have hfirst : Scan.all p (sg.symbol :: (s ++ rest)) = _ := Scan.all_symbol hk
  rw [hs rest hrest] at hfirst
  simpa [Nat.add_assoc] using hfirst

theorem exists_group (h : Spells (.chain .sum) s x n) (p : Nat) :
    ∃ o ts c, o.kind = TokenKind.openParen ∧ Derives (.chain .sum) ts x n ∧
      c.kind = TokenKind.closeParen ∧ ∀ rest,
        Scan.all p ('(' :: (s ++ ')' :: rest)) =
          (o :: (ts ++ [c])).map .ok ++ Scan.all (p + Text.size ('(' :: (s ++ [')']))) rest := by
  obtain ⟨ts, hx, hs⟩ := h (p + Text.size ['('])
  let o : Token := ⟨.openParen, ['('], p⟩
  let c : Token := ⟨.closeParen, [')'], p + Text.size ['('] + s.size⟩
  refine ⟨o, ts, c, rfl, hx, rfl, fun rest => ?_⟩
  have hopen : Scan.all p ('(' :: (s ++ (')' :: rest))) = _ := Scan.all_symbol rfl
  have hclose : Scan.all (p + Text.size ['('] + s.size) (')' :: rest) = _ := Scan.all_symbol rfl
  rw [hs _ (runsOn_of_ofSymbol? rfl rest), hclose] at hopen
  simpa [o, c, Nat.add_assoc] using hopen

theorem group (h : Spells (.chain .sum) s x n) :
    Spells .primary ('(' :: (s ++ [')'])) x (n + 1) := by
  intro p
  obtain ⟨o, ts, c, ho, hx, hc, hs⟩ := h.exists_group p
  refine ⟨o :: (ts ++ [c]), .group ho hx hc, fun rest _ => ?_⟩
  simpa using hs rest

theorem juxtaposed (hl : Spells .primary s x m) (hr : Spells (.chain .sum) s' y n) :
    Spells .primary (s ++ '(' :: (s' ++ [')'])) (.binary .mul x y) (max m (n + 1)) := by
  intro p
  obtain ⟨ls, hx, hs⟩ := hl p
  obtain ⟨o, ts, c, ho, hy, hc, hs'⟩ := hr.exists_group (p + s.size)
  refine ⟨ls ++ o :: (ts ++ [c]), .juxtaposed hx ho hy hc, fun rest _ => ?_⟩
  have hleft := hs ('(' :: (s' ++ ')' :: rest)) rfl
  rw [hs' rest] at hleft
  simpa [Nat.add_assoc] using hleft

theorem join (op : BinaryOp) (hl : Spells (.chain op.tier) s x m)
    (hr : Spells op.tier.operands s' y n) :
    Spells (.chain op.tier) (s ++ op.symbol :: s') (.binary op x y) (max m n) := by
  intro p
  obtain ⟨k, hk, hop⟩ := ofSymbol?_operator op
  obtain ⟨ls, hx, hs⟩ := hl p
  obtain ⟨rs, hy, hs'⟩ := hr (p + s.size + Text.size [op.symbol])
  let t : Token := ⟨k, [op.symbol], p + s.size⟩
  have ht : t.kind.operator? = some op := hop
  refine ⟨ls ++ t :: rs, .join hx ht rfl hy, fun rest hrest => ?_⟩
  have hleft := hs (op.symbol :: (s' ++ rest)) (runsOn_of_ofSymbol? hk _)
  have hright : Scan.all (p + s.size) (op.symbol :: (s' ++ rest)) = _ := Scan.all_symbol hk
  rw [hright, hs' rest hrest] at hleft
  simpa [t, Nat.add_assoc] using hleft

theorem operands (h : Spells .signed s x n) : Spells tier.operands s x n := by
  cases tier with
  | sum =>
    have hproduct : Spells (.chain .product) s x n := h.as fun ts hx => .operand hx
    exact hproduct
  | product => exact h

theorem chain (h : Spells .signed s x n) : Spells (.chain tier) s x n :=
  h.operands.as fun _ hx => .operand hx

theorem sum (h : Spells (.chain tier) s x n) : Spells (.chain .sum) s x n := by
  cases tier with
  | sum => exact h
  | product => exact h.as fun _ hx => .operand hx

theorem exists_all (h : Spells part s x n) :
    ∃ ts, Scan.all 0 s = ts.map .ok ∧ Derives part ts x n := by
  obtain ⟨ts, hx, hs⟩ := h 0
  have hwhole := hs [] rfl
  rw [Scan.all_of_none (show Scan.first _ [] = none from rfl)] at hwhole
  exact ⟨ts, by simpa using hwhole, hx⟩

end Spells

open Spells

namespace Expr

/-- The operand of a sign or an operator is printed less deep than it is tall. -/
theorem spells_enclose {x : Expr} (h : x.IsComplete) :
    ∃ n, Spells .signed (enclose x x.print) x n ∧ n < x.height := by
  induction x with
  | hole => exact h.elim
  | number t => exact ⟨0, (Spells.number h).as fun _ => .unsigned, Nat.zero_lt_one⟩
  | ans => exact ⟨0, Spells.ans.as fun _ => .unsigned, Nat.zero_lt_one⟩
  | binary op l r ihl ihr =>
    obtain ⟨m, hl, hm⟩ := ihl h.1
    obtain ⟨n, hr, hn⟩ := ihr h.2
    have hjoined := (join op hl.chain hr.operands).sum
    refine ⟨max m n + 1, hjoined.group.as fun _ => .unsigned, ?_⟩
    simp only [height]
    omega
  | signed sg x ih =>
    obtain ⟨n, hx, hn⟩ := ih h
    refine ⟨n + 1, hx.sign sg, ?_⟩
    simp only [height]
    omega

theorem spells_print {x : Expr} (h : x.IsComplete) :
    ∃ n, Spells (.chain .sum) x.print x n ∧ n < x.height := by
  cases x with
  | binary op l r =>
    obtain ⟨m, hl, hm⟩ := spells_enclose h.1
    obtain ⟨n, hr, hn⟩ := spells_enclose h.2
    refine ⟨max m n, (join op hl.chain hr.operands).sum, ?_⟩
    simp only [height]
    omega
  | hole => exact h.elim
  | number t =>
    obtain ⟨n, hx, hn⟩ := spells_enclose h
    exact ⟨n, hx.chain, hn⟩
  | ans =>
    obtain ⟨n, hx, hn⟩ := spells_enclose h
    exact ⟨n, hx.chain, hn⟩
  | signed sg x =>
    obtain ⟨n, hx, hn⟩ := spells_enclose h
    exact ⟨n, hx.chain, hn⟩

end Expr

theorem Derives.isComplete {p : Part} {ts : List Token} {x : Expr} {n : Nat}
    (h : Derives p ts x n) (hts : ∀ t ∈ ts, t.kind = .number → IsNumeral t.text) :
    x.IsComplete := by
  induction h with
  | operand _ ih => exact ih hts
  | join _ _ _ _ ihl ihr =>
    exact ⟨ihl fun t ht => hts t (by simp [ht]), ihr fun t ht => hts t (by simp [ht])⟩
  | unsigned _ ih => exact ih hts
  | sign _ _ ih => exact ih fun t ht => hts t (by simp [ht])
  | @number t hk => exact hts t (by simp) hk
  | ans _ => trivial
  | group _ _ _ ih => exact ih fun t ht => hts t (by simp [ht])
  | juxtaposed _ _ _ _ ihl ihr =>
    exact ⟨ihl fun t ht => hts t (by simp [ht]), ihr fun t ht => hts t (by simp [ht])⟩

/-- With a limit or without one, a complete tree that is not too tall is printed and read back. -/
theorem Parser.run_print {limit : Limit} {x : Expr} (hx : x.IsComplete)
    (hheight : limit.allows x.height = true) : (run limit x.print).1 = .ok x := by
  obtain ⟨n, hspells, hn⟩ := Expr.spells_print hx
  obtain ⟨ts, hall, hder⟩ := hspells.exists_all
  have hleaf : limit.allows 1 = true := Limit.allows_of_le hheight hder.height_pos
  have hnest : limit.allows n = true := Limit.allows_of_le hheight (Nat.le_of_lt hn)
  exact (run_eq_ok_iff_derives hleaf).2 ⟨ts, n, hall, hder, hnest, hheight⟩

theorem isComplete_of_parse {s : Text} {x : Expr} (h : parse s = .ok x) :
    x.IsComplete ∧ x.height ≤ maxDepth := by
  obtain ⟨ts, n, hs, hder, -, hheight⟩ := parse_ok_iff.1 h
  have hnumerals : ∀ t ∈ ts, t.kind = .number → IsNumeral t.text := by
    intro t ht hk
    have hmem : Except.ok t ∈ Scan.all 0 s := by
      rw [hs]
      exact List.mem_map_of_mem ht
    exact Scan.isNumeral_of_mem_all hmem hk
  exact ⟨hder.isComplete hnumerals, hheight⟩

/-- The trees that texts are read as are the complete ones that are not taller than the limit, and
each of them is what its own print is read as. -/
theorem exists_parse_eq_ok_iff (x : Expr) :
    ((∃ s, parse s = .ok x) ↔ x.IsComplete ∧ x.height ≤ maxDepth) ∧
    (x.IsComplete ∧ x.height ≤ maxDepth → parse x.print = .ok x) := by
  have hprint : x.IsComplete ∧ x.height ≤ maxDepth → parse x.print = .ok x := by
    rintro ⟨hx, hheight⟩
    exact Parser.run_print hx (Limit.allows_some.2 hheight)
  refine ⟨⟨?_, fun h => ⟨x.print, hprint h⟩⟩, hprint⟩
  rintro ⟨s, hs⟩
  exact isComplete_of_parse hs

end DeskCalculator
