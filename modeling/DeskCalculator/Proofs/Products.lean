import DeskCalculator.Expression.Printer
import DeskCalculator.Proofs.Depth
import DeskCalculator.Proofs.Seams
import Mathlib.Data.List.Chain

/-! A line with its products written out is read as the tree that the line itself is read as. An
operand with the groups next to it becomes a product in parentheses, which may stand wherever the
operand did; so the two ways in which a product comes about build the same. -/
namespace DeskCalculator

theorem TokenKind.of_operator? {k : TokenKind} {op : BinaryOp} (h : k.operator? = some op) :
    k.endsOperand = false ∧ k ≠ .openParen := by
  cases k <;> simp_all [operator?, endsOperand]

theorem TokenKind.of_sign? {k : TokenKind} {s : Sign} (h : k.sign? = some s) :
    k.endsOperand = false ∧ k ≠ .openParen := by
  cases k <;> simp_all [sign?, endsOperand]

namespace Lexeme

variable {p : Place} {v w : Lexeme} {ws : List Lexeme} {t o c : Token} {ts us vs ls : List Token}
  {part : Part} {x y : Expr} {m n : Nat} {joined : Bool}

/-! Groups are passed over as a whole. -/

theorem afterGroup_cons (hend : t.kind.endsOperand = false) (hopen : t.kind ≠ .openParen) (k : Nat)
    (ws : List Lexeme) : afterGroup k (t.lexeme :: ws) = afterGroup k ws := by
  cases hk : t.kind <;> simp_all [afterGroup, Token.lexeme, TokenKind.endsOperand]

theorem afterGroup_group (ho : o.kind = .openParen) (hc : c.kind = .closeParen) (k : Nat)
    (hts : ∀ us, afterGroup (k + 1) (ts.map Token.lexeme ++ us) = afterGroup (k + 1) us) :
    afterGroup k ((o :: (ts ++ [c])).map Token.lexeme ++ ws) = afterGroup k ws := by
  have hinner := hts (c.lexeme :: ws)
  simp [afterGroup, Token.lexeme, ho, hc] at hinner ⊢
  exact hinner

theorem afterGroup_append (h : Derives part ts x n) (k : Nat) (ws : List Lexeme) :
    afterGroup k (ts.map Token.lexeme ++ ws) = afterGroup k ws := by
  induction h generalizing k ws with
  | operand _ ih => exact ih k ws
  | join _ ho _ _ ihl ihr =>
    obtain ⟨hend, hopen⟩ := TokenKind.of_operator? ho
    simp [ihl, ihr, afterGroup_cons hend hopen]
  | unsigned _ ih => exact ih k ws
  | sign hs _ ih =>
    obtain ⟨hend, hopen⟩ := TokenKind.of_sign? hs
    simp [ih, afterGroup_cons hend hopen]
  | number hk => simp [afterGroup, Token.lexeme, hk]
  | ans hk => simp [afterGroup, Token.lexeme, hk]
  | group ho _ hc ih => exact afterGroup_group ho hc k fun us => ih (k + 1) us
  | @juxtaposed o c ls ts _ _ _ _ _ ho _ hc ihl ihr =>
    have hgroup : afterGroup k ((o :: (ts ++ [c])).map Token.lexeme ++ ws) = afterGroup k ws :=
      afterGroup_group ho hc k fun us => ihr (k + 1) us
    have hleft := ihl k ((o :: (ts ++ [c])).map Token.lexeme ++ ws)
    rw [hgroup] at hleft
    simpa using hleft

/-! What becomes of a part wherever it stands: of an operand with groups next to it together with
what is next to it still, of every other part by itself. -/

namespace Place

theorem explicit_cons (hend : t.kind.endsOperand = false) (hopen : t.kind ≠ .openParen) (p : Place)
    (ws : List Lexeme) :
    p.explicit (t.lexeme :: ws) = t.lexeme :: explicit ⟨false, p.joined⟩ ws := by
  cases hk : t.kind <;>
    simp_all [explicit, mark, step, endsOperand, Token.lexeme, TokenKind.endsOperand]

end Place

/-- Before anything but a group, the tokens `ts` become `us`. -/
def Becomes (ts us : List Token) : Prop :=
  ∀ js ws, opensGroup ws = false →
    Place.explicit ⟨false, js⟩ (ts.map Token.lexeme ++ ws) =
      us.map Token.lexeme ++ Place.explicit ⟨true, js⟩ ws

/-- Before anything, the tokens `ts` become `us`, in a parenthesis if groups are joined to them
already or are yet to come. It is left open before a group. -/
def Unfolds (joined : Bool) (ts us : List Token) : Prop :=
  ∀ js ws, Place.explicit ⟨false, js⟩ (ts.map Token.lexeme ++ ws) =
    (if joined || opensGroup ws then [openParen] else []) ++ (us.map Token.lexeme ++
      ((if joined && !opensGroup ws then [closeParen] else []) ++ Place.explicit ⟨true, js⟩ ws))

theorem Becomes.explicit_group (h : Becomes ts us) (hx : Derives (.chain .sum) ts x n)
    (ho : o.kind = .openParen) (hc : c.kind = .closeParen) (p : Place) (ws : List Lexeme) :
    p.explicit ((o :: (ts ++ [c])).map Token.lexeme ++ ws) =
      (if p.after then [star] else if opensGroup ws then [openParen] else []) ++
        ((o :: (us ++ [c])).map Token.lexeme ++
          ((if p.after && !opensGroup ws then [closeParen] else []) ++
            Place.explicit ⟨true, p.joined⟩ ws)) := by
  have hinner := h (p.after :: p.joined) (c.lexeme :: ws) (by simp [opensGroup, Token.lexeme, hc])
  have hgroups : afterGroup 0 (ts.map Token.lexeme ++ c.lexeme :: ws) = ws := by
    rw [afterGroup_append hx]
    simp [afterGroup, Token.lexeme, hc]
  have hclose : Place.explicit ⟨true, p.after :: p.joined⟩ (c.lexeme :: ws) =
      (if p.after && !opensGroup ws then [c.lexeme, closeParen] else [c.lexeme]) ++
        Place.explicit ⟨true, p.joined⟩ ws := by
    simp [Place.explicit, Place.mark, Place.step, Token.lexeme, hc, endsOperand,
      TokenKind.endsOperand]
  rw [hclose] at hinner
  have hshape : (o :: (ts ++ [c])).map Token.lexeme ++ ws =
      o.lexeme :: (ts.map Token.lexeme ++ c.lexeme :: ws) := by simp
  rw [hshape]
  generalize ts.map Token.lexeme ++ c.lexeme :: ws = inner at hinner hgroups
  have hopen : p.explicit (o.lexeme :: inner) =
      (if p.after then [star] else if opensGroup ws then [openParen] else []) ++
        o.lexeme :: Place.explicit ⟨false, p.after :: p.joined⟩ inner := by
    simp only [Place.explicit, Place.mark, Place.step, Token.lexeme, ho, endsOperand,
      TokenKind.endsOperand, hgroups, Option.any_some]
    cases p.after <;> cases opensGroup ws <;> rfl
  rw [hopen, hinner]
  cases p.after <;> cases opensGroup ws <;> simp

theorem Unfolds.single (hk : t.kind = .number ∨ t.kind = .ans) : Unfolds false [t] [t] := by
  intro js ws
  obtain ⟨kind, text, position⟩ := t
  rcases hk with rfl | rfl <;> cases hws : opensGroup ws <;>
    simp [Place.explicit, Place.mark, Place.step, Token.lexeme, endsOperand, TokenKind.endsOperand,
      hws]

theorem Becomes.group (h : Becomes ts us) (hx : Derives (.chain .sum) ts x n)
    (ho : o.kind = .openParen) (hc : c.kind = .closeParen) :
    Unfolds false (o :: (ts ++ [c])) (o :: (us ++ [c])) :=
  fun js ws => h.explicit_group hx ho hc ⟨false, js⟩ ws

theorem Unfolds.juxtaposed (hl : Unfolds joined ls us) (hr : Becomes ts vs)
    (hx : Derives (.chain .sum) ts x n) (ho : o.kind = .openParen) (hc : c.kind = .closeParen) :
    Unfolds true (ls ++ o :: (ts ++ [c])) (us ++ ⟨.star, ['*'], 0⟩ :: (o :: (vs ++ [c]))) := by
  intro js ws
  have hleft := hl js ((o :: (ts ++ [c])).map Token.lexeme ++ ws)
  have hopens : opensGroup ((o :: (ts ++ [c])).map Token.lexeme ++ ws) = true := by
    simp [opensGroup, Token.lexeme, ho]
  rw [hopens, hr.explicit_group hx ho hc] at hleft
  simpa [star, Token.lexeme] using hleft

/-- In parentheses, if there is a product in it, what an operand becomes is an operand. -/
theorem Unfolds.becomes (h : Unfolds joined ts us) (hx : Derives (.chain .product) us x m)
    (hbare : joined = false → Derives .primary us x m) :
    ∃ vs k, Becomes ts vs ∧ Derives .primary vs x k := by
  cases joined with
  | false =>
    refine ⟨us, m, fun js ws hws => ?_, hbare rfl⟩
    rw [h js ws, hws]
    rfl
  | true =>
    refine ⟨⟨.openParen, ['('], 0⟩ :: (us ++ [⟨.closeParen, [')'], 0⟩]), m + 1,
      fun js ws hws => ?_, .group rfl (.operand hx) rfl⟩
    rw [h js ws, hws]
    simp [openParen, closeParen, Token.lexeme]

theorem Becomes.sign (h : Becomes ts us) (hend : t.kind.endsOperand = false)
    (hopen : t.kind ≠ .openParen) : Becomes (t :: ts) (t :: us) := by
  intro js ws hws
  have hrest := h js ws hws
  simp only [List.map_cons, List.cons_append, Place.explicit_cons hend hopen, hrest]

theorem Becomes.join (hl : Becomes ls us) (hr : Becomes ts vs) (hend : t.kind.endsOperand = false)
    (hopen : t.kind ≠ .openParen) : Becomes (ls ++ t :: ts) (us ++ t :: vs) := by
  intro js ws hws
  have hleft := hl js (t.lexeme :: (ts.map Token.lexeme ++ ws))
    (by simpa [opensGroup, Token.lexeme] using hopen)
  rw [Place.explicit_cons hend hopen, hr js ws hws] at hleft
  simpa using hleft

/-- With its products written out, a part derives the tree that it does. An operand, which more
groups may follow, is at least a product. -/
def WritesOut : Part → List Token → Expr → Prop
  | .primary, ts, x => ∃ joined us m, Unfolds joined ts us ∧ Derives (.chain .product) us x m ∧
      (joined = false → Derives .primary us x m)
  | part, ts, x => ∃ us m, Becomes ts us ∧ Derives part us x m

theorem writesOut_operands {tier : Tier} : WritesOut tier.operands ts x ↔
    ∃ us m, Becomes ts us ∧ Derives tier.operands us x m := by
  cases tier <;> exact Iff.rfl

theorem writesOut (h : Derives part ts x n) : WritesOut part ts x := by
  induction h with
  | operand _ ih =>
    obtain ⟨us, m, hus, hx⟩ := writesOut_operands.1 ih
    exact ⟨us, m, hus, .operand hx⟩
  | join _ ho htier _ ihl ihr =>
    obtain ⟨hend, hopen⟩ := TokenKind.of_operator? ho
    obtain ⟨us, l, hus, hx⟩ := ihl
    obtain ⟨vs, r, hvs, hy⟩ := writesOut_operands.1 ihr
    exact ⟨_, _, hus.join hvs hend hopen, .join hx ho htier hy⟩
  | unsigned _ ih =>
    obtain ⟨joined, us, m, hus, hx, hbare⟩ := ih
    obtain ⟨vs, k, hvs, hy⟩ := hus.becomes hx hbare
    exact ⟨vs, k, hvs, .unsigned hy⟩
  | sign hs _ ih =>
    obtain ⟨hend, hopen⟩ := TokenKind.of_sign? hs
    obtain ⟨us, m, hus, hx⟩ := ih
    exact ⟨_, _, hus.sign hend hopen, .sign hs hx⟩
  | number hk =>
    have hnumber := Derives.number hk
    exact ⟨false, _, _, .single (.inl hk), .operand (.unsigned hnumber), fun _ => hnumber⟩
  | ans hk =>
    have hans := Derives.ans hk
    exact ⟨false, _, _, .single (.inr hk), .operand (.unsigned hans), fun _ => hans⟩
  | group ho hx hc ih =>
    obtain ⟨us, m, hus, hy⟩ := ih
    have hgroup := Derives.group ho hy hc
    exact ⟨false, _, _, hus.group hx ho hc, .operand (.unsigned hgroup), fun _ => hgroup⟩
  | juxtaposed _ ho hx hc ihl ihr =>
    obtain ⟨joined, us, l, hus, hy, -⟩ := ihl
    obtain ⟨vs, r, hvs, hz⟩ := ihr
    -- What was a product inside of the operand is now one of the product's own operators.
    exact ⟨true, _, _, hus.juxtaposed hvs hx ho hc,
      .join hy rfl rfl (.unsigned (.group ho hz hc)), fun h => nomatch h⟩

theorem Place.mark_cases (p : Place) (w : Lexeme) (ws : List Lexeme) :
    p.mark w ws = [w] ∧ ¬ (p.after = true ∧ w.kind = some .openParen) ∨
    p.mark w ws = [star, w] ∨
    p.mark w ws = [openParen, w] ∧ p.after = false ∨
    p.mark w ws = [w, closeParen] ∧ w.kind = some .closeParen := by
  obtain ⟨kind, text⟩ := w
  cases kind with
  | none => exact .inl ⟨rfl, by simp⟩
  | some k => cases k <;> simp only [Place.mark] <;> grind

theorem Place.sublist_explicit (p : Place) (ws : List Lexeme) : ws.Sublist (p.explicit ws) := by
  induction ws generalizing p with
  | nil => exact .slnil
  | cons w ws ih =>
    have hpiece : [w].Sublist (p.mark w ws) := by
      obtain ⟨hmark, -⟩ | hmark | ⟨hmark, -⟩ | ⟨hmark, -⟩ := p.mark_cases w ws <;> simp [hmark]
    exact hpiece.append (ih (p.step w))

theorem Place.isChain_explicit (p : Place) (v : Lexeme) (ws : List Lexeme)
    (hv : v.endsOperand = p.after) :
    (v :: p.explicit ws).IsChain fun v w => ¬ Multiplies v w := by
  induction ws generalizing p v with
  | nil => exact .singleton v
  | cons w ws ih =>
    have hnext := ih (p.step w) w rfl
    rw [show p.explicit (w :: ws) = p.mark w ws ++ (p.step w).explicit ws from rfl]
    obtain ⟨hmark, hnot⟩ | hmark | ⟨hmark, hafter⟩ | ⟨hmark, hclose⟩ := p.mark_cases w ws
    · have hpiece : ¬ Multiplies v w := by
        rwa [← hv] at hnot
      simpa [hmark] using ⟨hpiece, hnext⟩
    · have hstar : ¬ Multiplies v star := by simp [Multiplies, star]
      have hbehind : ¬ Multiplies star w := by
        simp [Multiplies, star, endsOperand, TokenKind.endsOperand]
      simpa [hmark] using ⟨hstar, hbehind, hnext⟩
    · have hopen : ¬ Multiplies v openParen := by simp [Multiplies, hv, hafter]
      have hbehind : ¬ Multiplies openParen w := by
        simp [Multiplies, openParen, endsOperand, TokenKind.endsOperand]
      simpa [hmark] using ⟨hopen, hbehind, hnext⟩
    · have hends : closeParen.endsOperand = (p.step w).after := by
        simp [Place.step, endsOperand, hclose, closeParen]
      have hpiece : ¬ Multiplies v w := by simp [Multiplies, hclose]
      have hbehind : ¬ Multiplies w closeParen := by simp [Multiplies, closeParen]
      simpa [hmark] using ⟨hpiece, hbehind, ih (p.step w) closeParen hends⟩

theorem isChain_explicit_start (ws : List Lexeme) :
    (Place.start.explicit ws).IsChain fun v w => ¬ Multiplies v w :=
  (Place.start.isChain_explicit ⟨none, []⟩ ws rfl).tail

end Lexeme

namespace Text

variable {s rest : Text} {k : TokenKind} {w : Lexeme}

/-- What writes products out is all symbols, so no numeral runs on into it. -/
theorem runsOn_explicitFrom (p : Lexeme.Place) (hs : Numeral.runsOn s = false) :
    Numeral.runsOn (s.explicitFrom p) = false := by
  cases h : s.skipBlank with
  | nil => rwa [explicitFrom_of_nil p h]
  | cons c cs =>
    rw [explicitFrom_of_cons p h, List.append_assoc]
    obtain ⟨v, hv⟩ := Lexeme.exists_front_text c cs
    refine runsOn_gap_append h hs ?_
    obtain ⟨hmark, -⟩ | hmark | ⟨hmark, -⟩ | ⟨hmark, -⟩ := p.mark_cases (Lexeme.front c cs)
      (lexemes ((c :: cs).drop (Lexeme.front c cs).text.length))
    · exact .inl ⟨_, by rw [hmark, List.flatMap_cons, hv]; rfl⟩
    · exact .inr (by rw [hmark]; rfl)
    · exact .inr (by rw [hmark]; rfl)
    · exact .inl ⟨_, by rw [hmark, List.flatMap_cons, hv]; rfl⟩

theorem lexemes_mark (h : Lexeme.IsFront s w) (hk : w.kind = some k)
    (hrest : w.kind = some .number → Numeral.runsOn rest = false) (p : Lexeme.Place)
    (ws : List Lexeme) :
    lexemes ((p.mark w ws).flatMap Lexeme.text ++ rest) = p.mark w ws ++ lexemes rest := by
  have hcut := lexemes_append_of_isFront h hk hrest
  obtain ⟨hmark, -⟩ | hmark | ⟨hmark, -⟩ | ⟨hmark, -⟩ := p.mark_cases w ws
  · simpa [hmark] using hcut
  · have hstar := lexemes_symbol .star (w.text ++ rest)
    rw [hcut] at hstar
    simpa [hmark, Lexeme.star] using hstar
  · have hopen := lexemes_symbol .openParen (w.text ++ rest)
    rw [hcut] at hopen
    simpa [hmark, Lexeme.openParen] using hopen
  · have hpiece : lexemes (w.text ++ ')' :: rest) = w :: lexemes (')' :: rest) :=
      lexemes_append_of_isFront h hk fun _ => rfl
    rw [lexemes_symbol .closeParen] at hpiece
    simpa [hmark, Lexeme.closeParen] using hpiece

theorem lexemes_explicitFrom (hs : s.IsLexical) (p : Lexeme.Place) :
    lexemes (s.explicitFrom p) = p.explicit s.lexemes := by
  induction s using lexemes.induct generalizing p with
  | case1 s h =>
    rw [explicitFrom_of_nil p h, lexemes_of_nil h]
    rfl
  | case2 s c cs h ih =>
    obtain ⟨⟨k, hk⟩, hu⟩ := isLexical_cons h hs
    have hcut := Lexeme.front_text_append_drop c cs
    have hfront := Lexeme.isFront_front c cs
    rw [explicitFrom_of_cons p h, lexemes_of_cons h, List.append_assoc,
      lexemes_gap_append (gap_all s), Lexeme.Place.explicit, ← ih hu]
    exact lexemes_mark hfront hk
      (fun hn => runsOn_explicitFrom _ (hfront.runsOn_eq_false hcut.symm hn)) p _

end Text

/-- With its products written out, a line is read as the tree that it is read as without, or the
parentheses around them make it too deep. All of its pieces stay, and no product is left that is
written without a star. -/
theorem parse_explicit {s : Text} {x : Expr} (h : parse s = .ok x) :
    (parse s.explicit = .ok x ∨ ∃ p, parse s.explicit = .error (.tooDeep p)) ∧
    s.lexemes.Sublist s.explicit.lexemes ∧
    s.explicit.lexemes.IsChain fun v w => ¬ Lexeme.Multiplies v w := by
  obtain ⟨ts, n, hs, hx, -⟩ := (Parser.run_eq_ok_iff_lexemes rfl).1 (Parser.run_none_of_run h)
  have hlexemes : s.explicit.lexemes = Lexeme.Place.start.explicit s.lexemes :=
    Text.lexemes_explicitFrom (Text.isLexical_of_lexemes hs) .start
  obtain ⟨us, m, hus, hy⟩ := Lexeme.writesOut hx
  have hpieces : Lexeme.Place.start.explicit s.lexemes = us.map Token.lexeme := by
    have hline := hus [] [] rfl
    simpa [hs, Lexeme.Place.explicit, Lexeme.Place.start] using hline
  have hrun : (Parser.run none s.explicit).1 = .ok x :=
    (Parser.run_eq_ok_iff_lexemes rfl).2 ⟨us, m, hlexemes.trans hpieces, hy, rfl, rfl⟩
  refine ⟨parse_or_tooDeep hrun, ?_⟩
  rw [hlexemes]
  exact ⟨Lexeme.Place.start.sublist_explicit s.lexemes, Lexeme.isChain_explicit_start s.lexemes⟩

/-- A product of groups binds tighter than what stands before it, and white space is kept. -/
theorem parse_explicit_quotient :
    let s : Text := "-12/2 (3)((4)(ans))".toList
    let x : Expr := .binary .div (.signed .minus (.number "12".toList))
      (.binary .mul (.binary .mul (.number "2".toList) (.number "3".toList))
        (.binary .mul (.number "4".toList) .ans))
    parse s = .ok x ∧ s.explicit = "-12/(2 *(3)*(((4)*(ans))))".toList ∧
    parse s.explicit = .ok x := by
  intro s x
  have hparse : parse s = .ok x := by decide +kernel
  have htext : s.explicit = "-12/(2 *(3)*(((4)*(ans))))".toList := by decide +kernel
  have hdeep : ∀ p, parse s.explicit ≠ .error (.tooDeep p) := by
    rw [htext]
    intro p
    have hread : parse "-12/(2 *(3)*(((4)*(ans))))".toList = .ok x := by decide +kernel
    rw [hread]
    exact fun h => nomatch h
  exact ⟨hparse, htext, (parse_explicit hparse).1.resolve_right (not_exists.2 hdeep)⟩

end DeskCalculator
