import DeskCalculator.Proofs.Depth
import DeskCalculator.Proofs.Evaluation
import DeskCalculator.Proofs.Seams
import Mathlib.Control.Monad.Basic

/-! Lines put together from lines. A line that is read spells its tree wherever it stands, so in
parentheses it may stand as an operand. What comes of that hangs on nothing but how deep it nests
and how tall its tree is. -/
namespace DeskCalculator

section Grouped

variable {s r : Text} {x y : Expr} {m n : Nat}

/-- A line that is read spells its tree, and counts as deep as its tokens nest. -/
theorem spells_of_parse (h : parse s = .ok x) :
    Spells (.chain .sum) s x (nesting s.tokens) ∧ x.height ≤ maxDepth := by
  obtain ⟨ts, n, hs, hx, -, hheight⟩ := parse_ok_iff.1 h
  refine ⟨fun p => ?_, hheight⟩
  have hlexemes : s.lexemes = ts.map Token.lexeme := by
    rw [← Text.map_lexeme_all 0 s, hs, List.map_map]
    rfl
  obtain ⟨us, hus, hmap⟩ := Item.exists_tokens ((Text.map_lexeme_all p s).trans hlexemes)
  rw [Text.tokens_of_all hs, Scope.nesting_of_derives hx]
  refine ⟨us, hx.of_lexemes hmap, fun rest hrest => ?_⟩
  rw [Scan.all_append (Text.isLexical_of_lexemes hlexemes) hrest, hus]

theorem Spells.readsIf (h : Spells (.chain .sum) s x n) {condition : Prop}
    (hc : condition ↔ n ≤ maxDepth ∧ x.height ≤ maxDepth) : ReadsIf condition s x := by
  obtain ⟨ts, hs, hx⟩ := h.exists_all
  have hrun : (Parser.run none s).1 = .ok x :=
    (Parser.run_eq_ok_iff_derives rfl).2 ⟨ts, n, hs, hx, rfl, rfl⟩
  have hkeeps : parse s = .ok x ↔ condition := by
    rw [parse_eq_ok_iff_keepsTo hs hrun, maxDepth, keepsTo_iff, Scope.nesting_of_derives hx, hc,
      and_comm, maxDepth]
  exact ⟨hkeeps.2, fun hdeep => (parse_or_tooDeep hrun).resolve_left (mt hkeeps.1 hdeep)⟩

/-- A group is an operand of every operator and of every sign. -/
theorem Spells.grouped (h : Spells (.chain .sum) s x n) :
    Spells .signed s.grouped x (n + 1) := h.group.as fun _ => .unsigned

/-- Lines in parentheses are read as the trees that they have alone: one by itself, two with an
operator between them, two next to each other, and one after a sign. They are so as long as the
limit leaves room for the parentheses and for the node that joins them, and otherwise the whole is
too deep. -/
theorem parse_grouped (hs : parse s = .ok x) (hr : parse r = .ok y) :
    ReadsIf (nesting s.tokens ≤ 255) s.grouped x ∧
    (∀ op : BinaryOp, ReadsIf
      (nesting s.tokens ≤ 255 ∧ nesting r.tokens ≤ 255 ∧ x.height ≤ 255 ∧ y.height ≤ 255)
      (s.grouped ++ op.symbol :: r.grouped) (.binary op x y)) ∧
    ReadsIf (nesting s.tokens ≤ 255 ∧ nesting r.tokens ≤ 255 ∧ x.height ≤ 255 ∧ y.height ≤ 255)
      (s.grouped ++ r.grouped) (.binary .mul x y) ∧
    ∀ sg : Sign, ReadsIf (nesting s.tokens ≤ 254 ∧ x.height ≤ 255) (sg.symbol :: s.grouped)
      (.signed sg x) := by
  obtain ⟨hx, hheight⟩ := spells_of_parse hs
  obtain ⟨hy, hheight'⟩ := spells_of_parse hr
  refine ⟨?_, fun op => ?_, ?_, fun sg => ?_⟩
  · refine hx.grouped.chain.readsIf ?_
    unfold maxDepth at *
    omega
  · refine (Spells.join op hx.grouped.chain hy.grouped.operands).sum.readsIf ?_
    simp only [Expr.height, maxDepth]
    omega
  · have hjoined := (Spells.juxtaposed hx.group hy).as fun _ => Derives.unsigned
    refine hjoined.chain.readsIf ?_
    simp only [Expr.height, maxDepth]
    omega
  · refine (hx.grouped.sign sg).chain.readsIf ?_
    simp only [Expr.height, maxDepth]
    omega

/-- White space at the seams is no matter. -/
theorem parse_grouped_blank :
    let s : Text := " 1-(2)\t".toList
    let r : Text := "ans/4. ".toList
    let x : Expr := .binary .sub (.number ['1']) (.number ['2'])
    let y : Expr := .binary .div .ans (.number ['4', '.'])
    parse s = .ok x ∧ parse r = .ok y ∧ nesting s.tokens = 1 ∧ nesting r.tokens = 0 ∧
    parse "( 1-(2)\t)(ans/4. )".toList = .ok (.binary .mul x y) ∧
    parse "-( 1-(2)\t)".toList = .ok (.signed .minus x) := by
  intro s r x y
  have hs : parse s = .ok x := by decide +kernel
  have hr : parse r = .ok y := by decide +kernel
  have hsnest : nesting s.tokens = 1 := by decide +kernel
  have hrnest : nesting r.tokens = 0 := by decide +kernel
  obtain ⟨-, -, ⟨hadjacent, -⟩, hsign⟩ := parse_grouped hs hr
  have hroom : nesting s.tokens ≤ 255 ∧ nesting r.tokens ≤ 255 ∧ x.height ≤ 255 ∧
      y.height ≤ 255 := by
    rw [hsnest, hrnest]
    decide
  have hroom' : nesting s.tokens ≤ 254 ∧ x.height ≤ 255 := by
    rw [hsnest]
    decide
  exact ⟨hs, hr, hsnest, hrnest, hadjacent hroom, (hsign .minus).1 hroom'⟩

end Grouped

/-! A group of the line `r` in place of the last answer in the line `s`. The pieces of the new line
are those of `s` with the group in each place, a group may stand wherever the last answer does, and
it leaves no trace in the tree. So the new line does what `r` and then `s` do. -/

def Lexeme.expand (ws : List Lexeme) (w : Lexeme) : List Lexeme :=
  if w.kind = some .ans then
    ⟨some .openParen, ['(']⟩ :: (ws ++ [⟨some .closeParen, [')']⟩])
  else [w]

theorem Lexeme.expand_token {t : Token} (hk : t.kind ≠ .ans) (ws : List Lexeme) :
    expand ws t.lexeme = [t.lexeme] := by
  simp [expand, Token.lexeme, hk]

namespace Text

variable {s r rest : Text}

theorem lexemes_group (hr : r.IsLexical) (rest : Text) :
    lexemes ('(' :: (r ++ ')' :: rest)) = ⟨some .openParen, ['(']⟩ ::
      (lexemes r ++ ⟨some .closeParen, [')']⟩ :: lexemes rest) := by
  rw [lexemes_symbol .openParen, lexemes_append hr rfl, lexemes_symbol .closeParen]

/-- What is put in place of the last answer begins with a parenthesis, so no numeral runs on into
it. -/
theorem runsOn_substitute (r : Text) (hs : Numeral.runsOn s = false) :
    Numeral.runsOn (s.substitute r) = false := by
  cases h : s.skipBlank with
  | nil => rwa [substitute_of_nil r h]
  | cons c cs =>
    rw [substitute_of_cons r h, List.append_assoc]
    split
    · exact runsOn_gap_append h hs (.inr rfl)
    · obtain ⟨v, hv⟩ := Lexeme.exists_front_text c cs
      rw [hv]
      exact runsOn_gap_append h hs (.inl ⟨_, rfl⟩)

theorem lexemes_substitute (hs : s.IsLexical) (hr : r.IsLexical) :
    lexemes (s.substitute r) = (lexemes s).flatMap (Lexeme.expand (lexemes r)) := by
  induction s using lexemes.induct with
  | case1 s h =>
    rw [substitute_of_nil r h, lexemes_of_nil h]
    rfl
  | case2 s c cs h ih =>
    obtain ⟨⟨k, hk⟩, hu⟩ := isLexical_cons h hs
    have hcut := Lexeme.front_text_append_drop c cs
    have hfront := Lexeme.isFront_front c cs
    rw [substitute_of_cons r h, lexemes_of_cons h, List.flatMap_cons, ← ih hu, List.append_assoc,
      lexemes_gap_append (gap_all s)]
    generalize (c :: cs).drop (Lexeme.front c cs).text.length = u at hcut
    by_cases hans : (Lexeme.front c cs).kind = some .ans
    · rw [if_pos hans, Lexeme.expand, if_pos hans]
      simpa using lexemes_group hr (substitute u r)
    · rw [if_neg hans, Lexeme.expand, if_neg hans]
      exact lexemes_append_of_isFront hfront hk fun hn =>
        runsOn_substitute r (hfront.runsOn_eq_false hcut.symm hn)

end Text

theorem Derives.substitute {us : List Token} {y : Expr} {m : Nat}
    (hy : Derives (.chain .sum) us y m) {p : Part} {ts : List Token} {x : Expr} {n : Nat}
    (h : Derives p ts x n) :
    ∃ ks k, ks.map Token.lexeme =
        (ts.map Token.lexeme).flatMap (Lexeme.expand (us.map Token.lexeme)) ∧
      Derives p ks (x.substitute y) k := by
  induction h with
  | operand _ ih =>
    obtain ⟨ks, k, hks, hx⟩ := ih
    exact ⟨ks, k, hks, .operand hx⟩
  | @join _ _ _ t _ _ _ _ _ _ ho ht _ ihl ihr =>
    obtain ⟨ls, k, hls, hx⟩ := ihl
    obtain ⟨rs, l, hrs, hx'⟩ := ihr
    have hk : t.kind ≠ .ans := by
      rintro hk
      simp [hk, TokenKind.operator?] at ho
    exact ⟨ls ++ t :: rs, _, by simp [hls, hrs, Lexeme.expand_token hk], .join hx ho ht hx'⟩
  | unsigned _ ih =>
    obtain ⟨ks, k, hks, hx⟩ := ih
    exact ⟨ks, k, hks, .unsigned hx⟩
  | @sign t _ _ _ _ hs _ ih =>
    obtain ⟨ks, k, hks, hx⟩ := ih
    have hk : t.kind ≠ .ans := by
      rintro hk
      simp [hk, TokenKind.sign?] at hs
    exact ⟨t :: ks, _, by simp [hks, Lexeme.expand_token hk], .sign hs hx⟩
  | @number t hk =>
    have hne : t.kind ≠ .ans := by simp [hk]
    exact ⟨[t], _, by simp [Lexeme.expand_token hne], .number hk⟩
  | @ans t hk =>
    have hgroup : Derives .primary (⟨.openParen, ['('], 0⟩ :: (us ++ [⟨.closeParen, [')'], 0⟩])) y
        (m + 1) := .group rfl hy rfl
    exact ⟨_, _, by simp [Lexeme.expand, Token.lexeme, hk], hgroup⟩
  | @group o c _ _ _ ho _ hc ih =>
    obtain ⟨ks, k, hks, hx⟩ := ih
    have hopen : o.kind ≠ .ans := by simp [ho]
    have hclose : c.kind ≠ .ans := by simp [hc]
    exact ⟨o :: (ks ++ [c]), _,
      by simp [hks, Lexeme.expand_token hopen, Lexeme.expand_token hclose], .group ho hx hc⟩
  | @juxtaposed o c _ _ _ _ _ _ _ ho _ hc ihl ihr =>
    obtain ⟨ls, k, hls, hx⟩ := ihl
    obtain ⟨rs, l, hrs, hx'⟩ := ihr
    have hopen : o.kind ≠ .ans := by simp [ho]
    have hclose : c.kind ≠ .ans := by simp [hc]
    exact ⟨ls ++ o :: (rs ++ [c]), _,
      by simp [hls, hrs, Lexeme.expand_token hopen, Lexeme.expand_token hclose],
      .juxtaposed hx ho hx' hc⟩

theorem Expr.evaluate_substitute {y : Expr} {answer v : Float} (hy : y.evaluate answer = .ok v)
    (x : Expr) : (x.substitute y).evaluate answer = x.evaluate v := by
  induction x with
  | hole => rfl
  | number t => rfl
  | ans => exact hy
  | binary op l r ihl ihr => simp only [substitute, evaluate, ihl, ihr]
  | signed s x ih => simp only [substitute, evaluate, ih]

theorem Parser.run_substitute {s r : Text} {x y : Expr} (hx : (run none s).1 = .ok x)
    (hy : (run none r).1 = .ok y) : (run none (s.substitute r)).1 = .ok (x.substitute y) := by
  obtain ⟨ts, n, hs, hts, -⟩ := (run_eq_ok_iff_lexemes rfl).1 hx
  obtain ⟨us, m, hr, hus, -⟩ := (run_eq_ok_iff_lexemes rfl).1 hy
  obtain ⟨ks, k, hks, hz⟩ := hus.substitute hts
  refine (run_eq_ok_iff_lexemes rfl).2 ⟨ks, k, ?_, hz, rfl, rfl⟩
  rw [Text.lexemes_substitute (Text.isLexical_of_lexemes hs) (Text.isLexical_of_lexemes hr), hs, hr,
    hks]

/-- With a group of the line `r` in place of the last answer, the line `s` is read as its tree with
the tree of `r` there, or it is too deep. The value of the tree of `r` is what the tree of `s` then
takes for the last answer, so in a session the new line does what `r` and then `s` do. -/
theorem parse_substitute {s r : Text} {x y : Expr} (hx : parse s = .ok x) (hy : parse r = .ok y) :
    (parse (s.substitute r) = .ok (x.substitute y) ∨
      ∃ p, parse (s.substitute r) = .error (.tooDeep p)) ∧
    (∀ answer, ∃ v, y.evaluate answer = .ok v ∧
      (x.substitute y).evaluate answer = x.evaluate v) ∧
    ((∀ p, parse (s.substitute r) ≠ .error (.tooDeep p)) → ∀ session : Session,
      (session.runLine (s.substitute r)).result =
        ((session.runLine r).session.runLine s).result ∧
      (session.runLine (s.substitute r)).session =
        ((session.runLine r).session.runLine s).session) := by
  have hread : (∀ p, parse (s.substitute r) ≠ .error (.tooDeep p)) →
      parse (s.substitute r) = .ok (x.substitute y) := fun h =>
    (Parser.run_eq_run_none h).trans
      (Parser.run_substitute (Parser.run_none_of_run hx) (Parser.run_none_of_run hy))
  refine ⟨?_, fun answer => ?_, fun h session => ?_⟩
  · by_cases hdeep : ∃ p, parse (s.substitute r) = .error (.tooDeep p)
    · exact .inr hdeep
    · exact .inl (hread (not_exists.1 hdeep))
  · obtain ⟨v, hv⟩ := Expr.exists_evaluate (isComplete_of_parse hy).1 answer
    exact ⟨v, hv, Expr.evaluate_substitute hv x⟩
  · obtain ⟨v, hv⟩ := Expr.exists_evaluate (isComplete_of_parse hy).1 session.ans
    obtain ⟨w, hw⟩ := Expr.exists_evaluate (isComplete_of_parse hx).1 v
    have hfirst : (session.runLine r).session = ⟨v⟩ := (session.runLine_of_evaluate hy hv).2
    obtain ⟨hresult, hsession⟩ := Session.runLine_of_evaluate ⟨v⟩ hx hw
    obtain ⟨hresult', hsession'⟩ := session.runLine_of_evaluate (hread h)
      ((Expr.evaluate_substitute hv x).trans hw)
    rw [hfirst, hresult, hsession, hresult', hsession']
    exact ⟨rfl, rfl⟩

/-- What is put next to an operand is a group of its own, and a difference is not taken apart. -/
theorem parse_substitute_adjacent :
    Text.substitute "2(ans)-ans".toList "1-ans".toList = "2((1-ans))-(1-ans)".toList ∧
    (∀ answer, ∃ v, (Expr.binary .sub (.number "1".toList) .ans).evaluate answer = .ok v ∧
      (Expr.binary .sub
        (.binary .mul (.number "2".toList) (.binary .sub (.number "1".toList) .ans))
        (.binary .sub (.number "1".toList) .ans)).evaluate answer =
        (Expr.binary .sub (.binary .mul (.number "2".toList) .ans) .ans).evaluate v) ∧
    ∀ session : Session, (session.runLine "2((1-ans))-(1-ans)".toList).session =
      ((session.runLine "1-ans".toList).session.runLine "2(ans)-ans".toList).session := by
  have hx : parse "2(ans)-ans".toList =
      .ok (.binary .sub (.binary .mul (.number "2".toList) .ans) .ans) := by decide +kernel
  have hy : parse "1-ans".toList = .ok (.binary .sub (.number "1".toList) .ans) := by
    decide +kernel
  have htext : Text.substitute "2(ans)-ans".toList "1-ans".toList =
      "2((1-ans))-(1-ans)".toList := by decide +kernel
  have hdeep : ∀ p, parse (Text.substitute "2(ans)-ans".toList "1-ans".toList) ≠
      .error (.tooDeep p) := by
    intro p hp
    have hparse : parse "2((1-ans))-(1-ans)".toList = .ok (.binary .sub
        (.binary .mul (.number "2".toList) (.binary .sub (.number "1".toList) .ans))
        (.binary .sub (.number "1".toList) .ans)) := by decide +kernel
    rw [htext, hparse] at hp
    cases hp
  obtain ⟨-, hvalue, hsession⟩ := parse_substitute hx hy
  exact ⟨htext, hvalue, fun session => htext ▸ (hsession hdeep session).2⟩

end DeskCalculator
