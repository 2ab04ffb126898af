import DeskCalculator.Proofs.Consumption
import DeskCalculator.Proofs.Positions
import DeskCalculator.Text.Spacing
import Mathlib.Data.List.Chain

/-! White space between the tokens of a line means nothing. What is put in moves the tokens and
changes none of them. To take white space out can join two pieces, but only a numeral and what it
runs on into, and in an expression no numeral stands next to another. -/
namespace DeskCalculator

/-! What the parser makes of a line hangs on the kinds and texts of its tokens. Where they stand it
only passes on, so a line whose pieces have been moved comes to the same, with the places moved. -/

namespace Reading

variable {limit : Limit} {j : Joint} {c : Call} {size d : Nat} {s r : List Item} {t : Token}
  {op : BinaryOp} {x : Expr} {e : ParseError}

def Call.moved (f : Nat → Nat) : Call → Call
  | .group o => .group (o.moved f)
  | c => c

@[simp] theorem Call.moved_first (f : Nat → Nat) (j : Joint) : j.first.moved f = j.first := by
  cases j with
  | operator tier => cases tier <;> rfl
  | adjacent => rfl

@[simp] theorem Call.moved_next (f : Nat → Nat) (j : Joint) (t : Token) :
    (j.next t).moved f = j.next (t.moved f) := by
  cases j with
  | operator tier => cases tier <;> rfl
  | adjacent => rfl

@[simp] theorem Call.asks_moved (f : Nat → Nat) (c : Call) : (c.moved f).asks = c.asks := by
  cases c <;> rfl

@[simp] theorem Call.needsOperand_moved (f : Nat → Nat) (c : Call) :
    (c.moved f).needsOperand = c.needsOperand := by
  cases c <;> rfl

theorem Joint.Stops.moved (h : j.Stops s) (f : Nat → Nat) : j.Stops (s.map (Item.moved f)) := by
  cases s with
  | nil => trivial
  | cons i s =>
    cases i with
    | error e => exact h
    | ok t => exact h

theorem Unclosed.moved (h : Unclosed s) (f : Nat → Nat) : Unclosed (s.map (Item.moved f)) := by
  cases s with
  | nil => trivial
  | cons i s =>
    cases i with
    | error e => exact h
    | ok t => exact h

theorem Reads.moved (h : Reads limit c d s x r) (f : Nat → Nat) :
    Reads limit (c.moved f) d (s.map (Item.moved f)) x (r.map (Item.moved f)) := by
  induction h with
  | spine _ _ ih ihr =>
    rw [Call.moved_first] at ih
    exact .spine ih ihr
  | done hs => exact .done (hs.moved f)
  | @joined _ _ t _ _ _ _ _ _ _ ho _ ha _ ih ihr =>
    rw [Call.moved_next] at ih
    exact .joined (t := t.moved f) ho ih ha ihr
  | @sign _ t _ _ _ _ hg hd _ ha ih => exact .sign (t := t.moved f) hg hd ih ha
  | @unsigned _ t _ _ _ hn _ ih => exact .unsigned (t := t.moved f) hn ih
  | @number _ t _ hk => exact .number (t := t.moved f) hk
  | @ans _ t _ hk => exact .ans (t := t.moved f) hk
  | @opened _ t _ _ _ hk _ ih => exact .opened (t := t.moved f) hk ih
  | @closed _ _ c _ _ _ hd _ hc ih => exact .closed (c := c.moved f) hd ih hc

theorem Fails.moved (h : Fails limit size c d s e) (f : Nat → Nat) :
    Fails limit (f size) (c.moved f) d (s.map (Item.moved f)) (e.moved f) := by
  induction h with
  | lex ha => exact .lex (by rwa [Call.asks_moved])
  | ended ha => exact .ended (by rwa [Call.needsOperand_moved])
  | first _ ih =>
    rw [Call.moved_first] at ih
    exact .first ih
  | rest hx _ ih =>
    have hfirst := hx.moved f
    rw [Call.moved_first] at hfirst
    exact .rest hfirst ih
  | @operand _ _ t _ _ _ _ ho _ ih =>
    rw [Call.moved_next] at ih
    exact .operand (t := t.moved f) ho ih
  | @tall _ _ t _ _ _ _ _ ho hy ha =>
    have hnext := hy.moved f
    rw [Call.moved_next] at hnext
    exact .tall (t := t.moved f) ho hnext ha
  | @onward _ _ t _ _ _ _ _ _ ho hy ha _ ih =>
    have hnext := hy.moved f
    rw [Call.moved_next] at hnext
    exact .onward (t := t.moved f) ho hnext ha ih
  | @signNested _ t _ _ hg hd => exact .signNested (t := t.moved f) hg hd
  | @signOperand _ t _ _ _ hg hd _ ih => exact .signOperand (t := t.moved f) hg hd ih
  | @signTall _ t _ _ _ _ hg hd hx ha => exact .signTall (t := t.moved f) hg hd (hx.moved f) ha
  | @unsigned _ t _ _ hn _ ih => exact .unsigned (t := t.moved f) hn ih
  | @noOperand _ t _ hnumber hans hopen => exact .noOperand (t := t.moved f) hnumber hans hopen
  | @opened _ t _ _ hk _ ih => exact .opened (t := t.moved f) hk ih
  | @groupNested _ o _ hd => exact .groupNested (o := o.moved f) hd
  | inside hd _ ih => exact .inside hd ih
  | lexAfter hd hx => exact .lexAfter hd (hx.moved f)
  | @unclosed _ o _ _ _ hd hx hu => exact .unclosed (o := o.moved f) hd (hx.moved f) (hu.moved f)

end Reading

/-- With a limit or without one, a line whose pieces have been moved comes to the same. -/
theorem Parser.run_moved {s r : Text} {f : Nat → Nat}
    (hall : Scan.all 0 r = (Scan.all 0 s).map (Item.moved f)) (hend : r.size = f s.size)
    (limit : Limit) : (run limit r).1 = (run limit s).1.mapError (ParseError.moved f) := by
  have hline := line_run limit s
  rw [← line_iff]
  generalize (run limit s).1 = result at hline
  cases hline with
  | whole hx =>
    have hread := hx.moved f
    rw [← hall] at hread
    exact .whole hread
  | failed he =>
    have hfails := he.moved f
    rw [← hall, ← hend] at hfails
    exact .failed hfails
  | lexAfter hx =>
    have hread := hx.moved f
    rw [← hall] at hread
    exact .lexAfter hread
  | leftOver hx =>
    have hread := hx.moved f
    rw [← hall] at hread
    exact .leftOver hread

open Text (isBlank fillFrom spacedFrom Thins IsLexical)

variable {s r u : Text} {p q : Nat} {f : Nat → Nat} {blanks : Nat → Text} {w : Lexeme}
  {k : TokenKind} {ts : List Token} {x : Expr}

namespace Numeral

theorem runsOn_of_isBlankLine (h : s.isBlankLine = true) : runsOn s = false := by
  cases s with
  | nil => rfl
  | cons c cs =>
    rw [Text.isBlankLine, List.all_cons, Bool.and_eq_true] at h
    rw [Bool.eq_false_iff]
    intro hruns
    cases runsOn_iff.1 hruns with
    | point | lower | upper => exact absurd h.1 (by decide)
    | digit hc => simp [Text.isBlank_eq_false_of_isDigit hc] at h

theorem runsOn_spacedFrom (hblanks : ∀ q, (blanks q).isBlankLine = true)
    (h : runsOn u = false) (p : Nat) : runsOn (spacedFrom blanks p u) = false := by
  have hfront := runsOn_of_isBlankLine (hblanks p)
  cases u with
  | nil => exact hfront
  | cons c cs =>
    rw [spacedFrom, fillFrom, List.append_assoc]
    exact runsOn_append hfront h

end Numeral

namespace Scan

/-- White space that is put in between the items of a text, and around them, moves the items, each to
behind all that is before it then. -/
theorem all_spacedFrom (hs : s.IsLexical) (hblanks : ∀ b, (blanks b).isBlankLine = true)
    (hinside : ∀ i ∈ all p s, ∀ b, i.position < b → b < i.position + i.text.size → blanks b = [])
    (hf : ∀ a b, s = a ++ b → f (p + a.size) = q + (spacedFrom blanks p a).size) :
    all q (spacedFrom blanks p s) = (all p s).map (Item.moved f) := by
  induction s, hs using Text.IsLexical.induction generalizing p q with
  | blank g _ hg =>
    have hblank := Text.isBlankLine_spacedFrom hblanks hg p
    rw [all_of_isBlankLine p hg, all_of_isBlankLine q hblank, List.map_nil]
  | piece g u w k _ hg hk hne hw _ ih =>
    rw [all_piece p hg hk hw] at hinside ⊢
    have hitem := hinside _ List.mem_cons_self
    rw [text_item?, position_item?] at hitem
    have hrest := fun i hi => hinside i (List.mem_cons_of_mem _ hi)
    have hblank := Text.isBlankLine_spacedFrom hblanks hg p
    have hnumber (hn : w.kind = some .number) :
        Numeral.runsOn (spacedFrom blanks (p + g.size + w.text.size) u) = false :=
      Numeral.runsOn_spacedFrom hblanks (hw.runsOn_eq_false rfl hn) _
    have hplace : f (p + g.size) = q + (spacedFrom blanks p g).size := hf g (w.text ++ u) rfl
    have hmoved : (item? w (p + g.size)).moved f = item? w (f (p + g.size)) := by
      simp only [item?, hk, Item.moved_ok, Token.moved]
    -- What the rest is split into is behind the gap and the token in a split of the whole.
    have hlater (a b : Text) (hab : u = a ++ b) : f (p + g.size + w.text.size + a.size) =
        q + (spacedFrom blanks p g).size + w.text.size +
          (spacedFrom blanks (p + g.size + w.text.size) a).size := by
      have hfront := hf (g ++ (w.text ++ a)) b (by simp [hab])
      simpa [Text.spacedFrom_piece hne hitem, Nat.add_assoc] using hfront
    calc all q (spacedFrom blanks p (g ++ (w.text ++ u)))
        = all q (spacedFrom blanks p g ++
            (w.text ++ spacedFrom blanks (p + g.size + w.text.size) u)) := by
          rw [Text.spacedFrom_piece hne hitem]
      _ = item? w (f (p + g.size)) :: all (f (p + g.size) + w.text.size)
            (spacedFrom blanks (p + g.size + w.text.size) u) := by
          rw [all_gap_append hblank, all_append_of_isFront _ hw hk hnumber, hplace]
      _ = ((item? w (p + g.size)).moved f) ::
            (all (p + g.size + w.text.size) u).map (Item.moved f) := by
          rw [hmoved, hplace, ih hrest hlater]

theorem all_spaced (hall : all 0 s = ts.map .ok) (hblanks : ∀ b, (blanks b).isBlankLine = true)
    (hinside : ∀ t ∈ ts, ∀ b, t.position < b → b < t.position + t.text.size → blanks b = []) :
    all 0 (s.spaced blanks) = (all 0 s).map (Item.moved (s.shifted blanks)) := by
  have hlexemes : s.lexemes = ts.map Token.lexeme := by
    rw [← Text.map_lexeme_all 0, hall, List.map_map]
    rfl
  refine all_spacedFrom (Text.isLexical_of_lexemes hlexemes) hblanks (fun i hi => ?_) ?_
  · rw [hall] at hi
    obtain ⟨t, ht, rfl⟩ := List.mem_map.1 hi
    exact hinside t ht
  · rintro a b rfl
    rw [Nat.zero_add, Nat.zero_add, Text.shifted_size, Text.spaced]

end Scan

/-! There is no white space in a token, so what is taken out of a line is taken from its gaps. -/

namespace Numeral

theorem isBlank_eq_false_of_digits (hs : s.all Char.isDigit) {c : Char} (hc : c ∈ s) :
    isBlank c = false :=
  Text.isBlank_eq_false_of_isDigit (List.all_eq_true.1 hs c hc)

theorem isBlank_eq_false_of_mantissa (hs : IsMantissa s) {c : Char} (hc : c ∈ s) :
    isBlank c = false := by
  cases hs with
  | fraction hwhole hpart _ =>
    rcases List.mem_append.1 hc with hc | hc
    · exact isBlank_eq_false_of_digits hwhole hc
    · rcases List.mem_cons.1 hc with rfl | hc
      · rfl
      · exact isBlank_eq_false_of_digits hpart hc
  | whole hds _ => exact isBlank_eq_false_of_digits hds hc
  | pointed hds _ =>
    rcases List.mem_append.1 hc with hc | hc
    · exact isBlank_eq_false_of_digits hds hc
    · obtain rfl := List.mem_singleton.1 hc
      rfl

theorem isBlank_eq_false_of_exponent (hs : IsExponent s) {c : Char} (hc : c ∈ s) :
    isBlank c = false := by
  have hsigned {sign ds : Text} (hsign : IsSign sign) (hds : ds.all Char.isDigit)
      (hc : c ∈ sign ++ ds) : isBlank c = false := by
    rcases List.mem_append.1 hc with hc | hc
    · cases hsign with
      | none => cases hc
      | plus | minus =>
        obtain rfl := List.mem_singleton.1 hc
        rfl
    · exact isBlank_eq_false_of_digits hds hc
  cases hs with
  | none => cases hc
  | lower hsign hds _ | upper hsign hds _ =>
    rcases List.mem_cons.1 hc with rfl | hc
    · rfl
    · exact hsigned hsign hds hc

end Numeral

namespace Lexeme

theorem IsFront.isBlank_eq_false (h : IsFront s w) (hk : w.kind = some k) :
    ∀ c ∈ w.text, isBlank c = false := by
  intro c hc
  cases h with
  | symbol hsymbol =>
    obtain rfl := List.mem_singleton.1 hc
    cases hsymbol <;> rfl
  | ans =>
    have hword : answerWord.all (fun c => !isBlank c) = true := rfl
    simpa using List.all_eq_true.1 hword c hc
  | number hv _ =>
    obtain @⟨m, e, hm, he⟩ := hv.isNumeral
    rcases List.mem_append.1 hc with hc | hc
    · exact Numeral.isBlank_eq_false_of_mantissa hm hc
    · exact Numeral.isBlank_eq_false_of_exponent he hc
  | runsOn _ _ => cases hk
  | unknown _ _ _ => cases hk

/-- Only a numeral begins as a numeral before it could go on. -/
theorem IsFront.runsOn_text_append (h : IsFront s w) (hk : w.kind = some k) (hne : k ≠ .number)
    (rest : Text) : Numeral.runsOn (w.text ++ rest) = false := by
  cases h with
  | symbol hsymbol => cases hsymbol <;> rfl
  | ans => rfl
  | number _ _ => exact absurd (Option.some.inj hk).symm hne
  | runsOn _ _ => cases hk
  | unknown _ _ _ => cases hk

def Apart (v w : Lexeme) : Prop := v.kind = some .number → w.kind ≠ some .number

end Lexeme

namespace Text.Thins

/-- A token stays as it is, with less white space before it perhaps, and what comes after it is
thinned. -/
theorem exists_piece {g : Text} (h : Thins (g ++ (w.text ++ u)) r) (hg : g.isBlankLine = true)
    (hk : w.kind = some k) (hw : Lexeme.IsFront (w.text ++ u) w) :
    ∃ g' rest, r = g' ++ (w.text ++ rest) ∧ g'.isBlankLine = true ∧ Thins u rest := by
  obtain ⟨g', r', rfl, hg', h⟩ := h.exists_append
  obtain ⟨v, rest, rfl, hv, hrest⟩ := h.exists_append
  exact ⟨g', rest, by rw [hv.eq_of_forall (hw.isBlank_eq_false hk)], hg'.isBlankLine hg, hrest⟩

theorem runsOn_eq_false (h : Thins s r) (hs : s.IsLexical)
    (hnumber : ∀ w ∈ s.lexemes.head?, w.kind ≠ some .number) : Numeral.runsOn r = false := by
  cases s, hs using IsLexical.induction with
  | blank g _ hg => exact Numeral.runsOn_of_isBlankLine (h.isBlankLine hg)
  | piece g u w k _ hg hk _ hw _ _ =>
    obtain ⟨g', rest, rfl, hg', -⟩ := h.exists_piece hg hk hw
    have hne : k ≠ .number := by
      rintro rfl
      exact hnumber w (by simp [lexemes_piece hg hk hw]) hk
    exact Numeral.runsOn_append (Numeral.runsOn_of_isBlankLine hg')
      (hw.runsOn_text_append hk hne rest)

/-- Where no two numerals stand next to each other, less white space leaves the same tokens. -/
theorem lexemes_eq (h : Thins s r) (hs : s.IsLexical) (hapart : s.lexemes.IsChain Lexeme.Apart) :
    r.lexemes = s.lexemes := by
  induction s, hs using IsLexical.induction generalizing r with
  | blank g _ hg => rw [lexemes_of_isBlankLine hg, lexemes_of_isBlankLine (h.isBlankLine hg)]
  | piece g u w k _ hg hk _ hw hu ih =>
    obtain ⟨g', rest, rfl, hg', hrest⟩ := h.exists_piece hg hk hw
    rw [lexemes_piece hg hk hw] at hapart ⊢
    obtain ⟨hhead, htail⟩ := List.isChain_cons.1 hapart
    have hnumber (hn : w.kind = some .number) : Numeral.runsOn rest = false :=
      hrest.runsOn_eq_false hu fun v hv => hhead v hv hn
    rw [lexemes_gap_append hg', lexemes_append_of_isFront hw hk hnumber, ih hrest htail]

end Text.Thins

theorem Recognizer.isChain_of_after {state state' : State} {opened opened' : List Nat}
    (h : after state opened ts = .ok (state', opened')) :
    (ts.map Token.lexeme).IsChain Lexeme.Apart := by
  induction ts generalizing state opened with
  | nil => exact .nil
  | cons t ts ih =>
    rw [after] at h
    split at h
    · cases h
    · rename_i state₁ opened₁ hstep
      rw [List.map_cons, List.isChain_cons]
      refine ⟨fun w hw hnumber hnumber' => ?_, ih h⟩
      have hread : state₁ = .read := by
        have hk : t.kind = .number := Option.some.inj hnumber
        cases state <;> simp_all [step]
      cases ts with
      | nil => cases hw
      | cons u us =>
        obtain rfl : u.lexeme = w := by simpa using hw
        have hk : u.kind = .number := Option.some.inj hnumber'
        simp [hread, after, step, hk] at h

/-- Two operands do not stand next to each other, so a line that is read has no two numerals that
white space alone keeps apart. -/
theorem parse_of_thins (h : parse s = .ok x) (hr : Thins s r) : parse r = .ok x := by
  obtain ⟨ts, n, hs, hder, hlimit⟩ := (Parser.run_eq_ok_iff_lexemes (by decide)).1 h
  have hchain := Recognizer.isChain_of_after (Recognizer.after_of_isExpression ⟨x, n, hder⟩)
  rw [← hs] at hchain
  refine (Parser.run_eq_ok_iff_lexemes (by decide)).2 ⟨ts, n, ?_, hder, hlimit⟩
  rw [hr.lexemes_eq (Text.isLexical_of_lexemes hs) hchain, hs]

/-- White space that is put in anywhere but inside a token moves the tokens of a line, and the line
comes to the same tree, or to the same error at the place that the item of the error has moved to,
where a missing end is the new end. White space that is taken out of a line that is read, any of it
or all, leaves its tree as it is. -/
theorem parse_spaced (s : Text) :
    (∀ (ts : List Token) (blanks : Nat → Text), Scan.all 0 s = ts.map .ok →
      (∀ q, (blanks q).isBlankLine = true) →
      (∀ t ∈ ts, ∀ q, t.position < q → q < t.position + t.text.size → blanks q = []) →
      Scan.all 0 (s.spaced blanks) = (ts.map (Token.moved (s.shifted blanks))).map .ok ∧
      parse (s.spaced blanks) = (parse s).mapError (ParseError.moved (s.shifted blanks)) ∧
      ∀ p, parse s = .error (.unexpectedEnd p) →
        parse (s.spaced blanks) = .error (.unexpectedEnd (s.spaced blanks).size)) ∧
    ∀ x r, parse s = .ok x → Text.Thins s r → parse r = .ok x := by
  refine ⟨fun ts blanks hall hblanks hinside => ?_, fun x r => parse_of_thins⟩
  have hmoved := Scan.all_spaced hall hblanks hinside
  have hend : (s.spaced blanks).size = s.shifted blanks s.size := by
    have hwhole := Text.shifted_size blanks s []
    rw [List.append_nil] at hwhole
    exact hwhole.symm
  have hparse := Parser.run_moved hmoved hend (some maxDepth)
  refine ⟨?_, hparse, fun p hp => ?_⟩
  · rw [hmoved, hall, List.map_map, List.map_map]
    rfl
  · have hp' : p = s.size := by
      cases isAbout_of_parse hp with
      | item _ _ hshown => cases hshown
      | ended => rfl
    rw [parse] at hp ⊢
    rw [hparse, hp, hp', hend]
    rfl

/-- White space of three bytes is put in before the first line, of two bytes behind its word and at
its end. The second line loses all that it has. -/
theorem parse_spaced_wide :
    let s : Text := "ans (1 2".toList
    let blanks : Nat → Text := fun q =>
      if q = 0 then ['\u3000'] else if q = 3 ∨ q = 8 then ['\u00a0'] else []
    let x : Expr := .signed .minus (.binary .mul (.number ['2'])
      (.binary .add (.number ".5".toList) .ans))
    parse s = .error (.unclosedParen 4) ∧ parse (s.spaced blanks) = .error (.unclosedParen 9) ∧
    parse " -\u20032 (.5 +\tans )".toList = .ok x ∧ parse "-2(.5+ans)".toList = .ok x := by
  intro s blanks x
  have hall : Scan.all 0 s = List.map .ok [⟨.ans, "ans".toList, 0⟩, ⟨.openParen, ['('], 4⟩,
    ⟨.number, ['1'], 5⟩, ⟨.number, ['2'], 7⟩] := by decide +kernel
  have hblanks (q : Nat) : (blanks q).isBlankLine = true := by
    dsimp only [blanks]
    split_ifs <;> rfl
  have hinside : ∀ t ∈ ([⟨.ans, "ans".toList, 0⟩, ⟨.openParen, ['('], 4⟩, ⟨.number, ['1'], 5⟩,
      ⟨.number, ['2'], 7⟩] : List Token),
      ∀ q, t.position < q → q < t.position + t.text.size → blanks q = [] := by
    intro t ht q hlt hgt
    have hsize : t.text.size ≤ 3 ∧ (t.text.size = 1 ∨ t.position = 0) := by
      simp only [List.mem_cons, List.not_mem_nil, or_false] at ht
      rcases ht with rfl | rfl | rfl | rfl <;> decide
    have h0 : q ≠ 0 := by omega
    have h3 : ¬ (q = 3 ∨ q = 8) := by omega
    simp only [blanks, h0, h3, if_false]
  have hfailed : parse s = .error (.unclosedParen 4) := by decide +kernel
  have hread : parse " -\u20032 (.5 +\tans )".toList = .ok x := by decide +kernel
  obtain ⟨-, hspaced, -⟩ := (parse_spaced s).1 _ blanks hall hblanks hinside
  have hplace : s.shifted blanks 4 = 9 := by decide +kernel
  refine ⟨hfailed, ?_, hread, (parse_spaced _).2 x _ hread (Thins.filter _)⟩
  rw [hspaced, hfailed, ← hplace]
  rfl

end DeskCalculator
