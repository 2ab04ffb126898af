import DeskCalculator.Proofs.Derivation
import DeskCalculator.Proofs.Fronts

/-! Where two texts meet. Scanning cuts the first as if it stood alone, unless a numeral at its end
runs on into the second, so a text that is put together from others has the pieces of these one
after the other. What the parser makes of a text hangs on its pieces and not on where they stand.
-/
namespace DeskCalculator

variable {s g u rest : Text} {c : Char} {cs : Text} {k : TokenKind} {w : Lexeme}

namespace Numeral

theorem runsOn_append (hu : runsOn u = false) (hrest : runsOn rest = false) :
    runsOn (u ++ rest) = false := by
  cases u with
  | nil => exact hrest
  | cons c cs => exact hu

end Numeral

namespace Lexeme

theorem IsFront.runsOn_eq_false (h : IsFront s w) (hs : s = w.text ++ u)
    (hk : w.kind = some .number) : Numeral.runsOn u = false := by
  cases h with
  | symbol hc =>
    cases hk
    cases hc
  | ans => cases hk
  | number _ hrest =>
    rw [← List.append_cancel_left hs, Bool.eq_false_iff]
    exact mt Numeral.runsOn_iff.1 hrest
  | runsOn _ _ => cases hk
  | unknown _ _ _ => cases hk

theorem exists_front_text (c : Char) (cs : Text) : ∃ v, (front c cs).text = c :: v := by
  obtain ⟨d, v, hv⟩ := List.exists_cons_of_ne_nil (front_ne_nil c cs)
  obtain ⟨u, hu⟩ := front_prefix c cs
  rw [hv, List.cons_append, List.cons.injEq] at hu
  exact ⟨v, by rw [hv, hu.1]⟩

end Lexeme

theorem Item.lexeme_item? (w : Lexeme) (p : Nat) : Item.lexeme (Scan.item? w p) = w := by
  obtain ⟨kind, text⟩ := w
  cases kind <;> rfl

namespace Text

theorem skipBlank_append (hg : g.all isBlank = true) (s : Text) :
    skipBlank (g ++ s) = skipBlank s :=
  List.dropWhile_append_of_pos (by simpa using hg)

theorem gap_all (s : Text) : s.gap.all isBlank = true := List.all_takeWhile

/-- No numeral runs on into a text that begins as the text `s` does, or with nothing that it could
run on into. -/
theorem runsOn_gap_append (h : s.skipBlank = c :: cs) (hs : Numeral.runsOn s = false)
    (hu : (∃ v, u = c :: v) ∨ Numeral.runsOn u = false) : Numeral.runsOn (s.gap ++ u) = false := by
  have hgap := gap_append_skipBlank s
  rw [h] at hgap
  rw [← hgap] at hs
  cases hg : s.gap with
  | nil =>
    rw [hg] at hs
    rcases hu with ⟨v, rfl⟩ | hu
    · exact hs
    · exact hu
  | cons g gs =>
    rw [hg] at hs
    exact hs

theorem map_lexeme_all (p : Nat) (s : Text) : (Scan.all p s).map Item.lexeme = s.lexemes := by
  induction s using lexemes.induct generalizing p with
  | case1 s h => rw [Scan.all_of_none (Scan.first_of_nil p h), lexemes_of_nil h, List.map_nil]
  | case2 s c cs h ih =>
    rw [Scan.all_of_some (Scan.first_of_cons p h), lexemes_of_cons h, List.map_cons,
      Item.lexeme_item?, ih]

theorem exists_front_of_mem_lexemes (hw : w ∈ s.lexemes) : ∃ c cs, Lexeme.front c cs = w := by
  induction s using lexemes.induct with
  | case1 s h => simp [lexemes_of_nil h] at hw
  | case2 s c cs h ih =>
    rw [lexemes_of_cons h, List.mem_cons] at hw
    rcases hw with rfl | hw
    · exact ⟨c, cs, rfl⟩
    · exact ih hw

theorem isLexical_cons (hs : s.skipBlank = c :: cs) (h : s.IsLexical) :
    (∃ k, (Lexeme.front c cs).kind = some k) ∧
      IsLexical ((c :: cs).drop (Lexeme.front c cs).text.length) := by
  rw [IsLexical, lexemes_of_cons hs, List.forall_mem_cons] at h
  exact ⟨Option.ne_none_iff_exists'.1 h.1, h.2⟩

theorem isLexical_of_lexemes {ts : List Token} (h : s.lexemes = ts.map Token.lexeme) :
    s.IsLexical := by
  intro w hw
  rw [h] at hw
  obtain ⟨t, -, rfl⟩ := List.mem_map.1 hw
  exact Option.some_ne_none t.kind

end Text

namespace Scan

open Text (isBlank gap skipBlank IsLexical)

theorem all_gap_append (hg : g.all isBlank = true) (p : Nat) (s : Text) :
    all p (g ++ s) = all (p + g.size) s := by
  have hskip := Text.skipBlank_append hg s
  have hgap : gap (g ++ s) = g ++ gap s := List.takeWhile_append_of_pos (by simpa using hg)
  have hstart : p + (gap (g ++ s)).size = p + g.size + (gap s).size := by
    rw [hgap, Text.size_append, Nat.add_assoc]
  cases hs : s.skipBlank with
  | nil => rw [all_of_none (first_of_nil _ hs), all_of_none (first_of_nil _ (hskip.trans hs))]
  | cons c cs =>
    rw [all_of_some (first_of_cons _ hs), all_of_some (first_of_cons _ (hskip.trans hs)), hstart]

/-- A token is cut from the front again whatever comes after it, unless it is a numeral that runs on
into that. -/
theorem all_append_of_isFront (p : Nat) (h : Lexeme.IsFront s w) (hk : w.kind = some k)
    (hrest : w.kind = some .number → Numeral.runsOn rest = false) :
    all p (w.text ++ rest) = item? w p :: all (p + w.text.size) rest := by
  cases h with
  | symbol hc => exact all_symbol (TokenKind.ofSymbol?_eq_some_iff.2 hc)
  | ans => exact all_ans
  | number hv _ => exact all_numeral hv.isNumeral (hrest rfl)
  | runsOn _ _ => cases hk
  | unknown _ _ _ => cases hk

theorem all_of_isBlankLine (p : Nat) (hg : g.isBlankLine = true) : all p g = [] :=
  all_of_none (first_of_nil p ((Text.skipBlank_eq_nil_iff g).2 hg))

theorem all_piece (p : Nat) (hg : g.isBlankLine = true) (hk : w.kind = some k)
    (hw : Lexeme.IsFront (w.text ++ u) w) :
    all p (g ++ (w.text ++ u)) = item? w (p + g.size) :: all (p + g.size + w.text.size) u := by
  rw [all_gap_append hg, all_append_of_isFront _ hw hk (hw.runsOn_eq_false rfl)]

end Scan

namespace Text

/-- A text that is all tokens is nothing but white space, or it is a gap, a token and a text that is
all tokens. -/
@[elab_as_elim]
theorem IsLexical.induction {motive : (s : Text) → s.IsLexical → Prop}
    (blank : ∀ (g : Text) (h : g.IsLexical), g.isBlankLine = true → motive g h)
    (piece : ∀ (g u : Text) (w : Lexeme) (k : TokenKind) (h : IsLexical (g ++ (w.text ++ u))),
      g.isBlankLine = true → w.kind = some k → w.text ≠ [] → Lexeme.IsFront (w.text ++ u) w →
      ∀ hu : u.IsLexical, motive u hu → motive (g ++ (w.text ++ u)) h)
    (s : Text) (hs : s.IsLexical) : motive s hs := by
  induction s using lexemes.induct with
  | case1 s hskip => exact blank s hs ((skipBlank_eq_nil_iff s).1 hskip)
  | case2 s c cs hskip ih =>
    obtain ⟨⟨k, hk⟩, hu⟩ := isLexical_cons hskip hs
    have hcut := Lexeme.front_text_append_drop c cs
    have hfront := Lexeme.isFront_front c cs
    have hne := Lexeme.front_ne_nil c cs
    have hgap := gap_all s
    have hsplit : s = s.gap ++ ((Lexeme.front c cs).text ++
        (c :: cs).drop (Lexeme.front c cs).text.length) := by
      rw [hcut, ← hskip, gap_append_skipBlank]
    rw [← hcut] at hfront
    generalize (c :: cs).drop (Lexeme.front c cs).text.length = u at hu ih hsplit hfront
    generalize s.gap = g at hgap hsplit
    subst hsplit
    exact piece g u _ k hs hgap hk hne hfront hu (ih hu)

end Text

namespace Scan

/-- A text that is all tokens is cut as if it stood alone, whatever comes after it. -/
theorem all_append (hs : s.IsLexical) (hrest : Numeral.runsOn rest = false) (p : Nat) :
    all p (s ++ rest) = all p s ++ all (p + s.size) rest := by
  induction s, hs using Text.IsLexical.induction generalizing p with
  | blank g _ hg =>
    rw [all_of_isBlankLine p hg, List.nil_append]
    exact all_gap_append hg p rest
  | piece g u w k _ hg hk _ hw hu ih =>
    have hnumber (hn : w.kind = some .number) : Numeral.runsOn (u ++ rest) = false :=
      Numeral.runsOn_append (hw.runsOn_eq_false rfl hn) hrest
    have hsize : p + g.size + w.text.size + Text.size u =
        p + Text.size (g ++ (w.text ++ u)) := by simp [Nat.add_assoc]
    calc all p (g ++ (w.text ++ u) ++ rest)
        = all p (g ++ (w.text ++ (u ++ rest))) := by simp only [List.append_assoc]
      _ = item? w (p + g.size) :: all (p + g.size + w.text.size) (u ++ rest) := by
          rw [all_gap_append hg, all_append_of_isFront _ hw hk hnumber]
      _ = all p (g ++ (w.text ++ u)) ++ all (p + Text.size (g ++ (w.text ++ u))) rest := by
          rw [ih, all_piece p hg hk hw, List.cons_append, hsize]

end Scan

namespace Text

/-! The same of the pieces, which stand nowhere. -/

theorem lexemes_gap_append (hg : g.all isBlank = true) (s : Text) :
    lexemes (g ++ s) = lexemes s := by
  rw [← map_lexeme_all 0, Scan.all_gap_append hg, map_lexeme_all]

theorem lexemes_append_of_isFront (h : Lexeme.IsFront s w) (hk : w.kind = some k)
    (hrest : w.kind = some .number → Numeral.runsOn rest = false) :
    lexemes (w.text ++ rest) = w :: lexemes rest := by
  rw [← map_lexeme_all 0, Scan.all_append_of_isFront 0 h hk hrest, List.map_cons,
    Item.lexeme_item?, map_lexeme_all]

theorem lexemes_of_isBlankLine (hg : g.isBlankLine = true) : lexemes g = [] :=
  lexemes_of_nil ((skipBlank_eq_nil_iff g).2 hg)

theorem lexemes_piece (hg : g.isBlankLine = true) (hk : w.kind = some k)
    (hw : Lexeme.IsFront (w.text ++ u) w) :
    lexemes (g ++ (w.text ++ u)) = w :: lexemes u := by
  rw [lexemes_gap_append hg, lexemes_append_of_isFront hw hk (hw.runsOn_eq_false rfl)]

theorem lexemes_symbol (hc : k.IsSymbol c) (rest : Text) :
    lexemes (c :: rest) = ⟨some k, [c]⟩ :: lexemes rest := by
  have hfront : Lexeme.IsFront [c] ⟨some k, [c]⟩ := .symbol hc
  refine lexemes_append_of_isFront hfront rfl fun hk => ?_
  cases hk
  cases hc

theorem lexemes_append (hs : s.IsLexical) (hrest : Numeral.runsOn rest = false) :
    lexemes (s ++ rest) = lexemes s ++ lexemes rest := by
  rw [← map_lexeme_all 0, Scan.all_append hs hrest, List.map_append, map_lexeme_all,
    map_lexeme_all]

end Text

namespace Token

variable {t : Token} {ts us ls rs : List Token}

theorem exists_cons_of_lexemes (h : us.map lexeme = (t :: ts).map lexeme) :
    ∃ t' us', us = t' :: us' ∧ t'.kind = t.kind ∧ t'.text = t.text ∧
      us'.map lexeme = ts.map lexeme := by
  obtain ⟨t', us', rfl, ht, hus⟩ := List.map_eq_cons_iff.1 h
  simp only [lexeme, Lexeme.mk.injEq, Option.some.injEq] at ht
  exact ⟨t', us', rfl, ht.1, ht.2, hus⟩

theorem exists_append_of_lexemes (h : us.map lexeme = (ls ++ rs).map lexeme) :
    ∃ ls' rs', us = ls' ++ rs' ∧ ls'.map lexeme = ls.map lexeme ∧
      rs'.map lexeme = rs.map lexeme := by
  rw [List.map_append] at h
  exact List.map_eq_append_iff.1 h

theorem exists_singleton_of_lexemes (h : us.map lexeme = [t].map lexeme) :
    ∃ t', us = [t'] ∧ t'.kind = t.kind ∧ t'.text = t.text := by
  obtain ⟨t', us', rfl, hkind, htext, hus⟩ := exists_cons_of_lexemes h
  rw [List.map_nil, List.map_eq_nil_iff] at hus
  exact ⟨t', by rw [hus], hkind, htext⟩

theorem exists_group_of_lexemes {o c : Token}
    (h : us.map lexeme = (o :: (ts ++ [c])).map lexeme) :
    ∃ o' ts' c', us = o' :: (ts' ++ [c']) ∧ o'.kind = o.kind ∧ c'.kind = c.kind ∧
      ts'.map lexeme = ts.map lexeme := by
  obtain ⟨o', us', rfl, ho, -, hus⟩ := exists_cons_of_lexemes h
  obtain ⟨ts', cs, rfl, hts, hcs⟩ := exists_append_of_lexemes hus
  obtain ⟨c', rfl, hc, -⟩ := exists_singleton_of_lexemes hcs
  exact ⟨o', ts', c', rfl, ho, hc, hts⟩

end Token

theorem Item.exists_tokens {is : List Item} {ts : List Token}
    (h : is.map Item.lexeme = ts.map Token.lexeme) :
    ∃ us : List Token, is = us.map .ok ∧ us.map Token.lexeme = ts.map Token.lexeme := by
  induction is generalizing ts with
  | nil => exact ⟨[], rfl, h⟩
  | cons i is ih =>
    obtain ⟨t, ts', rfl, ht, hts⟩ := List.map_eq_cons_iff.1 h.symm
    obtain ⟨us, rfl, hus⟩ := ih hts.symm
    cases i with
    | error e => cases ht
    | ok t' =>
      have hhead : t'.lexeme = t.lexeme := ht.symm
      exact ⟨t' :: us, rfl, by rw [List.map_cons, List.map_cons, hus, hhead]⟩

/-- Positions play no part in what tokens derive. -/
theorem Derives.of_lexemes {p : Part} {ts us : List Token} {x : Expr} {n : Nat}
    (h : Derives p ts x n) (hus : us.map Token.lexeme = ts.map Token.lexeme) :
    Derives p us x n := by
  induction h generalizing us with
  | operand _ ih => exact .operand (ih hus)
  | join _ ho ht _ ihl ihr =>
    obtain ⟨ls, us', rfl, hls, hus'⟩ := Token.exists_append_of_lexemes hus
    obtain ⟨t', rs, rfl, hkind, -, hrs⟩ := Token.exists_cons_of_lexemes hus'
    rw [← hkind] at ho
    exact .join (ihl hls) ho ht (ihr hrs)
  | unsigned _ ih => exact .unsigned (ih hus)
  | sign hs _ ih =>
    obtain ⟨t', us', rfl, hkind, -, hus'⟩ := Token.exists_cons_of_lexemes hus
    rw [← hkind] at hs
    exact .sign hs (ih hus')
  | number hk =>
    obtain ⟨t', rfl, hkind, htext⟩ := Token.exists_singleton_of_lexemes hus
    rw [← htext]
    exact .number (hkind.trans hk)
  | ans hk =>
    obtain ⟨t', rfl, hkind, -⟩ := Token.exists_singleton_of_lexemes hus
    exact .ans (hkind.trans hk)
  | group ho _ hc ih =>
    obtain ⟨o', ts', c', rfl, hopen, hclose, hts⟩ := Token.exists_group_of_lexemes hus
    exact .group (hopen.trans ho) (ih hts) (hclose.trans hc)
  | juxtaposed _ ho _ hc ihl ihr =>
    obtain ⟨ls, us', rfl, hls, hus'⟩ := Token.exists_append_of_lexemes hus
    obtain ⟨o', ts', c', rfl, hopen, hclose, hts⟩ := Token.exists_group_of_lexemes hus'
    exact .juxtaposed (ihl hls) (hopen.trans ho) (ihr hts) (hclose.trans hc)

/-- What is read of a text is what tokens with the same pieces derive. -/
theorem Parser.run_eq_ok_iff_lexemes {limit : Limit} (hleaf : limit.allows 1 = true) {s : Text}
    {x : Expr} :
    (run limit s).1 = .ok x ↔ ∃ ts n, s.lexemes = ts.map Token.lexeme ∧
      Derives (.chain .sum) ts x n ∧ limit.allows n = true ∧ limit.allows x.height = true := by
  rw [run_eq_ok_iff_derives hleaf]
  constructor
  · rintro ⟨ts, n, hs, h⟩
    refine ⟨ts, n, ?_, h⟩
    rw [← Text.map_lexeme_all 0 s, hs, List.map_map]
    rfl
  · rintro ⟨ts, n, hs, hx, h⟩
    obtain ⟨us, hall, hus⟩ := Item.exists_tokens ((Text.map_lexeme_all 0 s).trans hs)
    exact ⟨us, n, hall, hx.of_lexemes hus, h⟩

end DeskCalculator
