import DeskCalculator.Token.Scan

/-! What scanning cuts from the front of a text when it is known what stands there: a symbol, the
word for the last answer, or a numeral with nothing after it that it could run on to. -/
namespace DeskCalculator
namespace Numeral

variable {ds sign m e w rest : Text}

theorem takeDigits_append_left (hds : ds.all Char.isDigit) (rest : Text) :
    takeDigits (ds ++ rest) = ds ++ takeDigits rest :=
  List.takeWhile_append_of_pos (by simpa using hds)

theorem takeDigits_append (hds : ds.all Char.isDigit) (hrest : takeDigits rest = []) :
    takeDigits (ds ++ rest) = ds := by
  simpa [hrest] using takeDigits_append_left hds rest

theorem dropDigits_append (hds : ds.all Char.isDigit) (hrest : takeDigits rest = []) :
    dropDigits (ds ++ rest) = rest := by
  have hsplit := takeDigits_append_dropDigits (ds ++ rest)
  rw [takeDigits_append hds hrest] at hsplit
  exact List.append_cancel_left hsplit

theorem takeDigits_of_runsOn (h : runsOn rest = false) : takeDigits rest = [] := by
  cases rest with
  | nil => rfl
  | cons c cs =>
    have hc : c.isDigit = false := by simp_all [runsOn]
    simp [takeDigits, hc]

theorem ne_point_of_runsOn (h : runsOn rest = false) (r : Text) : rest ≠ '.' :: r := by
  rintro rfl
  simp [runsOn] at h

theorem mantissa_append (hm : IsMantissa m) (hrest : takeDigits rest = [])
    (hpoint : ∀ r, rest ≠ '.' :: r) : mantissa (m ++ rest) = m := by
  have hstop : ∀ s, takeDigits ('.' :: s) = [] := fun _ => rfl
  cases hm with
  | @fraction whole part hw hp hne =>
    have htake := takeDigits_append hw (hstop (part ++ rest))
    have hdrop := dropDigits_append hw (hstop (part ++ rest))
    have hpart := takeDigits_append hp hrest
    simp [mantissa, htake, hdrop, hpart, hne]
  | whole hds hne =>
    have htake := takeDigits_append hds hrest
    have hdrop := dropDigits_append hds hrest
    unfold mantissa
    rw [hdrop, htake]
    split
    · rename_i r
      exact absurd rfl (hpoint r)
    · rfl
  | @pointed digits hds hne =>
    have htake := takeDigits_append hds (hstop rest)
    have hdrop := dropDigits_append hds (hstop rest)
    simp [mantissa, htake, hdrop, hrest, hne]

theorem takeSign_append (hsign : IsSign sign) (hds : ds.all Char.isDigit) (hne : ds ≠ []) :
    takeSign (sign ++ (ds ++ rest)) = sign := by
  cases hsign with
  | none =>
    cases ds with
    | nil => exact absurd rfl hne
    | cons d ds =>
      have hd : d.isDigit = true := by simp_all
      have hplus : d ≠ '+' := by
        rintro rfl
        exact absurd hd (by decide)
      have hminus : d ≠ '-' := by
        rintro rfl
        exact absurd hd (by decide)
      simp [takeSign, hplus, hminus]
  | plus => rfl
  | minus => rfl

theorem exponent_append (he : IsExponent e) (hrest : runsOn rest = false) :
    exponent (e ++ rest) = e := by
  have hdigits := takeDigits_of_runsOn hrest
  cases he with
  | none =>
    cases rest with
    | nil => rfl
    | cons c cs =>
      have hc : ¬ (c = 'e' ∨ c = 'E') := by
        rintro (rfl | rfl) <;> simp [runsOn] at hrest
      simp [exponent, hc]
  | lower hsign hds hne =>
    have hs : takeSign (_ ++ (_ ++ rest)) = _ := takeSign_append hsign hds hne
    have htake := takeDigits_append hds hdigits
    simp [exponent, hs, htake, hne]
  | upper hsign hds hne =>
    have hs : takeSign (_ ++ (_ ++ rest)) = _ := takeSign_append hsign hds hne
    have htake := takeDigits_append hds hdigits
    simp [exponent, hs, htake, hne]

/-- No digits and no point stand where an exponent begins. -/
theorem mantissa_append_exponent (hm : IsMantissa m) (he : IsExponent e)
    (hrest : runsOn rest = false) : mantissa (m ++ (e ++ rest)) = m := by
  cases he with
  | none => exact mantissa_append hm (takeDigits_of_runsOn hrest) (ne_point_of_runsOn hrest)
  | lower _ _ _ => exact mantissa_append hm rfl (by simp)
  | upper _ _ _ => exact mantissa_append hm rfl (by simp)

theorem IsMantissa.ne_nil (hm : IsMantissa m) : m ≠ [] := by
  cases hm with
  | fraction _ _ _ => simp
  | whole _ hne => exact hne
  | pointed _ _ => simp

/-- A numeral is cut from the front of a text as a whole, unless the text runs on after it. -/
theorem longest_append (hw : IsNumeral w) (hrest : runsOn rest = false) :
    longest (w ++ rest) = w := by
  obtain ⟨hm, he⟩ := hw
  have hmantissa := mantissa_append_exponent hm he hrest
  have hexponent := exponent_append he hrest
  simp [longest, hmantissa, hexponent, hm.ne_nil]

theorem head_of_isMantissa (hm : IsMantissa m) :
    ∃ c cs, m = c :: cs ∧ (c.isDigit = true ∨ c = '.') := by
  cases hm with
  | @fraction ds part hds _ _ =>
    cases ds with
    | nil => exact ⟨'.', part, rfl, .inr rfl⟩
    | cons d ds =>
      have hd : d.isDigit = true := by simp_all
      exact ⟨d, ds ++ '.' :: part, rfl, .inl hd⟩
  | whole hds hne =>
    cases m with
    | nil => exact absurd rfl hne
    | cons d ds =>
      have hd : d.isDigit = true := by simp_all
      exact ⟨d, ds, rfl, .inl hd⟩
  | @pointed ds hds hne =>
    cases ds with
    | nil => exact absurd rfl hne
    | cons d ds =>
      have hd : d.isDigit = true := by simp_all
      exact ⟨d, ds ++ ['.'], rfl, .inl hd⟩

theorem head_of_isNumeral (hw : IsNumeral w) :
    ∃ c cs, w = c :: cs ∧ (c.isDigit = true ∨ c = '.') := by
  obtain ⟨hm, -⟩ := hw
  obtain ⟨c, cs, rfl, hc⟩ := head_of_isMantissa hm
  exact ⟨c, _, rfl, hc⟩

end Numeral

namespace Lexeme

variable {c : Char} {cs rest : Text} {k : TokenKind}

theorem front_symbol (h : TokenKind.ofSymbol? c = some k) (cs : Text) :
    front c cs = ⟨some k, [c]⟩ := by
  simp [front, h]

theorem front_ans (rest : Text) : front 'a' ('n' :: 's' :: rest) = ⟨some .ans, answerWord⟩ := by
  have hprefix : answerWord.isPrefixOf ('a' :: 'n' :: 's' :: rest) = true := by
    simp [answerWord, List.isPrefixOf]
  simp [front, TokenKind.ofSymbol?, hprefix]

/-- A piece that is neither a symbol nor the word for the last answer is cut as a numeral is. -/
theorem front_of_digits (hc : c.isDigit = true ∨ c = '.') (cs : Text) :
    front c cs = if Numeral.longest (c :: cs) = [] then ⟨none, [c]⟩
      else ⟨if Numeral.runsOn ((c :: cs).drop (Numeral.longest (c :: cs)).length) then none
        else some .number, Numeral.longest (c :: cs)⟩ := by
  have hsymbol : TokenKind.ofSymbol? c = none := by
    unfold TokenKind.ofSymbol?
    split <;> first | rfl | exact absurd hc (by decide)
  have hword : answerWord.isPrefixOf (c :: cs) = false := by
    have hne : ('a' == c) = false := by
      rw [beq_eq_false_iff_ne]
      rintro rfl
      exact absurd hc (by decide)
    simp [answerWord, List.isPrefixOf, hne]
  simp [front, hsymbol, hword]

theorem front_numeral (hw : IsNumeral (c :: cs)) (hrest : Numeral.runsOn rest = false) :
    front c (cs ++ rest) = ⟨some .number, c :: cs⟩ := by
  have hlongest : Numeral.longest (c :: (cs ++ rest)) = c :: cs :=
    Numeral.longest_append hw hrest
  obtain ⟨d, ds, hcons, hd⟩ := Numeral.head_of_isNumeral hw
  obtain ⟨rfl, rfl⟩ := List.cons.inj hcons
  simp [front_of_digits hd, hlongest, hrest]

theorem isNumeral_of_front (h : (front c cs).kind = some .number) :
    IsNumeral (front c cs).text := by
  revert h
  unfold front
  split
  · rename_i hk
    rintro ⟨⟩
    unfold TokenKind.ofSymbol? at hk
    split at hk <;> cases hk
  · split
    · nofun
    · simp only
      split
      · nofun
      · rename_i hne
        intro _
        exact Numeral.isNumeral_longest hne

end Lexeme

namespace Scan

variable {p : Nat} {c : Char} {cs w rest : Text} {k : TokenKind} {t : Token}

theorem all_cons (hc : Text.isBlank c = false) :
    all p (c :: cs) = item? (Lexeme.front c cs) p ::
      all (p + Text.size (Lexeme.front c cs).text)
        ((c :: cs).drop (Lexeme.front c cs).text.length) := by
  have hskip : Text.skipBlank (c :: cs) = c :: cs := by simp [Text.skipBlank, hc]
  have hgap : Text.gap (c :: cs) = [] := by simp [Text.gap, hc]
  have hfirst := first_of_cons p hskip
  simpa [hgap] using all_of_some hfirst

theorem all_symbol (h : TokenKind.ofSymbol? c = some k) :
    all p (c :: rest) = .ok ⟨k, [c], p⟩ :: all (p + Text.size [c]) rest := by
  have hblank : Text.isBlank c = false := by
    unfold TokenKind.ofSymbol? at h
    split at h <;> first | rfl | cases h
  rw [all_cons hblank, Lexeme.front_symbol h]
  simp [item?]

theorem all_ans : all p (Lexeme.answerWord ++ rest) =
    .ok ⟨.ans, Lexeme.answerWord, p⟩ :: all (p + Text.size Lexeme.answerWord) rest := by
  have h : all p ('a' :: 'n' :: 's' :: rest) = _ := all_cons rfl
  rw [Lexeme.front_ans] at h
  exact h

theorem all_numeral (hw : IsNumeral w) (hrest : Numeral.runsOn rest = false) :
    all p (w ++ rest) = .ok ⟨.number, w, p⟩ :: all (p + Text.size w) rest := by
  obtain ⟨c, cs, rfl, hc⟩ := Numeral.head_of_isNumeral hw
  have hblank : Text.isBlank c = false := by
    rcases hc with hc | rfl
    · exact Text.isBlank_eq_false_of_isDigit hc
    · rfl
  rw [List.cons_append, all_cons hblank, Lexeme.front_numeral hw hrest]
  simp [item?]

theorem of_item?_eq_ok {x : Lexeme} (h : item? x p = .ok t) :
    x.kind = some t.kind ∧ x.text = t.text := by
  cases hx : x.kind with
  | none => simp [item?, hx] at h
  | some k =>
    simp only [item?, hx, Except.ok.injEq] at h
    simp [← h]

theorem isNumeral_of_mem_all {s : Text} (h : .ok t ∈ all p s) (hk : t.kind = .number) :
    IsNumeral t.text := by
  induction p, s using all.induct with
  | case1 p s hnone => simp [all_of_none hnone] at h
  | case2 p s x hsome ih =>
    rw [all_of_some hsome, List.mem_cons] at h
    rcases h with h | h
    · unfold first at hsome
      split at hsome
      · cases hsome
      · rename_i c cs hs
        cases hsome
        obtain ⟨hkind, htext⟩ := of_item?_eq_ok h.symm
        rw [hk] at hkind
        rw [← htext]
        exact Lexeme.isNumeral_of_front hkind
    · exact ih h

end Scan
end DeskCalculator
