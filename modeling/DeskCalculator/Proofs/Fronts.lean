import DeskCalculator.Proofs.Scanning
import DeskCalculator.Token.Answers
import Mathlib.Logic.ExistsUnique

/-! A lexer with nothing put back answers what stands at the front of its text once white space is
skipped. A numeral is cut in parts, the mantissa before the exponent; that no numeral is longer than
the parts together is shown part by part, since an exponent can only follow a whole mantissa. -/
namespace DeskCalculator

theorem IsNumeral.ne_nil {w : Text} (hw : IsNumeral w) : w ≠ [] := by
  obtain ⟨c, cs, rfl, -⟩ := Numeral.head_of_isNumeral hw
  simp

namespace Numeral

variable {m e v w s rest : Text}

theorem length_takeDigits_le_mantissa (s : Text) :
    (takeDigits s).length ≤ (mantissa s).length := by
  unfold mantissa
  split
  · split
    · rename_i h
      simp [h.1]
    · simp
  · exact Nat.le_refl _

theorem length_le_mantissa (hm : IsMantissa m) (rest : Text) :
    m.length ≤ (mantissa (m ++ rest)).length := by
  have hstop : ∀ s, takeDigits ('.' :: s) = [] := fun _ => rfl
  cases hm with
  | @fraction whole part hw hp hne =>
    have htake := takeDigits_append hw (hstop (part ++ rest))
    have hdrop := dropDigits_append hw (hstop (part ++ rest))
    have hpart := takeDigits_append_left hp rest
    simp [mantissa, htake, hdrop, hpart, hne]
  | whole hds _ =>
    have htake := takeDigits_append_left hds rest
    have hle := length_takeDigits_le_mantissa (m ++ rest)
    rw [htake, List.length_append] at hle
    omega
  | @pointed digits hds hne =>
    have htake := takeDigits_append hds (hstop rest)
    have hdrop := dropDigits_append hds (hstop rest)
    simp [mantissa, htake, hdrop, hne]

theorem mantissa_append_of_ne_nil (hm : IsMantissa m) (he : IsExponent e) (hne : e ≠ [])
    (rest : Text) : mantissa (m ++ (e ++ rest)) = m := by
  cases he with
  | none => exact absurd rfl hne
  | lower _ _ _ | upper _ _ _ => exact mantissa_append hm rfl (by simp)

theorem length_le_exponent (he : IsExponent e) (rest : Text) :
    e.length ≤ (exponent (e ++ rest)).length := by
  cases he with
  | none => exact Nat.zero_le _
  | lower hsign hds hne | upper hsign hds hne =>
    have hs : takeSign (_ ++ (_ ++ rest)) = _ := takeSign_append hsign hds hne
    have htake := takeDigits_append_left hds rest
    simp [exponent, hs, htake, hne]

/-- The numeral that is cut is no shorter than one that stands there. -/
theorem length_le_longest (hv : IsNumeral v) (rest : Text) :
    v.length ≤ (longest (v ++ rest)).length := by
  obtain @⟨m, e, hm, he⟩ := hv
  rw [List.append_assoc]
  have hlength := length_le_mantissa hm (e ++ rest)
  have hcut : mantissa (m ++ (e ++ rest)) ≠ [] := by
    have hpos := List.length_pos_iff.2 hm.ne_nil
    exact List.length_pos_iff.1 (Nat.lt_of_lt_of_le hpos hlength)
  simp only [longest, hcut, if_false, List.length_append]
  by_cases hne : e = []
  · rw [hne, List.nil_append] at hlength ⊢
    rw [List.length_nil]
    omega
  · have hexponent := length_le_exponent he rest
    rw [mantissa_append_of_ne_nil hm he hne rest, List.drop_left]
    omega

theorem isLongest_longest (h : longest s ≠ []) : IsLongest (longest s) s where
  isNumeral := isNumeral_longest h
  front := longest_prefix s
  length_le := by
    rintro v hv ⟨rest, rfl⟩
    exact length_le_longest hv rest

theorem longest_eq_of_isLongest (h : IsLongest w s) : longest s = w := by
  obtain ⟨rest, rfl⟩ := h.front
  have hlength := length_le_longest h.isNumeral rest
  have hne : longest (w ++ rest) ≠ [] := by
    have hpos := List.length_pos_iff.2 h.isNumeral.ne_nil
    exact List.length_pos_iff.1 (Nat.lt_of_lt_of_le hpos hlength)
  have hcut := isLongest_longest hne
  have hle := h.length_le _ hcut.isNumeral hcut.front
  exact (List.prefix_of_prefix_length_le hcut.front h.front hle).eq_of_length_le hlength

theorem longest_eq_nil_iff : longest s = [] ↔ ∀ v, IsNumeral v → ¬ v <+: s := by
  constructor
  · rintro h v hv ⟨rest, rfl⟩
    have hlength := length_le_longest hv rest
    rw [h, List.length_nil, Nat.le_zero, List.length_eq_zero_iff] at hlength
    exact hv.ne_nil hlength
  · intro h
    by_cases hne : longest s = []
    · exact hne
    · have hprefix := longest_prefix s
      exact absurd hprefix (h _ (isNumeral_longest hne))

theorem runsOn_iff : runsOn s = true ↔ Continues s := by
  constructor
  · intro h
    cases s with
    | nil => cases h
    | cons c cs =>
      simp only [runsOn, Bool.or_eq_true, beq_iff_eq] at h
      rcases h with ((rfl | rfl) | rfl) | h
      · exact .point
      · exact .lower
      · exact .upper
      · exact .digit h
  · intro h
    cases h with
    | point => rfl
    | lower => rfl
    | upper => rfl
    | digit h => simp [runsOn, h]

end Numeral

theorem TokenKind.ofSymbol?_eq_some_iff {c : Char} {k : TokenKind} :
    ofSymbol? c = some k ↔ k.IsSymbol c := by
  constructor
  · intro h
    unfold ofSymbol? at h
    split at h <;> cases h <;> constructor
  · intro h
    cases h <;> rfl

namespace Lexeme

variable {c : Char} {cs : Text} {w : Lexeme}

theorem front_text_append_drop (c : Char) (cs : Text) :
    (front c cs).text ++ (c :: cs).drop (front c cs).text.length = c :: cs := by
  have hprefix := front_prefix c cs
  exact List.prefix_iff_eq_append.1 hprefix

theorem isFront_front (c : Char) (cs : Text) : IsFront (c :: cs) (front c cs) := by
  unfold front
  split
  · rename_i k hk
    exact .symbol (TokenKind.ofSymbol?_eq_some_iff.1 hk)
  · rename_i hsymbol
    split
    · rename_i hword
      obtain ⟨rest, hrest⟩ := List.isPrefixOf_iff_prefix.1 hword
      rw [← hrest]
      exact .ans
    · rename_i hword
      dsimp only
      split
      · rename_i hnil
        refine .unknown (fun k hk => ?_) (mt List.isPrefixOf_iff_prefix.2 hword)
          (Numeral.longest_eq_nil_iff.1 hnil)
        simp [TokenKind.ofSymbol?_eq_some_iff.2 hk] at hsymbol
      · rename_i hne
        have hlongest := Numeral.isLongest_longest hne
        obtain ⟨rest, hrest⟩ := hlongest.front
        have hdrop : (c :: cs).drop (Numeral.longest (c :: cs)).length = rest := by
          conv => lhs; arg 2; rw [← hrest]
          simp
        rw [hdrop]
        generalize Numeral.longest (c :: cs) = v at hlongest hrest
        rw [← hrest] at hlongest ⊢
        split
        · rename_i hruns
          exact .runsOn hlongest (Numeral.runsOn_iff.1 hruns)
        · rename_i hruns
          exact .number hlongest (mt Numeral.runsOn_iff.2 hruns)

theorem front_of_isLongest {v rest : Text} (h : Numeral.IsLongest v (v ++ rest))
    (hcons : v ++ rest = c :: cs) :
    front c cs = ⟨if Numeral.runsOn rest then none else some .number, v⟩ := by
  have hlongest := Numeral.longest_eq_of_isLongest h
  obtain ⟨d, ds, rfl, hd⟩ := Numeral.head_of_isNumeral h.isNumeral
  obtain ⟨rfl, rfl⟩ := List.cons.inj hcons
  rw [List.cons_append] at hlongest
  simp [front_of_digits hd, hlongest]

theorem IsFront.ne_nil {s : Text} (h : IsFront s w) : s ≠ [] := by
  cases h with
  | symbol _ => simp
  | ans => simp [answerWord]
  | number hv _ => simp [hv.isNumeral.ne_nil]
  | runsOn hv _ => simp [hv.isNumeral.ne_nil]
  | unknown _ _ _ => simp

theorem isFront_iff : IsFront (c :: cs) w ↔ front c cs = w := by
  constructor
  · intro h
    generalize hs : c :: cs = s at h
    cases h with
    | symbol hk =>
      obtain ⟨rfl, rfl⟩ := List.cons.inj hs
      exact front_symbol (TokenKind.ofSymbol?_eq_some_iff.2 hk) cs
    | ans =>
      obtain ⟨rfl, rfl⟩ := List.cons.inj hs
      exact front_ans _
    | number hv hrest =>
      rw [front_of_isLongest hv hs.symm, if_neg (mt Numeral.runsOn_iff.1 hrest)]
    | runsOn hv hrest =>
      rw [front_of_isLongest hv hs.symm, if_pos (Numeral.runsOn_iff.2 hrest)]
    | unknown hsymbol hword hnumeral =>
      obtain ⟨rfl, rfl⟩ := List.cons.inj hs
      have hnone : TokenKind.ofSymbol? c = none :=
        Option.eq_none_iff_forall_ne_some.2 fun k hk =>
          hsymbol k (TokenKind.ofSymbol?_eq_some_iff.1 hk)
      have hnil := Numeral.longest_eq_nil_iff.2 hnumeral
      simp [front, hnone, List.isPrefixOf_iff_prefix, hword, hnil]
  · rintro rfl
    exact isFront_front c cs

end Lexeme

namespace Lexer

variable {l : Lexer} {c : Char} {cs : Text}

theorem next_of_skipBlank_nil (hp : l.pending = []) (hs : l.rest.skipBlank = []) :
    l.next = .finished :=
  next_of_none hp (Scan.first_of_nil l.position hs)

theorem next_of_skipBlank_cons (hp : l.pending = []) (hs : l.rest.skipBlank = c :: cs) :
    ∃ m : Lexer, l.next = .ofLexeme (Lexeme.front c cs) (l.position + l.rest.gap.size) m ∧
      m.source = l.source ∧ m.pending = [] ∧
      m.position = l.position + l.rest.gap.size + (Lexeme.front c cs).text.size ∧
      c :: cs = (Lexeme.front c cs).text ++ m.rest := by
  obtain ⟨m, hnext, hsource, hpending, hposition, hrest⟩ :=
    next_of_some hp (Scan.first_of_cons l.position hs)
  have hcut := Lexeme.front_text_append_drop c cs
  refine ⟨m, ?_, hsource, hpending, hposition, ?_⟩
  · rw [hnext]
    cases hk : (Lexeme.front c cs).kind <;> simp [Scan.item?, Answer.ofLexeme, hk]
  · rw [hrest]
    exact hcut.symm

/-- With nothing put back, the next answer is the one piece that stands at the front of what is left
once white space is skipped, at the position where that begins, and scanning goes on right after the
piece. The end is reached when nothing is left. -/
theorem next_eq_ofLexeme (h : l.pending = []) :
    ∃ passed, l.source = passed ++ l.rest.skipBlank ∧
      (l.rest.skipBlank = [] → l.next = .finished) ∧
      (l.rest.skipBlank ≠ [] → ∃! w, Lexeme.IsFront l.rest.skipBlank w) ∧
      ∀ w, Lexeme.IsFront l.rest.skipBlank w → ∃ m : Lexer,
        l.next = .ofLexeme w passed.size m ∧ m.source = l.source ∧ m.pending = [] ∧
        m.position = passed.size + w.text.size ∧ l.rest.skipBlank = w.text ++ m.rest := by
  obtain ⟨before, hsource, hposition⟩ := l.split
  have hpassed : l.source = before ++ l.rest.gap ++ l.rest.skipBlank := by
    rw [List.append_assoc, Text.gap_append_skipBlank, hsource]
  have hsize : (before ++ l.rest.gap).size = l.position + l.rest.gap.size := by
    rw [Text.size_append, hposition]
  refine ⟨before ++ l.rest.gap, hpassed, next_of_skipBlank_nil h, fun hne => ?_, fun w hw => ?_⟩
  · obtain ⟨c, cs, hcons⟩ := List.exists_cons_of_ne_nil hne
    rw [hcons]
    exact ⟨_, Lexeme.isFront_front c cs, fun v hv => (Lexeme.isFront_iff.1 hv).symm⟩
  · obtain ⟨c, cs, hcons⟩ := List.exists_cons_of_ne_nil hw.ne_nil
    rw [hcons] at hw ⊢
    obtain rfl := Lexeme.isFront_iff.1 hw
    rw [hsize]
    exact next_of_skipBlank_cons h hcons

/-- In ` 4e+` the mark has no digits after it, so the numeral is only `4`, and it runs on. -/
theorem next_eq_ofLexeme_runsOn : (ofText " 4e+".toList).pending = [] ∧
    Lexeme.IsFront "4e+".toList ⟨none, ['4']⟩ ∧
    ∃ m : Lexer, (ofText " 4e+".toList).next = .error ⟨['4'], 1⟩ m ∧ m.position = 2 ∧
      m.rest = "e+".toList := by
  have hpending : (ofText " 4e+".toList).pending = [] := rfl
  have hfront : Lexeme.IsFront "4e+".toList ⟨none, ['4']⟩ := Lexeme.isFront_iff.2 (by decide)
  obtain ⟨passed, hpassed, -, -, hnext⟩ := next_eq_ofLexeme hpending
  obtain ⟨m, hm, -, -, hposition, hrest⟩ := hnext _ hfront
  have hspace : [' '] ++ "4e+".toList = passed ++ "4e+".toList := hpassed
  obtain rfl := List.append_cancel_right hspace
  have hmark : ['4'] ++ "e+".toList = ['4'] ++ m.rest := hrest
  exact ⟨hpending, hfront, m, hm, hposition, (List.append_cancel_left hmark).symm⟩

end Lexer
end DeskCalculator
