import DeskCalculator.Text.Basic

/-! Numerals: digits with at most one point, where a digit stands before or after the point, and
then perhaps an exponent. A numeral is cut from the front of a text as far as it goes. -/
namespace DeskCalculator
namespace Numeral

def takeDigits (s : Text) : Text := s.takeWhile Char.isDigit

def dropDigits (s : Text) : Text := s.dropWhile Char.isDigit

@[simp] theorem takeDigits_append_dropDigits (s : Text) : takeDigits s ++ dropDigits s = s :=
  List.takeWhile_append_dropWhile

/-- The part of the numeral before the exponent, empty if no numeral begins the text. -/
def mantissa (s : Text) : Text :=
  match dropDigits s with
  | '.' :: r =>
    if takeDigits s = [] ∧ takeDigits r = [] then [] else takeDigits s ++ '.' :: takeDigits r
  | _ => takeDigits s

theorem mantissa_prefix (s : Text) : mantissa s <+: s := by
  have hs := takeDigits_append_dropDigits s
  unfold mantissa
  split
  · rename_i r hr
    split
    · exact List.nil_prefix
    · refine ⟨dropDigits r, ?_⟩
      rw [List.append_assoc, List.cons_append, takeDigits_append_dropDigits, ← hr, hs]
  · exact ⟨_, hs⟩

def takeSign : Text → Text
  | [] => []
  | c :: _ => if c = '+' ∨ c = '-' then [c] else []

theorem takeSign_prefix (s : Text) : takeSign s <+: s := by
  cases s with
  | nil => exact List.nil_prefix
  | cons c cs =>
    simp only [takeSign]
    split
    · exact ⟨cs, rfl⟩
    · exact List.nil_prefix

/-- A mark without digits after it is no exponent. -/
def exponent : Text → Text
  | [] => []
  | c :: r =>
    let digits := takeDigits (r.drop (takeSign r).length)
    if (c = 'e' ∨ c = 'E') ∧ digits ≠ [] then c :: (takeSign r ++ digits) else []

theorem exponent_prefix (s : Text) : exponent s <+: s := by
  cases s with
  | nil => exact List.nil_prefix
  | cons c r =>
    simp only [exponent]
    split
    · obtain ⟨t, ht⟩ := takeSign_prefix r
      refine ⟨dropDigits t, ?_⟩
      have hd : r.drop (takeSign r).length = t := by
        conv => lhs; arg 2; rw [← ht]
        simp
      rw [hd, List.cons_append, List.append_assoc, takeDigits_append_dropDigits, ht]
    · exact List.nil_prefix

def longest (s : Text) : Text :=
  if mantissa s = [] then [] else mantissa s ++ exponent (s.drop (mantissa s).length)

theorem longest_prefix (s : Text) : longest s <+: s := by
  unfold longest
  split
  · exact List.nil_prefix
  · obtain ⟨t, ht⟩ := mantissa_prefix s
    obtain ⟨u, hu⟩ := exponent_prefix t
    have hd : s.drop (mantissa s).length = t := by
      conv => lhs; arg 2; rw [← ht]
      simp
    exact ⟨u, by rw [hd, List.append_assoc, hu, ht]⟩

/-- Whether a text goes on as if it were more of a numeral before it, as in the second point of
`1.2.3` or the mark of `4e`. -/
def runsOn : Text → Bool
  | [] => false
  | c :: _ => c == '.' || c == 'e' || c == 'E' || c.isDigit

/-- A digit has to stand before or after the point, or there is no point and a digit. -/
inductive IsMantissa : Text → Prop
  | fraction {whole rest : Text} : whole.all Char.isDigit → rest.all Char.isDigit → rest ≠ [] →
      IsMantissa (whole ++ '.' :: rest)
  | whole {digits : Text} : digits.all Char.isDigit → digits ≠ [] → IsMantissa digits
  | pointed {digits : Text} : digits.all Char.isDigit → digits ≠ [] → IsMantissa (digits ++ ['.'])

inductive IsSign : Text → Prop
  | none : IsSign []
  | plus : IsSign ['+']
  | minus : IsSign ['-']

inductive IsExponent : Text → Prop
  | none : IsExponent []
  | lower {sign digits : Text} : IsSign sign → digits.all Char.isDigit → digits ≠ [] →
      IsExponent ('e' :: (sign ++ digits))
  | upper {sign digits : Text} : IsSign sign → digits.all Char.isDigit → digits ≠ [] →
      IsExponent ('E' :: (sign ++ digits))

theorem takeDigits_all (s : Text) : (takeDigits s).all Char.isDigit :=
  List.all_takeWhile

theorem isMantissa_mantissa {s : Text} (h : mantissa s ≠ []) : IsMantissa (mantissa s) := by
  revert h
  unfold mantissa
  split
  · rename_i r hr
    split
    · exact absurd rfl
    · rename_i hne
      intro _
      by_cases hf : takeDigits r = []
      · rw [hf]
        exact .pointed (takeDigits_all s) fun hw => hne ⟨hw, hf⟩
      · exact .fraction (takeDigits_all s) (takeDigits_all r) hf
  · exact .whole (takeDigits_all s)

theorem isSign_takeSign (s : Text) : IsSign (takeSign s) := by
  cases s with
  | nil => exact .none
  | cons c cs =>
    simp only [takeSign]
    split
    · rename_i h
      rcases h with rfl | rfl
      · exact .plus
      · exact .minus
    · exact .none

theorem isExponent_exponent (s : Text) : IsExponent (exponent s) := by
  cases s with
  | nil => exact .none
  | cons c r =>
    simp only [exponent]
    split
    · rename_i h
      obtain ⟨rfl | rfl, hd⟩ := h
      · exact .lower (isSign_takeSign r) (takeDigits_all _) hd
      · exact .upper (isSign_takeSign r) (takeDigits_all _) hd
    · exact .none

end Numeral

inductive IsNumeral : Text → Prop
  | intro {m e : Text} : Numeral.IsMantissa m → Numeral.IsExponent e → IsNumeral (m ++ e)

theorem Numeral.isNumeral_longest {s : Text} (h : longest s ≠ []) : IsNumeral (longest s) := by
  revert h
  unfold longest
  split
  · exact absurd rfl
  · rename_i hm
    intro _
    exact ⟨isMantissa_mantissa hm, isExponent_exponent _⟩

end DeskCalculator
