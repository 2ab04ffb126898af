import DeskCalculator.Number
import DeskCalculator.Proofs.Scanning

/-! Which texts are read as the value of a number. They are those that the grammar of literals has: a
decimal is split where a numeral is put together, so what is read as one is a numeral, and a numeral
is read. -/
namespace DeskCalculator

open Numeral

namespace Decimal

variable {s m e ds sign w : Text}

theorem exists_readDigits? (hds : ds.all Char.isDigit) (hne : ds ≠ []) :
    ∃ n, readDigits? ds = some n :=
  ⟨ofDigits ds, if_pos ⟨hne, hds⟩⟩

theorem exists_readInteger? (hsign : IsSign sign) (hds : ds.all Char.isDigit) (hne : ds ≠ []) :
    ∃ k, readInteger? (sign ++ ds) = some k := by
  obtain ⟨n, hn⟩ := exists_readDigits? hds hne
  cases hsign with
  | plus => exact ⟨Int.ofNat n, by simp [readInteger?, hn]⟩
  | minus => exact ⟨-Int.ofNat n, by simp [readInteger?, hn]⟩
  | none =>
    refine ⟨Int.ofNat n, ?_⟩
    rw [List.nil_append]
    unfold readInteger?
    -- No sign is a digit, so only the last case is left.
    split
    · exact absurd hds (by simp)
    · exact absurd hds (by simp)
    · simp [hn]

theorem exists_readExponent? (he : IsExponent e) : ∃ k, readExponent? e = some k := by
  cases he with
  | none => exact ⟨0, rfl⟩
  | lower hsign hds hne => exact exists_readInteger? hsign hds hne
  | upper hsign hds hne => exact exists_readInteger? hsign hds hne

theorem takeDigits_of_isExponent (he : IsExponent e) : takeDigits e = [] := by
  cases he <;> rfl

theorem dropDigits_of_isExponent (he : IsExponent e) : dropDigits e = e := by
  cases he <;> rfl

theorem splitFraction_of_isExponent (he : IsExponent e) : splitFraction e = ([], e) := by
  cases he <;> rfl

theorem exists_split (hm : IsMantissa m) (he : IsExponent e) :
    ∃ fraction, splitFraction (dropDigits (m ++ e)) = (fraction, e) ∧
      ¬ (takeDigits (m ++ e) = [] ∧ fraction = []) := by
  have hstop : ∀ s, takeDigits ('.' :: s) = [] := fun _ => rfl
  have hexponent := takeDigits_of_isExponent he
  cases hm with
  | @fraction whole part hw hp hne =>
    refine ⟨part, ?_, fun h => hne h.2⟩
    rw [List.append_assoc, List.cons_append, dropDigits_append hw (hstop _), splitFraction,
      takeDigits_append hp hexponent, dropDigits_append hp hexponent]
  | whole hds hne =>
    refine ⟨[], ?_, fun h => hne ?_⟩
    · rw [dropDigits_append hds hexponent, splitFraction_of_isExponent he]
    · rw [← h.1, takeDigits_append hds hexponent]
  | @pointed digits hds hne =>
    refine ⟨[], ?_, fun h => hne ?_⟩
    · rw [List.append_assoc, List.singleton_append, dropDigits_append hds (hstop e), splitFraction,
        hexponent, dropDigits_of_isExponent he]
    · rw [← h.1, List.append_assoc, List.singleton_append, takeDigits_append hds (hstop e)]

theorem exists_read? (hw : IsNumeral w) : ∃ d, read? w = some d := by
  obtain @⟨m, e, hm, he⟩ := hw
  obtain ⟨fraction, hsplit, hdigits⟩ := exists_split hm he
  obtain ⟨k, hk⟩ := exists_readExponent? he
  refine ⟨⟨ofDigits (takeDigits (m ++ e) ++ fraction), k - fraction.length⟩, ?_⟩
  simp only [read?, hsplit, hdigits, if_false, hk, Option.map_some]

/-! The other way round: what is read is put together like a numeral. -/

theorem isDigits_of_readDigits? {n : Nat} (h : readDigits? s = some n) :
    s ≠ [] ∧ s.all Char.isDigit = true := by
  unfold readDigits? at h
  split at h
  · rename_i hs
    exact hs
  · cases h

theorem exists_of_readInteger? {k : Int} (h : readInteger? s = some k) :
    ∃ sign ds, s = sign ++ ds ∧ IsSign sign ∧ ds.all Char.isDigit = true ∧ ds ≠ [] := by
  unfold readInteger? at h
  split at h
  all_goals
    rename_i r
    obtain ⟨n, hn, -⟩ := Option.map_eq_some_iff.1 h
    obtain ⟨hne, hds⟩ := isDigits_of_readDigits? hn
  · exact ⟨['+'], r, rfl, .plus, hds, hne⟩
  · exact ⟨['-'], r, rfl, .minus, hds, hne⟩
  · exact ⟨[], s, rfl, .none, hds, hne⟩

theorem isExponent_of_readExponent? {k : Int} (h : readExponent? s = some k) : IsExponent s := by
  cases s with
  | nil => exact .none
  | cons c r =>
    rw [readExponent?] at h
    split at h
    · rename_i hmark
      obtain ⟨sign, ds, rfl, hsign, hds, hne⟩ := exists_of_readInteger? h
      rcases hmark with rfl | rfl
      · exact .lower hsign hds hne
      · exact .upper hsign hds hne
    · cases h

theorem exists_mantissa (s : Text)
    (hne : ¬ (takeDigits s = [] ∧ (splitFraction (dropDigits s)).1 = [])) :
    ∃ m, s = m ++ (splitFraction (dropDigits s)).2 ∧ IsMantissa m := by
  have hs := takeDigits_append_dropDigits s
  have hwhole := takeDigits_all s
  cases hdrop : dropDigits s with
  | nil =>
    rw [hdrop] at hs hne
    simp only [splitFraction, and_true] at hne ⊢
    exact ⟨takeDigits s, hs.symm, .whole hwhole hne⟩
  | cons c r =>
    rw [hdrop] at hs hne
    by_cases hc : c = '.'
    · subst hc
      have hr := takeDigits_append_dropDigits r
      simp only [splitFraction] at hne ⊢
      refine ⟨takeDigits s ++ '.' :: takeDigits r, by simp [hr, hs], ?_⟩
      by_cases hpart : takeDigits r = []
      · rw [hpart]
        exact .pointed hwhole fun hnil => hne ⟨hnil, hpart⟩
      · exact .fraction hwhole (takeDigits_all r) hpart
    · have hsplit : splitFraction (c :: r) = ([], c :: r) := by
        unfold splitFraction
        split <;> simp_all
      rw [hsplit] at hne ⊢
      exact ⟨takeDigits s, hs.symm, .whole hwhole fun hnil => hne ⟨hnil, rfl⟩⟩

theorem isNumeral_of_read? {d : Decimal} (h : read? s = some d) : IsNumeral s := by
  simp only [read?] at h
  split at h
  · cases h
  · rename_i hne
    obtain ⟨k, hk, -⟩ := Option.map_eq_some_iff.1 h
    obtain ⟨m, hs, hm⟩ := exists_mantissa s hne
    rw [hs]
    exact .intro hm (isExponent_of_readExponent? hk)

end Decimal

namespace Literal

variable {s t : Text}

theorem isSome_readName? : (readName? s).isSome = true ↔ s.map Char.toLower ∈ names := by
  simp only [readName?, names, List.mem_cons, List.not_mem_nil, or_false]
  split
  · rename_i hinfinity
    rcases hinfinity with h | h <;> simp [h]
  · split
    · rename_i hnan
      simp [hnan]
    · simp_all

theorem isSome_readPlace? :
    (readPlace? s).isSome = true ↔ IsNumeral s ∨ s.map Char.toLower ∈ names := by
  rw [readPlace?, Option.isSome_or, Bool.or_eq_true, Option.isSome_map, isSome_readName?]
  refine or_congr ⟨fun h => ?_, fun h => ?_⟩ Iff.rfl
  · obtain ⟨d, hd⟩ := Option.isSome_iff_exists.1 h
    exact Decimal.isNumeral_of_read? hd
  · obtain ⟨d, hd⟩ := Decimal.exists_read? h
    simp [hd]

theorem isLiteral_of_isSome_read? (h : (read? t).isSome = true) : IsLiteral t := by
  have hplace {sign r : Text} (hsign : IsSign sign) (h : (readPlace? r).isSome = true) :
      IsLiteral (sign ++ r) := by
    rcases isSome_readPlace?.1 h with hr | hr
    · exact .numeral hsign hr
    · exact .name hsign hr
  unfold read? at h
  split at h
  all_goals rw [Option.isSome_map] at h
  · exact hplace .minus h
  · exact hplace .plus h
  · exact hplace .none h

theorem head_ne_sign (h : IsNumeral s ∨ s.map Char.toLower ∈ names) (c : Char)
    (hc : c = '-' ∨ c = '+') : ∀ r, s ≠ c :: r := by
  rintro r rfl
  rcases h with hs | hs
  · obtain ⟨d, ds, hcons, hd⟩ := head_of_isNumeral hs
    obtain ⟨rfl, -⟩ := List.cons.inj hcons
    rcases hc with rfl | rfl <;> exact absurd hd (by decide)
  · rcases hc with rfl | rfl <;> simp [names] at hs

theorem read?_unsigned (h : IsNumeral s ∨ s.map Char.toLower ∈ names) :
    read? s = (readPlace? s).map (Binary64.ofPlace false) := by
  unfold read?
  split
  · exact absurd rfl (head_ne_sign h _ (.inl rfl) _)
  · exact absurd rfl (head_ne_sign h _ (.inr rfl) _)
  · rfl

theorem isSome_read?_of_isLiteral (h : IsLiteral t) : (read? t).isSome = true := by
  have hsigned {sign w : Text} (hsign : IsSign sign)
      (hw : IsNumeral w ∨ w.map Char.toLower ∈ names) : (read? (sign ++ w)).isSome = true := by
    have hplace := isSome_readPlace?.2 hw
    cases hsign with
    | plus | minus => simpa [read?] using hplace
    | none =>
      rw [List.nil_append, read?_unsigned hw, Option.isSome_map]
      exact hplace
  cases h with
  | numeral hsign hw => exact hsigned hsign (.inl hw)
  | name hsign hw => exact hsigned hsign (.inr hw)

/-- The texts that are read are those that the grammar of literals has. -/
theorem isSome_read?_iff : (read? t).isSome = true ↔ IsLiteral t :=
  ⟨isLiteral_of_isSome_read?, isSome_read?_of_isLiteral⟩

end Literal
end DeskCalculator
