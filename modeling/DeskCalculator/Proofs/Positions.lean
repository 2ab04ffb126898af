import DeskCalculator.Proofs.Depth
import DeskCalculator.Proofs.Walks

/-! Where an error is. A line that is not read has an item at the place of its error, and the item is
what the error says it is, unless the line ends too early: then the place is the end. -/
namespace DeskCalculator

/-- The error is about one of the items of a line, or about its end, which is at the byte `size`. -/
inductive ParseError.IsAbout (size : Nat) (is : List Item) : ParseError → Prop
  | item {e : ParseError} {i : Item} : i ∈ is → e.position = i.position → i.text ∈ e.shown →
      IsAbout size is e
  | ended : IsAbout size is (.unexpectedEnd size)

variable {s : Text} {size k p : Nat} {is post : List Item} {pre ts : List Token} {t o : Token}
  {x : Expr} {e : ParseError}

namespace Token

theorem IsSpelled.text_mem_shown (h : t.IsSpelled)
    (hk : t.kind = .openParen ∨ t.kind.operator?.isSome = true) :
    t.text ∈ (ParseError.tooDeep p).shown := by
  have hword (v : Text) (hv : t.kind.word? = some v) : t.text = v := h v hv
  cases hkind : t.kind <;> simp_all [ParseError.shown, TokenKind.operator?, TokenKind.word?,
    TokenKind.tag]

end Token

theorem TokenKind.isSome_operator?_of_sign? {k : TokenKind} (h : k.sign?.isSome = true) :
    k.operator?.isSome = true := by
  cases k <;> simp_all [sign?, operator?]

theorem Builds.kind (h : Builds pre t post x) :
    t.kind = .openParen ∨ t.kind.operator?.isSome = true := by
  cases h with
  | sign _ hs _ _ => exact .inr (TokenKind.isSome_operator?_of_sign? (by simp [hs]))
  | join _ _ ho _ _ _ => exact .inr (by simp [ho])
  | juxtaposed _ _ ho _ _ => exact .inl ho

theorem ExceedsAt.kind (h : ExceedsAt k pre t post) :
    t.kind = .openParen ∨ t.kind.operator?.isSome = true := by
  rcases h with ⟨hopen | ⟨-, hsign⟩, -⟩ | ⟨x, hbuilds, -⟩
  · exact .inl hopen
  · exact .inr (TokenKind.isSome_operator?_of_sign? hsign)
  · exact hbuilds.kind

namespace Recognizer

theorem mem_foldl_enclose {os : List Token} (hos : ∀ o ∈ os, o.kind = .openParen)
    (h : o ∈ ts.foldl enclose os) : o.kind = .openParen ∧ (o ∈ os ∨ o ∈ ts) := by
  induction ts generalizing os with
  | nil => exact ⟨hos o h, .inl h⟩
  | cons t ts ih =>
    have hstep : ∀ u ∈ enclose os t, u.kind = .openParen ∧ (u ∈ os ∨ u = t) := by
      intro u hu
      unfold enclose at hu
      split at hu
      · rename_i hk
        rcases List.mem_cons.1 hu with rfl | hu
        · exact ⟨hk, .inr rfl⟩
        · exact ⟨hos u hu, .inl hu⟩
      · exact ⟨hos u (List.mem_of_mem_tail hu), .inl (List.mem_of_mem_tail hu)⟩
      · exact ⟨hos u hu, .inl hu⟩
    obtain ⟨hkind, ho⟩ := ih (fun u hu => (hstep u hu).1) h
    refine ⟨hkind, ?_⟩
    rcases ho with ho | ho
    · rcases (hstep o ho).2 with ho | rfl
      · exact .inl ho
      · exact .inr List.mem_cons_self
    · exact .inr (List.mem_cons_of_mem t ho)

theorem mem_unclosed (h : o ∈ unclosed ts) : o.kind = .openParen ∧ o ∈ ts := by
  obtain ⟨hk, ho | ho⟩ := mem_foldl_enclose (by simp) h
  · cases ho
  · exact ⟨hk, ho⟩

theorem Blames.isAbout (h : Blames size ts post e)
    (hspelled : ∀ t ∈ ts, t.IsSpelled) : e.IsAbout size (ts.map .ok ++ post) := by
  have opening {o : Token} {os : List Token} {r : List Item}
        (hos : Recognizer.unclosed ts = o :: os) :
      (ParseError.unclosedParen o.position).IsAbout size (ts.map .ok ++ r) := by
    obtain ⟨hk, ho⟩ := mem_unclosed (hos ▸ List.mem_cons_self)
    have htext : o.text = ['('] := hspelled o ho _ (by rw [hk]; rfl)
    exact .item (i := .ok o) (by simp [ho]) rfl (by simp [ParseError.shown, Item.text, htext])
  cases h with
  | @lex e r => exact .item (i := .error e) (by simp) rfl (List.mem_singleton.2 rfl)
  | @token t r _ => exact .item (i := .ok t) (by simp) rfl (List.mem_singleton.2 rfl)
  | unclosed _ hos => exact opening hos
  | ended _ => exact .ended
  | endedOpen _ hos => exact opening hos

end Recognizer

theorem isAbout_of_parse (h : parse s = .error e) : e.IsAbout s.size (Scan.all 0 s) := by
  have hline := Parser.line_run (some maxDepth) s
  rw [← parse, h] at hline
  by_cases hdeep : ∃ p, e = .tooDeep p
  · obtain ⟨p, rfl⟩ := hdeep
    cases hline with
    | failed hf =>
      obtain ⟨us, t, post, hall, hp, hexceeds⟩ :=
        hf.exceeds rfl (by decide) (Nat.zero_le _) trivial Begins.line
      have hall : Scan.all 0 s = us.map .ok ++ .ok t :: post := hall
      have hmem : Except.ok t ∈ Scan.all 0 s := by simp [hall]
      have hspelled := Token.isSpelled_of_mem_all hmem
      exact .item hmem hp.symm (hspelled.text_mem_shown hexceeds.kind)
  · have hrun := Recognizer.recognize_of_line hline fun p hp => hdeep ⟨p, Except.error.inj hp⟩
    obtain ⟨us, rest, hall, -, hblames⟩ := Recognizer.exists_blames [] rfl hrun
    rw [hall]
    refine hblames.isAbout fun t ht => Token.isSpelled_of_mem_all (p := 0) (s := s) ?_
    have ht : t ∈ us := ht
    simp [hall, ht]

/-- The place of an error is between two characters of the line. One of the texts that the error is
about stands there, with its own bytes; only the end of the line can be missed where nothing stands,
and an end is missed nowhere else. -/
theorem position_of_parse_error (h : parse s = .error e) :
    (∃ before after, s = before ++ after ∧ e.position = before.size) ∧ e.position ≤ s.size ∧
    (e = .unexpectedEnd s.size ∨ ∃ w ∈ e.shown, w ≠ [] ∧
      (s.bytes.drop e.position).take w.size = w.bytes) ∧
    (e.position = s.size ↔ ∃ p, e = .unexpectedEnd p) := by
  cases isAbout_of_parse h with
  | ended =>
    exact ⟨⟨s, [], (List.append_nil s).symm, rfl⟩, Nat.le_refl _, .inl rfl,
      fun _ => ⟨s.size, rfl⟩, fun _ => rfl⟩
  | @item e i hi hposition hshown =>
    obtain ⟨q, hq, hstands⟩ := (Scan.tile_all 0 s).standsAt hi
    have hne := (Scan.ne_nil_of_mem_all hi).1
    rw [← hposition, Nat.zero_add] at hq
    have hbytes := hstands.bytes_eq
    obtain ⟨before, after, hs, hbefore⟩ := hstands
    have hsize : s.size = e.position + (i.text.size + Text.size after) := by
      simp [hs, hq, hbefore]
    have hpos := Text.size_pos hne
    refine ⟨⟨before, i.text ++ after, by rw [hs, List.append_assoc], hq.trans hbefore⟩, by omega,
      .inr ⟨i.text, hshown, hne, hq ▸ hbytes⟩, fun hend => by omega, ?_⟩
    rintro ⟨p, rfl⟩
    cases hshown

/-- The white space takes two bytes and three, and the parenthesis stands behind the first of it. -/
theorem position_of_parse_error_wide :
    let s : Text := "\u00a0-(2\u2003* 3".toList
    parse s = .error (.unclosedParen 3) ∧ (s.bytes.drop 3).take 1 = Text.bytes ['('] := by
  intro s
  have hparse : parse s = .error (.unclosedParen 3) := by decide +kernel
  obtain ⟨-, -, hshown, -⟩ := position_of_parse_error hparse
  rcases hshown with hend | ⟨w, hw, -, hbytes⟩
  · cases hend
  · obtain rfl := List.mem_singleton.1 hw
    exact ⟨hparse, hbytes⟩

end DeskCalculator
