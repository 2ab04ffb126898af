import DeskCalculator.Text.Basic

/-! White space put into a text, and taken out of one. What is put in is said for each byte of the
text: what goes before the character that begins there, or to the end. -/
namespace DeskCalculator
namespace Text

/-- The text, which begins at the byte `p`, with `blanks q` put in before the character at `q`, for
each of its characters. -/
def fillFrom (blanks : Nat → Text) (p : Nat) : Text → Text
  | [] => []
  | c :: cs => blanks p ++ c :: fillFrom blanks (p + c.utf8Size) cs

def spacedFrom (blanks : Nat → Text) (p : Nat) (s : Text) : Text :=
  fillFrom blanks p s ++ blanks (p + s.size)

def spaced (blanks : Nat → Text) (s : Text) : Text := spacedFrom blanks 0 s

def upTo : Nat → Text → Text
  | _, [] => []
  | 0, _ => []
  | n + 1, c :: cs => c :: upTo (n + 1 - c.utf8Size) cs

/-- Where in `s.spaced blanks` the character stands that is at the byte `q` of `s`, or where the end
is, if it is at `q`. -/
def shifted (blanks : Nat → Text) (s : Text) (q : Nat) : Nat := ((s.upTo q).spaced blanks).size

/-- The second text is the first without some of its white space. -/
inductive Thins : Text → Text → Prop
  | nil : Thins [] []
  | keep {s r : Text} (c : Char) : Thins s r → Thins (c :: s) (c :: r)
  | drop {s r : Text} {c : Char} : isBlank c = true → Thins s r → Thins (c :: s) r

variable {s t r w : Text} {c : Char} {p : Nat} {blanks : Nat → Text}

theorem fillFrom_append (blanks : Nat → Text) (p : Nat) (s t : Text) :
    fillFrom blanks p (s ++ t) = fillFrom blanks p s ++ fillFrom blanks (p + s.size) t := by
  induction s generalizing p with
  | nil => rfl
  | cons c cs ih => simp [fillFrom, ih, Nat.add_assoc]

theorem spacedFrom_append (blanks : Nat → Text) (p : Nat) (s t : Text) :
    spacedFrom blanks p (s ++ t) = fillFrom blanks p s ++ spacedFrom blanks (p + s.size) t := by
  simp [spacedFrom, fillFrom_append, Nat.add_assoc]

theorem fillFrom_eq_self (h : ∀ q, p ≤ q → q < p + s.size → blanks q = []) :
    fillFrom blanks p s = s := by
  induction s generalizing p with
  | nil => rfl
  | cons c cs ih =>
    have hc := c.utf8Size_pos
    rw [size_cons] at h
    rw [fillFrom, h p (Nat.le_refl p) (by omega), List.nil_append,
      ih fun q hq hlt => h q (by omega) (by omega)]

/-- A piece that nothing is put into is still in one piece, and what is put in before it is behind
what was there. -/
theorem spacedFrom_piece (hw : w ≠ [])
    (h : ∀ q, p + s.size < q → q < p + s.size + w.size → blanks q = []) (t : Text) :
    spacedFrom blanks p (s ++ (w ++ t)) =
      spacedFrom blanks p s ++ (w ++ spacedFrom blanks (p + s.size + w.size) t) := by
  have hpiece : fillFrom blanks (p + s.size) w = blanks (p + s.size) ++ w := by
    obtain ⟨c, cs, rfl⟩ := List.exists_cons_of_ne_nil hw
    have hc := c.utf8Size_pos
    rw [size_cons] at h
    rw [fillFrom, fillFrom_eq_self fun q hq hlt => h q (by omega) (by omega)]
  rw [spacedFrom_append, spacedFrom_append, hpiece]
  simp only [spacedFrom, List.append_assoc]

theorem isBlankLine_append : isBlankLine (s ++ t) = (s.isBlankLine && t.isBlankLine) :=
  List.all_append

theorem isBlankLine_fillFrom (hblanks : ∀ q, (blanks q).isBlankLine = true)
    (hs : s.isBlankLine = true) (p : Nat) : (fillFrom blanks p s).isBlankLine = true := by
  induction s generalizing p with
  | nil => rfl
  | cons c cs ih =>
    rw [isBlankLine, List.all_cons, Bool.and_eq_true] at hs
    have hcs := ih hs.2 (p + c.utf8Size)
    rw [isBlankLine] at hcs
    rw [fillFrom, isBlankLine_append, hblanks p, isBlankLine, List.all_cons, hs.1, hcs]
    rfl

theorem isBlankLine_spacedFrom (hblanks : ∀ q, (blanks q).isBlankLine = true)
    (hs : s.isBlankLine = true) (p : Nat) : (spacedFrom blanks p s).isBlankLine = true := by
  rw [spacedFrom, isBlankLine_append, isBlankLine_fillFrom hblanks hs, hblanks]
  rfl

theorem upTo_size_append (s t : Text) : upTo s.size (s ++ t) = s := by
  induction s with
  | nil => cases t <;> rfl
  | cons c cs ih =>
    obtain ⟨n, hn⟩ := Nat.exists_eq_add_of_lt c.utf8Size_pos
    have hsize : size (c :: cs) = n + size cs + 1 := by
      rw [size_cons]
      omega
    have hrest : n + size cs + 1 - c.utf8Size = size cs := by omega
    rw [hsize, List.cons_append, upTo, hrest, ih]

theorem shifted_size (blanks : Nat → Text) (s t : Text) :
    shifted blanks (s ++ t) s.size = (s.spaced blanks).size := by
  rw [shifted, upTo_size_append]

namespace Thins

theorem filter (s : Text) : Thins s (s.filter fun c => !isBlank c) := by
  induction s with
  | nil => exact .nil
  | cons c cs ih =>
    cases hc : isBlank c
    · rw [List.filter_cons_of_pos (by simp [hc])]
      exact .keep c ih
    · rw [List.filter_cons_of_neg (by simp [hc])]
      exact .drop hc ih

theorem exists_append (h : Thins (s ++ t) r) : ∃ u v, r = u ++ v ∧ Thins s u ∧ Thins t v := by
  induction s generalizing r with
  | nil => exact ⟨[], r, rfl, .nil, h⟩
  | cons c cs ih =>
    cases h with
    | keep _ h =>
      obtain ⟨u, v, rfl, hu, hv⟩ := ih h
      exact ⟨c :: u, v, rfl, .keep c hu, hv⟩
    | drop hc h =>
      obtain ⟨u, v, rfl, hu, hv⟩ := ih h
      exact ⟨u, v, rfl, .drop hc hu, hv⟩

theorem isBlankLine (h : Thins s r) (hs : s.isBlankLine = true) : r.isBlankLine = true := by
  induction h with
  | nil => rfl
  | keep c _ ih =>
    rw [Text.isBlankLine, List.all_cons, Bool.and_eq_true] at hs ⊢
    exact ⟨hs.1, ih hs.2⟩
  | drop _ _ ih =>
    rw [Text.isBlankLine, List.all_cons, Bool.and_eq_true] at hs
    exact ih hs.2

theorem eq_of_forall (h : Thins s r) (hs : ∀ c ∈ s, isBlank c = false) : r = s := by
  induction h with
  | nil => rfl
  | keep c _ ih => rw [ih fun d hd => hs d (List.mem_cons_of_mem c hd)]
  | drop hc _ _ =>
    rw [hs _ List.mem_cons_self] at hc
    cases hc

end Thins
end Text
end DeskCalculator
