/-! Text as a list of characters. Positions in a text are byte offsets in UTF-8, so the size of
a text is the number of bytes that its characters take. -/
namespace DeskCalculator

abbrev Text := List Char

namespace Text

def size : Text → Nat
  | [] => 0
  | c :: cs => c.utf8Size + size cs

@[simp] theorem size_nil : size [] = 0 := rfl

@[simp] theorem size_cons (c : Char) (cs : Text) : size (c :: cs) = c.utf8Size + size cs := rfl

@[simp] theorem size_append (s t : Text) : size (s ++ t) = size s + size t := by
  induction s with
  | nil => simp
  | cons c cs ih => simp [ih, Nat.add_assoc]

theorem length_le_size (s : Text) : s.length ≤ size s := by
  induction s with
  | nil => simp
  | cons c cs ih =>
    have := c.utf8Size_pos
    simp only [List.length_cons, size_cons]
    omega

theorem size_pos {s : Text} (h : s ≠ []) : 0 < size s :=
  Nat.lt_of_lt_of_le (List.length_pos_iff.2 h) (length_le_size s)

def ofNat (n : Nat) : Text := Nat.toDigits 10 n

def grouped (s : Text) : Text := '(' :: (s ++ [')'])

def bytes (s : Text) : List UInt8 := s.flatMap String.utf8EncodeChar

@[simp] theorem bytes_nil : bytes [] = [] := rfl

@[simp] theorem bytes_cons (c : Char) (s : Text) :
    bytes (c :: s) = String.utf8EncodeChar c ++ bytes s := rfl

@[simp] theorem bytes_append (s t : Text) : bytes (s ++ t) = bytes s ++ bytes t := by
  simp [bytes]

@[simp] theorem length_bytes (s : Text) : (bytes s).length = size s := by
  induction s with
  | nil => rfl
  | cons c cs ih => simp [ih]

/-- The text `w` stands in the text `s` from the byte `p` on, with whole characters before it. -/
def StandsAt (w : Text) (p : Nat) (s : Text) : Prop :=
  ∃ before after, s = before ++ w ++ after ∧ p = size before

theorem StandsAt.bytes_eq {w s : Text} {p : Nat} (h : w.StandsAt p s) :
    ((bytes s).drop p).take (size w) = bytes w := by
  obtain ⟨before, after, rfl, rfl⟩ := h
  rw [bytes_append, bytes_append, ← length_bytes before, List.append_assoc, List.drop_left,
    ← length_bytes w, List.take_left]

/-! White space: the 25 characters that have the Unicode property White_Space, as closed ranges of
code points in ascending order. -/

def blankRanges : List (Nat × Nat) :=
  [(0x09, 0x0d), (0x20, 0x20), (0x85, 0x85), (0xa0, 0xa0), (0x1680, 0x1680), (0x2000, 0x200a),
    (0x2028, 0x2029), (0x202f, 0x202f), (0x205f, 0x205f), (0x3000, 0x3000)]

def isBlank (c : Char) : Bool :=
  blankRanges.any fun r => decide (r.1 ≤ c.toNat) && decide (c.toNat ≤ r.2)

theorem isBlank_eq_false_of_isDigit {c : Char} (h : c.isDigit = true) : isBlank c = false := by
  simp only [Char.isDigit, Bool.and_eq_true, decide_eq_true_eq] at h
  have hrange : 48 ≤ c.toNat ∧ c.toNat ≤ 57 := h
  simp only [isBlank, blankRanges, List.any_cons, List.any_nil, Bool.or_false,
    Bool.or_eq_false_iff, Bool.and_eq_false_iff, decide_eq_false_iff_not]
  omega

def gap (s : Text) : Text := s.takeWhile isBlank

def skipBlank (s : Text) : Text := s.dropWhile isBlank

@[simp] theorem gap_append_skipBlank (s : Text) : gap s ++ skipBlank s = s :=
  List.takeWhile_append_dropWhile

def isBlankLine (s : Text) : Bool := s.all isBlank

theorem skipBlank_eq_nil_iff (s : Text) : skipBlank s = [] ↔ isBlankLine s = true := by
  induction s with
  | nil => simp [skipBlank, isBlankLine]
  | cons c cs ih =>
    simp only [skipBlank, isBlankLine] at ih
    cases h : isBlank c <;> simp [skipBlank, isBlankLine, h, ih]

/-! A text between double quotes on one visible line, as the report of a line that was read has it.
Such a line has no characters but those of its tokens and white space. Of other characters that do not
show, only control characters are escaped here. -/

/-- Control characters and all white space but the plain space do not show. -/
def isHidden (c : Char) : Bool :=
  (isBlank c && c != ' ') || c.toNat < 0x20 || (0x7f ≤ c.toNat && c.toNat < 0xa0)

def escapeVisible (c : Char) : Text :=
  if c = '\t' then ['\\', 't']
  else if c = '\n' then ['\\', 'n']
  else if c = '\r' then ['\\', 'r']
  else if c = '\x00' then ['\\', '0']
  else if c = '"' ∨ c = '\\' then ['\\', c]
  else if isHidden c then ['\\', 'u', '\x7b'] ++ Nat.toDigits 16 c.toNat ++ ['\x7d']
  else [c]

def quoted (s : Text) : Text := ['"'] ++ s.flatMap escapeVisible ++ ['"']

/-! Moving a text of several lines to the right. -/

/-- Every line but the first begins further in, two spaces for each level. -/
def indent (levels : Nat) (s : Text) : Text :=
  s.flatMap fun c => if c = '\n' then '\n' :: List.replicate (2 * levels) ' ' else [c]

variable {m n : Nat} {s : Text}

@[simp] theorem indent_nil (n : Nat) : indent n [] = [] := rfl

@[simp] theorem indent_append (n : Nat) (s t : Text) :
    indent n (s ++ t) = indent n s ++ indent n t := by
  simp [indent]

theorem indent_lineFeed (n : Nat) (s : Text) :
    indent n ('\n' :: s) = '\n' :: (List.replicate (2 * n) ' ' ++ indent n s) := by
  simp [indent]

theorem indent_cons {c : Char} (hc : c ≠ '\n') (n : Nat) (s : Text) :
    indent n (c :: s) = c :: indent n s := by
  simp [indent, hc]

theorem indent_of_not_mem (n : Nat) (h : '\n' ∉ s) : indent n s = s := by
  induction s with
  | nil => rfl
  | cons c cs ih =>
    rw [List.mem_cons, not_or] at h
    rw [indent_cons (Ne.symm h.1), ih h.2]

@[simp] theorem indent_zero (s : Text) : indent 0 s = s := by
  induction s with
  | nil => rfl
  | cons c cs ih =>
    by_cases hc : c = '\n'
    · rw [hc, indent_lineFeed, ih]
      rfl
    · rw [indent_cons hc, ih]

theorem indent_indent (m n : Nat) (s : Text) : indent m (indent n s) = indent (m + n) s := by
  induction s with
  | nil => rfl
  | cons c cs ih =>
    by_cases hc : c = '\n'
    · subst hc
      have hspaces : indent m (List.replicate (2 * n) ' ') = List.replicate (2 * n) ' ' :=
        indent_of_not_mem m (by simp)
      have hsum : 2 * (m + n) = 2 * m + 2 * n := Nat.mul_add 2 m n
      rw [indent_lineFeed, indent_lineFeed, indent_lineFeed, indent_append, hspaces, ih, hsum,
        ← List.replicate_append_replicate, List.append_assoc]
    · rw [indent_cons hc, indent_cons hc, indent_cons hc, ih]

@[simp] theorem count_indent (n : Nat) (s : Text) : (indent n s).count '\n' = s.count '\n' := by
  induction s with
  | nil => rfl
  | cons c cs ih =>
    by_cases hc : c = '\n'
    · subst hc
      simp [indent_lineFeed, List.count_replicate, ih]
    · simp [indent_cons hc, ih, hc]

end Text
end DeskCalculator
