import DeskCalculator.Token.Scan

/-! A lexer scans the next item of its text when it is asked for one, and first gives again the
tokens that were put back, the latest of them first. What it has still to give is one list, its
stream. -/
namespace DeskCalculator

/-- `trace` holds the tokens scanned so far, the latest first; one that was returned and given
again is in it once. -/
structure Lexer where
  source : Text
  position : Nat
  rest : Text
  pending : List Token
  trace : List Token
  split : ∃ passed, source = passed ++ rest ∧ position = Text.size passed

namespace Lexer

def ofText (source : Text) : Lexer where
  source := source
  position := 0
  rest := source
  pending := []
  trace := []
  split := ⟨[], rfl, rfl⟩

def putBack (l : Lexer) (t : Token) : Lexer := { l with pending := t :: l.pending }

def advance (l : Lexer) (x : Scan) (h : Scan.first l.position l.rest = some x)
    (trace : List Token) : Lexer where
  source := l.source
  position := x.position
  rest := x.rest
  pending := []
  trace := trace
  split := by
    obtain ⟨before, hs, hp⟩ := l.split
    obtain ⟨passed, -, hr, hq⟩ := Scan.first_split h
    exact ⟨before ++ passed, by rw [hs, hr, List.append_assoc], by rw [hq, hp, Text.size_append]⟩

/-- What a lexer answers, and the lexer afterwards. At the end it stays as it is. -/
inductive Answer
  | token (t : Token) (after : Lexer)
  | error (e : LexError) (after : Lexer)
  | finished

def next (l : Lexer) : Answer :=
  match l.pending with
  | t :: ts => .token t { l with pending := ts }
  | [] =>
    match h : Scan.first l.position l.rest with
    | none => .finished
    | some x =>
      match x.item with
      | .ok t => .token t (l.advance x h (t :: l.trace))
      | .error e => .error e (l.advance x h l.trace)

theorem next_of_none {l : Lexer} (hp : l.pending = [])
    (h : Scan.first l.position l.rest = none) : l.next = .finished := by
  unfold next
  split
  · simp_all
  · split
    · rfl
    · simp_all

theorem next_of_some {l : Lexer} {x : Scan} (hp : l.pending = [])
    (h : Scan.first l.position l.rest = some x) :
    ∃ m : Lexer, (l.next = match x.item with | .ok t => .token t m | .error e => .error e m) ∧
      m.source = l.source ∧ m.pending = [] ∧ m.position = x.position ∧ m.rest = x.rest := by
  unfold next
  split
  · simp_all
  · split
    · simp_all
    · rename_i y hy
      obtain rfl := Option.some.inj (h.symm.trans hy)
      cases x.item <;> exact ⟨_, rfl, rfl, rfl, rfl, rfl⟩

/-- Everything that the lexer has still to give. -/
def stream (l : Lexer) : List Item := l.pending.map .ok ++ Scan.all l.position l.rest

/-- A bound on the number of tokens that the lexer has still to give. -/
def size (l : Lexer) : Nat := l.pending.length + l.rest.length

@[simp] theorem stream_putBack (l : Lexer) (t : Token) :
    (l.putBack t).stream = .ok t :: l.stream := rfl

@[simp] theorem source_putBack (l : Lexer) (t : Token) : (l.putBack t).source = l.source := rfl

@[simp] theorem stream_ofText (s : Text) : (ofText s).stream = Scan.all 0 s := rfl

@[simp] theorem size_putBack (l : Lexer) (t : Token) : (l.putBack t).size = l.size + 1 := by
  simp [size, putBack]
  omega

theorem size_token {l m : Lexer} {t : Token} (h : l.next = .token t m) : m.size < l.size := by
  unfold next at h
  split at h
  · rename_i ts hl
    cases h
    simp [size, hl]
  · rename_i hl
    split at h
    · cases h
    · rename_i x hx
      have := Scan.length_rest_lt hx
      split at h <;> cases h
      simp [size, advance, hl]
      omega

theorem size_error {l m : Lexer} {e : LexError} (h : l.next = .error e m) : m.size < l.size := by
  unfold next at h
  split at h
  · cases h
  · rename_i hl
    split at h
    · cases h
    · rename_i x hx
      have := Scan.length_rest_lt hx
      split at h <;> cases h
      simp [size, advance, hl]
      omega

theorem stream_of_token {l m : Lexer} {t : Token} (h : l.next = .token t m) :
    l.stream = .ok t :: m.stream := by
  unfold next at h
  split at h
  · rename_i ts hl
    cases h
    simp [stream, hl]
  · rename_i hl
    split at h
    · cases h
    · rename_i x hx
      split at h <;> cases h
      rename_i hi
      simp [stream, advance, hl, Scan.all_of_some hx, hi]

theorem source_of_token {l m : Lexer} {t : Token} (h : l.next = .token t m) :
    m.source = l.source := by
  unfold next at h
  split at h
  · cases h
    rfl
  · split at h
    · cases h
    · split at h <;> cases h
      rfl

theorem stream_of_error {l m : Lexer} {e : LexError} (h : l.next = .error e m) :
    l.stream = .error e :: m.stream := by
  unfold next at h
  split at h
  · cases h
  · rename_i hl
    split at h
    · cases h
    · rename_i x hx
      split at h <;> cases h
      rename_i hi
      simp [stream, advance, hl, Scan.all_of_some hx, hi]

theorem stream_of_finished {l : Lexer} (h : l.next = .finished) : l.stream = [] := by
  unfold next at h
  split at h
  · cases h
  · rename_i hl
    split at h
    · rename_i hx
      simp [stream, hl, Scan.all_of_none hx]
    · split at h <;> cases h

/-! A token is traced when it is scanned, and not when it is given again. -/

theorem trace_of_token {l m : Lexer} {t : Token} (h : l.next = .token t m) :
    l.pending = t :: m.pending ∧ m.trace = l.trace ∨
      l.pending = [] ∧ m.pending = [] ∧ m.trace = t :: l.trace := by
  unfold next at h
  split at h
  · rename_i ts hl
    cases h
    exact .inl ⟨hl, rfl⟩
  · rename_i hl
    split at h
    · cases h
    · split at h <;> cases h
      exact .inr ⟨hl, rfl, rfl⟩

theorem trace_of_error {l m : Lexer} {e : LexError} (h : l.next = .error e m) :
    l.pending = [] ∧ m.trace = l.trace := by
  unfold next at h
  split at h
  · cases h
  · rename_i hl
    split at h
    · cases h
    · split at h <;> cases h
      exact ⟨hl, rfl⟩

theorem pending_of_finished {l : Lexer} (h : l.next = .finished) : l.pending = [] := by
  have hs := stream_of_finished h
  rw [stream, List.append_eq_nil_iff, List.map_eq_nil_iff] at hs
  exact hs.1

end Lexer
end DeskCalculator
