import DeskCalculator.Proofs.Seams
import Mathlib.Control.Monad.Basic

/-! A lexer that is asked until it is finished gives its text away piece by piece. White space is
all that it leaves out, and it gives nothing twice, also after a text that is no token. -/
namespace DeskCalculator
namespace Item

variable {p : Nat} {s : Text} {is : List Item}

theorem Tile.standsAt (h : Tile p s is) {i : Item} (hi : i ∈ is) :
    ∃ q, i.position = p + q ∧ i.text.StandsAt q s := by
  induction h with
  | blank _ => cases hi
  | @piece p g rest j is _ hj _ ih =>
    rcases List.mem_cons.1 hi with rfl | hi
    · exact ⟨g.size, hj, g, rest, (List.append_assoc _ _ _).symm, rfl⟩
    · obtain ⟨q, hq, before, after, hrest, rfl⟩ := ih hi
      refine ⟨(g ++ (j.text ++ before)).size, ?_, g ++ (j.text ++ before), after, ?_, rfl⟩
      · simp only [hq, hj, Text.size_append]
        omega
      · simp only [hrest, List.append_assoc]

theorem Tile.pairwise (h : Tile p s is) :
    is.Pairwise fun i j => i.position + i.text.size ≤ j.position := by
  induction h with
  | blank _ => exact .nil
  | piece _ _ hrest ih =>
    refine .cons (fun j hj => ?_) ih
    obtain ⟨q, hq, -⟩ := hrest.standsAt hj
    omega

end Item

theorem TokenKind.IsSymbol.ne_blank {k : TokenKind} {c : Char} (h : k.IsSymbol c) :
    k ≠ .blank := by
  cases h <;> simp

theorem Lexeme.IsFront.kind_ne_blank {s : Text} {w : Lexeme} (h : IsFront s w) :
    w.kind ≠ some .blank := by
  cases h with
  | symbol hk => simpa using hk.ne_blank
  | ans => simp
  | number _ _ => simp
  | runsOn _ _ => simp
  | unknown _ _ _ => simp

theorem Text.ne_nil_of_mem_lexemes {s : Text} {w : Lexeme} (hw : w ∈ s.lexemes) :
    w.text ≠ [] ∧ w.kind ≠ some .blank := by
  obtain ⟨c, cs, rfl⟩ := exists_front_of_mem_lexemes hw
  exact ⟨Lexeme.front_ne_nil c cs, (Lexeme.isFront_front c cs).kind_ne_blank⟩

namespace Scan

open Item (Tile)

@[simp] theorem text_item? (w : Lexeme) (p : Nat) : (item? w p).text = w.text := by
  cases h : w.kind <;> simp [item?, h, Item.text]

@[simp] theorem position_item? (w : Lexeme) (p : Nat) : (item? w p).position = p := by
  cases h : w.kind <;> simp [item?, h, Item.position]

theorem tile_all (p : Nat) (s : Text) : Tile p s (all p s) := by
  induction s using Text.lexemes.induct generalizing p with
  | case1 s h =>
    rw [all_of_none (first_of_nil p h)]
    exact .blank ((Text.skipBlank_eq_nil_iff s).1 h)
  | case2 s c cs h ih =>
    rw [all_of_some (first_of_cons p h)]
    have hcut := Lexeme.front_text_append_drop c cs
    generalize (c :: cs).drop (Lexeme.front c cs).text.length = rest at hcut ih
    have hsplit : s.gap ++ ((item? (Lexeme.front c cs) (p + s.gap.size)).text ++ rest) = s := by
      rw [text_item?, hcut, ← h, Text.gap_append_skipBlank]
    have hrest := ih (p + s.gap.size + (Lexeme.front c cs).text.size)
    have hpiece := Tile.piece (Text.gap_all s)
      (position_item? (Lexeme.front c cs) (p + s.gap.size)) (by simpa using hrest)
    rwa [hsplit] at hpiece

theorem ne_nil_of_mem_all {p : Nat} {s : Text} {i : Item} (hi : i ∈ all p s) :
    i.text ≠ [] ∧ ∀ t, i = .ok t → t.kind ≠ .blank := by
  have hw : i.lexeme ∈ s.lexemes := by
    rw [← Text.map_lexeme_all p s]
    exact List.mem_map_of_mem hi
  obtain ⟨hne, hkind⟩ := Text.ne_nil_of_mem_lexemes hw
  cases i with
  | error e => exact ⟨hne, nofun⟩
  | ok t =>
    refine ⟨hne, ?_⟩
    rintro _ ⟨⟩ hblank
    exact hkind (congrArg some hblank)

end Scan

namespace Lexer

variable {l m : Lexer}

theorem Answers.eq_stream {is : List Item} (h : Answers l is) : is = l.stream := by
  induction h with
  | finished hl => rw [stream_of_finished hl]
  | token hl _ ih => rw [stream_of_token hl, ih]
  | error hl _ ih => rw [stream_of_error hl, ih]

theorem Answers.length_le {is : List Item} (h : Answers l is) : is.length ≤ l.size := by
  induction h with
  | finished _ => exact Nat.zero_le _
  | token hl _ ih => exact Nat.lt_of_le_of_lt ih (size_token hl)
  | error hl _ ih => exact Nat.lt_of_le_of_lt ih (size_error hl)

/-- A lexer has an end: asked again and again, it answers its stream. -/
theorem answers_stream (l : Lexer) : Answers l l.stream := by
  cases hl : l.next with
  | finished =>
    rw [stream_of_finished hl]
    exact .finished hl
  | token t m =>
    have := size_token hl
    rw [stream_of_token hl]
    exact .token hl (answers_stream m)
  | error e m =>
    have := size_error hl
    rw [stream_of_error hl]
    exact .error hl (answers_stream m)
termination_by l.size

theorem answers_iff {is : List Item} : Answers l is ↔ is = l.stream :=
  ⟨Answers.eq_stream, fun h => h ▸ answers_stream l⟩

/-- Asked until it is finished, a lexer gives a text away in pieces, as many as the text has
characters at most. Each piece has the bytes that the text has where the piece says it stands, which
is between two characters. The pieces stand one after the other, and all between them is white
space. -/
theorem answers_tile_source (s : Text) : ∃ is : List Item,
    (∀ js, Answers (ofText s) js ↔ js = is) ∧ is.length ≤ s.length ∧ Item.Tile 0 s is ∧
    (∀ i ∈ is, i.text ≠ [] ∧ (∀ t, i = .ok t → t.kind ≠ .blank) ∧ i.text.StandsAt i.position s ∧
      (s.bytes.drop i.position).take i.text.size = i.text.bytes) ∧
    is.Pairwise fun i j => i.position < j.position ∧ i.position + i.text.size ≤ j.position := by
  have hanswers : Answers (ofText s) (Scan.all 0 s) := answers_stream (ofText s)
  have htile : Item.Tile 0 s (Scan.all 0 s) := Scan.tile_all 0 s
  have hlength : (ofText s).size = s.length := Nat.zero_add s.length
  refine ⟨Scan.all 0 s, fun js => answers_iff, hlength ▸ hanswers.length_le, htile, fun i hi => ?_,
    ?_⟩
  · obtain ⟨hne, hkind⟩ := Scan.ne_nil_of_mem_all hi
    obtain ⟨q, hq, hstands⟩ := htile.standsAt hi
    rw [Nat.zero_add] at hq
    rw [← hq] at hstands
    exact ⟨hne, hkind, hstands, hstands.bytes_eq⟩
  · refine htile.pairwise.imp_of_mem fun hi _ hle => ⟨?_, hle⟩
    have hsize := Text.size_pos (Scan.ne_nil_of_mem_all hi).1
    omega

/-- A character of two bytes and a numeral that runs on are given up, and scanning goes on. -/
example : Answers (ofText " é4e +".toList)
    [.error ⟨['é'], 1⟩, .error ⟨['4'], 3⟩, .error ⟨['e'], 4⟩, .ok ⟨.plus, ['+'], 6⟩] :=
  answers_iff.2 (by decide +kernel)

end Lexer

/-! A lexer keeps what is put back apart from the text that it scans. To one who asks it for items it
is a single list: first the items of its text, then, token by token, what is put back before them. -/

open Supply (lexer items)

namespace Lexer

variable {l : Lexer} {t : Token} {ts : List Token}

def unread (l : Lexer) : List Item := Scan.all l.position l.rest

theorem stream_eq (l : Lexer) : l.stream = l.pending.map .ok ++ l.unread := rfl

theorem next_of_pending (h : l.pending = t :: ts) :
    lexer.next l = (some (.ok t), { l with pending := ts }) := by
  have hnext : l.next = .token t { l with pending := ts } := by
    unfold next
    split
    · rename_i hl
      obtain ⟨rfl, rfl⟩ := List.cons.inj (h.symm.trans hl)
      rfl
    · rename_i hl
      rw [hl] at h
      cases h
  simp only [lexer, hnext]

theorem next_of_pending_nil (h : l.pending = []) : ∃ m : Lexer,
    lexer.next l = (l.unread.head?, m) ∧ m.pending = [] ∧ m.unread = l.unread.tail ∧
      m.source = l.source := by
  cases hfirst : Scan.first l.position l.rest with
  | none =>
    have hunread : l.unread = [] := Scan.all_of_none hfirst
    refine ⟨l, ?_, h, by rw [hunread]; rfl, rfl⟩
    simp only [lexer, next_of_none h hfirst, hunread, List.head?_nil]
  | some x =>
    obtain ⟨m, hnext, hsource, hpending, hposition, hrest⟩ := next_of_some h hfirst
    have hunread : l.unread = x.item :: m.unread := by
      rw [unread, Scan.all_of_some hfirst, unread, hposition, hrest]
    refine ⟨m, ?_, hpending, by rw [hunread, List.tail_cons], hsource⟩
    rw [hunread, List.head?_cons]
    cases hitem : x.item with
    | ok t => simp only [lexer, hnext, hitem]
    | error e => simp only [lexer, hnext, hitem]

/-- One request is answered from the front of the stream. -/
theorem next_stream (l : Lexer) : (lexer.next l).1 = l.stream.head? ∧
    (lexer.next l).2.stream = l.stream.tail ∧ (lexer.next l).2.source = l.source := by
  cases hp : l.pending with
  | nil =>
    obtain ⟨m, hnext, hpending, hunread, hsource⟩ := next_of_pending_nil hp
    simp only [hnext, stream_eq, hp, hpending, hunread, hsource, List.map_nil, List.nil_append,
      and_self]
  | cons t ts =>
    rw [next_of_pending hp, stream_eq l, hp]
    exact ⟨rfl, rfl, rfl⟩

theorem answers_eq (l : Lexer) (rs : List Request) :
    lexer.answers l rs = items.answers l.stream rs := by
  induction rs generalizing l with
  | nil => rfl
  | cons r rs ih =>
    cases r with
    | next =>
      obtain ⟨hanswer, hstream, -⟩ := next_stream l
      rw [Supply.answers_next, Supply.answers_next, hanswer, ih, hstream]
      rfl
    | putBack t =>
      rw [Supply.answers_putBack, Supply.answers_putBack, ih]
      rfl

theorem source_after (l : Lexer) (rs : List Request) : (lexer.after l rs).source = l.source := by
  induction rs generalizing l with
  | nil => rfl
  | cons r rs ih =>
    cases r with
    | next => exact (ih (lexer.next l).2).trans (next_stream l).2.2
    | putBack t => exact ih (l.putBack t)

/-- What is answered while nothing put back is waiting is scanned, item by item, and what is put back
between does not change it. -/
theorem answersWhile_eq (l : Lexer) (rs : List Request) : ∃ n,
    lexer.answersWhile (fun l => l.pending.isEmpty) l rs =
      items.answers l.unread (List.replicate n .next) := by
  induction rs generalizing l with
  | nil => exact ⟨0, rfl⟩
  | cons r rs ih =>
    cases r with
    | next =>
      obtain ⟨n, hn⟩ := ih (lexer.next l).2
      rw [Supply.answersWhile_next, hn]
      cases hp : l.pending with
      | nil =>
        obtain ⟨m, hnext, -, hunread, -⟩ := next_of_pending_nil hp
        refine ⟨n + 1, ?_⟩
        rw [hnext, hunread, List.replicate_succ, Supply.answers_next]
        rfl
      | cons t ts =>
        rw [next_of_pending hp]
        exact ⟨n, rfl⟩
    | putBack t =>
      obtain ⟨n, hn⟩ := ih (l.putBack t)
      exact ⟨n, hn⟩

/-- However requests for the next item and tokens put back follow each other, a lexer answers as one
list, which begins as all that it answers when it is only asked. While nothing put back is waiting, it
goes on in that where it was. Its text stays what it was. -/
theorem answers_requests (s : Text) : ∃ is : List Item, Answers (ofText s) is ∧
    (∀ rs, lexer.answers (ofText s) rs = items.answers is rs) ∧
    (∀ rs, ∃ n, lexer.answersWhile (fun l => l.pending.isEmpty) (ofText s) rs =
      items.answers is (List.replicate n .next)) ∧
    ∀ rs, (lexer.after (ofText s) rs).source = s :=
  ⟨Scan.all 0 s, answers_stream (ofText s), answers_eq (ofText s), answersWhile_eq (ofText s),
    source_after (ofText s)⟩

/-- A token made by hand goes before what was put back earlier, and scanning goes on after the text
that is no token. At the end a token can still be put back. -/
example :
    let t : Token := ⟨.number, ['7'], 40⟩
    let u : Token := ⟨.ans, Lexeme.answerWord, 0⟩
    lexer.answers (ofText "(é".toList)
      [.next, .putBack u, .putBack t, .next, .next, .next, .next, .putBack t, .next, .next] =
    [some (.ok ⟨.openParen, ['('], 0⟩), some (.ok t), some (.ok u), some (.error ⟨['é'], 1⟩), none,
      some (.ok t), none] := by
  intro t u
  rw [answers_eq]
  decide +kernel

end Lexer
end DeskCalculator
