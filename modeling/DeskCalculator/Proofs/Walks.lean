import DeskCalculator.Expression.Value
import DeskCalculator.Proofs.Tiling

/-! A walk through the tree of a line from left to right is a walk through the line. The tokens of a
part say the words of its tree, whatever comes after them, so nothing in a line is lost, doubled or
moved when operands are joined. -/
namespace DeskCalculator
namespace TokenKind

/-- How tokens of the kind are written, if the kind alone says it. -/
def word? : TokenKind → Option Text
  | .ans => some Lexeme.answerWord
  | .blank | .number => none
  | k => some [k.tag]

theorem word?_of_operator? {k : TokenKind} {op : BinaryOp} (h : k.operator? = some op) :
    k.word? = some [op.symbol] := by
  rw [symbol_of_operator? h]
  cases k <;> simp [operator?] at h <;> rfl

theorem word?_of_sign? {k : TokenKind} {s : Sign} (h : k.sign? = some s) :
    k.word? = some [s.symbol] := by
  rw [symbol_of_sign? h]
  cases k <;> simp [sign?] at h <;> rfl

end TokenKind

theorem Lexeme.IsFront.text_eq {s v : Text} {w : Lexeme} {k : TokenKind} (h : IsFront s w)
    (hk : w.kind = some k) (hv : k.word? = some v) : w.text = v := by
  cases h with
  | symbol hc =>
    cases hk
    cases hc <;> cases hv <;> rfl
  | ans =>
    cases hk
    cases hv
    rfl
  | number _ _ =>
    cases hk
    cases hv
  | runsOn _ _ => cases hk
  | unknown _ _ _ => cases hk

namespace Token

variable {t o c : Token} {ts us : List Token} {v : Text} {after : Bool}

def IsSpelled (t : Token) : Prop := ∀ v, t.kind.word? = some v → t.text = v

theorem isSpelled_of_mem_all {p : Nat} {s : Text} (h : .ok t ∈ Scan.all p s) :
    t.IsSpelled := by
  intro v hv
  have hmem : t.lexeme ∈ s.lexemes := by
    rw [← Text.map_lexeme_all p s]
    exact List.mem_map_of_mem (f := Item.lexeme) h
  obtain ⟨c, cs, hfront⟩ := Text.exists_front_of_mem_lexemes hmem
  have hword := Lexeme.isFront_front c cs
  rw [hfront] at hword
  exact hword.text_eq rfl hv

theorem words_operator {op : BinaryOp} (ht : t.IsSpelled) (ho : t.kind.operator? = some op) :
    words after (t :: us) = [op.symbol] :: words false us := by
  rw [← ht _ (TokenKind.word?_of_operator? ho)]
  cases hk : t.kind <;> simp [hk, TokenKind.operator?] at ho <;>
    simp [words, hk, TokenKind.endsOperand]

theorem words_sign {s : Sign} (ht : t.IsSpelled) (hs : t.kind.sign? = some s) :
    words after (t :: us) = [s.symbol] :: words false us := by
  rw [← ht _ (TokenKind.word?_of_sign? hs)]
  cases hk : t.kind <;> simp [hk, TokenKind.sign?] at hs <;>
    simp [words, hk, TokenKind.endsOperand]

theorem words_close (hc : c.kind = .closeParen) : words after (c :: us) = words true us := by
  simp [words, hc, TokenKind.endsOperand]

theorem words_open (ho : o.kind = .openParen) : words false (o :: us) = words false us := by
  simp [words, ho, TokenKind.endsOperand]

theorem words_open_after (ho : o.kind = .openParen) :
    words true (o :: us) = [BinaryOp.mul.symbol] :: words false us := by
  simp [words, ho, TokenKind.endsOperand]

/-- What comes after the token `t` has as many words as tokens that are nodes wherever they stand,
and parentheses that are opened next to an operand. -/
theorem length_words (t : Token) (ts : List Token) (hts : ∀ u ∈ ts, u.kind ≠ .blank) :
    (words t.kind.endsOperand ts).length =
      ts.countP (fun u => u.kind.isNode) + ((t :: ts).zip ts).countP isAdjacent := by
  induction ts generalizing t with
  | nil => rfl
  | cons u us ih =>
    have hrest := ih u fun v hv => hts v (List.mem_cons_of_mem u hv)
    have hblank := hts u List.mem_cons_self
    rw [List.zip_cons_cons, List.countP_cons, List.countP_cons]
    cases hk : u.kind with
    | blank => exact absurd hk hblank
    | openParen =>
      rw [hk] at hrest
      cases ht : t.kind.endsOperand <;>
        simp [words, hk, ht, hrest, TokenKind.isNode, isAdjacent, Nat.add_assoc]
    | closeParen =>
      rw [hk] at hrest
      simp [words, hk, hrest, TokenKind.isNode, isAdjacent]
    | number | ans | plus | minus | star | slash =>
      rw [hk] at hrest
      simp [words, hk, hrest, TokenKind.isNode, isAdjacent, Nat.add_right_comm]

theorem length_words_line (ts : List Token) (hts : ∀ t ∈ ts, t.kind ≠ .blank) :
    (words false ts).length =
      ts.countP (fun t => t.kind.isNode) + (ts.zip ts.tail).countP isAdjacent := by
  have hline := length_words ⟨.blank, [], 0⟩ ts hts
  cases ts with
  | nil => rfl
  | cons t ts => simpa [isAdjacent, TokenKind.endsOperand] using hline

end Token

/-- The tokens of a part say the words of its tree and leave an operand behind them, whatever comes
next. -/
theorem Derives.words {p : Part} {ts : List Token} {x : Expr} {n : Nat} (h : Derives p ts x n)
    (hts : ∀ t ∈ ts, t.IsSpelled) (us : List Token) :
    Token.words false (ts ++ us) = x.words ++ Token.words true us := by
  induction h generalizing us with
  | operand _ ih => exact ih hts us
  | @join _ ls rs t op x y _ _ _ ho _ _ ihl ihr =>
    have hleft := ihl (fun u hu => hts u (by simp [hu])) (t :: rs ++ us)
    have hright := ihr (fun u hu => hts u (by simp [hu])) us
    have hjoin : Token.words true (t :: (rs ++ us)) = _ :=
      Token.words_operator (hts t (by simp)) ho
    rw [hright] at hjoin
    simpa [hjoin, Expr.words] using hleft
  | unsigned _ ih => exact ih hts us
  | @sign t s ts x _ hs _ ih =>
    have hrest := ih (fun u hu => hts u (by simp [hu])) us
    have hsign : Token.words false (t :: (ts ++ us)) = _ :=
      Token.words_sign (hts t (by simp)) hs
    rw [hrest] at hsign
    simpa [Expr.words] using hsign
  | @number t hk => simp [Token.words, hk, Expr.words, TokenKind.endsOperand]
  | @ans t hk =>
    have htext : t.text = Lexeme.answerWord := hts t (by simp) _ (by rw [hk]; rfl)
    simp [Token.words, hk, htext, Expr.words, TokenKind.endsOperand]
  | @group o c ts x _ ho _ hc ih =>
    have hinner := ih (fun u hu => hts u (by simp [hu])) (c :: us)
    have hopen : Token.words false (o :: (ts ++ c :: us)) = _ := Token.words_open ho
    rw [hinner, Token.words_close hc] at hopen
    simpa using hopen
  | @juxtaposed o c ls ts x y _ _ _ ho _ hc ihl ihr =>
    have hleft := ihl (fun u hu => hts u (by simp [hu])) (o :: (ts ++ c :: us))
    have hinner := ihr (fun u hu => hts u (by simp [hu])) (c :: us)
    have hopen : Token.words true (o :: (ts ++ c :: us)) = _ := Token.words_open_after ho
    rw [hinner, Token.words_close hc] at hopen
    simpa [hopen, Expr.words] using hleft

theorem words_of_parse {s : Text} {x : Expr} (h : parse s = .ok x) :
    x.words = Token.words false s.tokens := by
  obtain ⟨ts, n, hs, hx, -⟩ := parse_ok_iff.1 h
  have hmem : ∀ t ∈ ts, Except.ok t ∈ Scan.all 0 s := by
    intro t ht
    rw [hs]
    exact List.mem_map_of_mem ht
  have hspelled := hx.words (fun t ht => Token.isSpelled_of_mem_all (hmem t ht)) []
  rw [Text.tokens_of_all hs]
  simpa [Token.words] using hspelled.symm

/-- A line that is read is all tokens, and these say the words of its tree from left to right: no
parenthesis is a word, but one opened right after an operand is a product. So the tree has a node
for each of these words. -/
theorem parse_words {s : Text} {x : Expr} (h : parse s = .ok x) :
    Scan.all 0 s = s.tokens.map .ok ∧ x.words = Token.words false s.tokens ∧
    x.nodeCount = s.tokens.countP (fun t => t.kind.isNode) +
      (s.tokens.zip s.tokens.tail).countP Token.isAdjacent := by
  obtain ⟨ts, n, hs, hx, -⟩ := parse_ok_iff.1 h
  have htokens := Text.tokens_of_all hs
  have hblank : ∀ t ∈ s.tokens, t.kind ≠ .blank := by
    intro t ht
    have hmem : Except.ok t ∈ Scan.all 0 s := by
      rw [hs, ← htokens]
      exact List.mem_map_of_mem ht
    exact (Scan.ne_nil_of_mem_all hmem).2 t rfl
  have hcount := Token.length_words_line s.tokens hblank
  rw [← words_of_parse h, Expr.length_words] at hcount
  exact ⟨by rw [hs, htokens], words_of_parse h, hcount⟩

/-- The groups after `12/2` and after another group are products, and the last one is not. -/
theorem parse_words_groups :
    let s : Text := "-12/2(.5)((ans)+1)*(4.)".toList
    let x : Expr := .binary .mul
      (.binary .div (.signed .minus (.number "12".toList))
        (.binary .mul (.binary .mul (.number "2".toList) (.number ".5".toList))
          (.binary .add .ans (.number "1".toList))))
      (.number "4.".toList)
    parse s = .ok x ∧
    x.words = ["-", "12", "/", "2", "*", ".5", "*", "ans", "+", "1", "*", "4."].map
      String.toList ∧
    x.words = Token.words false s.tokens ∧ x.nodeCount = 10 + 2 := by
  intro s x
  have hparse : parse s = .ok x := by decide +kernel
  obtain ⟨-, hwords, hcount⟩ := parse_words hparse
  have hnodes : s.tokens.countP (fun t => t.kind.isNode) = 10 := by decide +kernel
  have hproducts : (s.tokens.zip s.tokens.tail).countP Token.isAdjacent = 2 := by decide +kernel
  rw [hnodes, hproducts] at hcount
  exact ⟨hparse, rfl, hwords, hcount⟩

end DeskCalculator
