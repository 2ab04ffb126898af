import DeskCalculator.Proofs.Recognition

/-! The nodes that a line builds, token by token, are those of the tree that the parser makes of it
without a limit. Where a part begins, the parser is about to read it, and what it reads there stands
below the root of all that it reads. -/
namespace DeskCalculator
namespace Reading

variable {limit : Limit} {j : Joint} {c : Call} {d n : Nat} {s r : List Item}
  {pre ts : List Token} {t o : Token} {op : BinaryOp} {sg : Sign} {x y z : Expr}

theorem Reads.left_isSubtree (h : Reads limit c d s y r) :
    ∀ j left, c = .more j left → left.IsSubtree y := by
  induction h with
  | spine _ _ _ _ => exact fun i left hi => nomatch hi
  | done _ =>
    rintro i left ⟨⟩
    exact .refl
  | @joined j d t op s m r x y z _ _ _ _ _ ihr =>
    rintro i left ⟨⟩
    have hjoined : (Expr.binary op x y).IsSubtree z := ihr _ _ rfl
    have hleft : x.IsSubtree (.binary op x y) := .left op y .refl
    exact hleft.trans hjoined
  | sign _ _ _ _ _ => exact fun i left hi => nomatch hi
  | unsigned _ _ _ => exact fun i left hi => nomatch hi
  | number _ => exact fun i left hi => nomatch hi
  | ans _ => exact fun i left hi => nomatch hi
  | opened _ _ _ => exact fun i left hi => nomatch hi
  | closed _ _ _ _ => exact fun i left hi => nomatch hi

theorem Reads.of_spine (h : Reads limit (.spine j) d s y r) :
    ∃ x m, Reads limit j.first d s x m ∧ x.IsSubtree y := by
  cases h with
  | @spine _ _ _ m _ x _ hx hm => exact ⟨x, m, hx, hm.left_isSubtree _ _ rfl⟩

theorem Reads.of_more (h : Reads limit (.more j x) d (.ok t :: s) z r)
    (ho : j.op? t.kind = some op) :
    ∃ y m, Reads limit (j.next t) d s y m ∧ (Expr.binary op x y).IsSubtree z := by
  cases h with
  | done hs => simp [ho] at hs
  | @joined _ _ _ _ _ m _ _ y _ ho' hy _ hz =>
    obtain rfl := Option.some.inj (ho.symm.trans ho')
    exact ⟨y, m, hy, hz.left_isSubtree _ _ rfl⟩

theorem Reads.of_sign (h : Reads limit .signed d (.ok t :: s) y r)
    (ht : t.kind.sign? = some sg) :
    ∃ x, Reads limit .signed (d + 1) s x r ∧ y = .signed sg x := by
  cases h with
  | @sign _ _ _ _ _ x ht' _ hx _ =>
    obtain rfl := Option.some.inj (ht.symm.trans ht')
    exact ⟨x, hx, rfl⟩
  | unsigned hn _ => simp [ht] at hn

theorem Reads.of_unsigned (h : Reads limit .signed d s y r) (hs : (Call.spine .adjacent).Ready s) :
    Reads limit (.spine .adjacent) d s y r := by
  cases h with
  | sign ht _ _ _ =>
    have hn := hs
    simp [Call.Ready, ht] at hn
  | unsigned _ hx => exact hx

theorem Reads.of_group (h : Reads limit (.group o) d s y r) :
    ∃ m, Reads limit .expression (d + 1) s y m := by
  cases h with
  | @closed _ _ c _ _ _ _ hx _ => exact ⟨.ok c :: r, hx⟩

theorem Reads.of_atom (h : Reads limit .atom d (.ok o :: s) y r) (ho : o.kind = .openParen) :
    Reads limit (.group o) d s y r := by
  cases h with
  | number hk => simp [ho] at hk
  | ans hk => simp [ho] at hk
  | opened _ hx => exact hx

def partCall : Part → Call
  | .chain tier => .spine (.operator tier)
  | .signed => .signed
  | .primary => .spine .adjacent

theorem partCall_operands (tier : Tier) : partCall tier.operands = (Joint.operator tier).first := by
  cases tier <;> rfl

/-- Without a limit, what is derived at the front of a stream is read first. -/
theorem reads_more_of_spine (h : Derives j.part ts x n) (hs : j.first.Ends s)
    (hz : Reads none (.spine j) d (ts.map .ok ++ s) z r) : Reads none (.more j x) d s z r := by
  have hpart : PartReads none j.part ts x n := reads_of_derives h rfl
  have hspine : SpineReads none j ts x n := by
    cases j with
    | operator tier => exact hpart
    | adjacent => exact hpart
  exact (hspine d s z r rfl hs).1 hz

theorem ready_of_primary (h : Derives .primary ts x n) :
    (Call.spine .adjacent).Ready (ts.map .ok ++ s) := by
  obtain ⟨t, us, rfl, ht⟩ := head_of_primary h
  exact ht

/-- In a line that is read as `z`, what begins after the tokens `pre` is read as a tree in `z`. -/
theorem reads_of_begins {p : Part} (h : Begins p d pre) (hs : (partCall p).Ready s)
    (hz : Reads none .expression 0 (pre.map .ok ++ s) z []) :
    ∃ y r, Reads none (partCall p) d s y r ∧ y.IsSubtree z := by
  induction h generalizing s with
  | line => exact ⟨z, [], hz, .refl⟩
  | @operand tier d pre _ ih =>
    obtain ⟨y, r, hy, hsub⟩ := ih trivial hz
    obtain ⟨x, m, hx, hsub'⟩ := hy.of_spine
    rw [partCall_operands]
    exact ⟨x, m, hx, hsub'.trans hsub⟩
  | @join tier d n pre ls t op x _ hl ho ht ih =>
    have hj : (Joint.operator tier).op? t.kind = some op := op?_operator.2 ⟨ho, ht⟩
    obtain ⟨y, r, hy, hsub⟩ := ih (s := ls.map .ok ++ .ok t :: s) trivial (by simpa using hz)
    have hmore := reads_more_of_spine (j := .operator tier) hl (first_ends_of_op? hj) hy
    obtain ⟨y', m, hy', hsub'⟩ := hmore.of_more hj
    have hright : y'.IsSubtree (.binary op x y') := .right op x .refl
    rw [Joint.next_operator] at hy'
    rw [partCall_operands]
    exact ⟨y', m, hy', hright.trans (hsub'.trans hsub)⟩
  | @sign d pre t sg _ ht ih =>
    obtain ⟨y, r, hy, hsub⟩ := ih (s := .ok t :: s) trivial (by simpa using hz)
    obtain ⟨x, hx, rfl⟩ := hy.of_sign ht
    have hinner : x.IsSubtree (.signed sg x) := .signed sg .refl
    exact ⟨x, r, hx, hinner.trans hsub⟩
  | unsigned _ ih =>
    obtain ⟨y, r, hy, hsub⟩ := ih trivial hz
    exact ⟨y, r, hy.of_unsigned hs, hsub⟩
  | @group d pre o _ ho ih =>
    have hready : (Call.spine .adjacent).Ready (.ok o :: s) := by
      simp [Call.Ready, ho, TokenKind.sign?]
    obtain ⟨y, r, hy, hsub⟩ := ih hready (by simpa using hz)
    obtain ⟨x, m, hx, hsub'⟩ := hy.of_spine
    obtain ⟨m', hinner⟩ := (hx.of_atom ho).of_group
    exact ⟨x, m', hinner, hsub'.trans hsub⟩
  | @juxtaposed d n pre ls o x _ hl ho ih =>
    have hready : (Call.spine .adjacent).Ready (ls.map .ok ++ .ok o :: s) := ready_of_primary hl
    obtain ⟨y, r, hy, hsub⟩ := ih hready (by simpa using hz)
    have hmore := reads_more_of_spine (j := .adjacent) hl trivial hy
    obtain ⟨y', m, hy', hsub'⟩ := hmore.of_more (op?_adjacent.2 ⟨ho, rfl⟩)
    have hright : y'.IsSubtree (.binary .mul x y') := .right .mul x .refl
    obtain ⟨m', hinner⟩ := hy'.of_group
    exact ⟨y', m', hinner, hright.trans (hsub'.trans hsub)⟩

end Reading

open Reading

theorem Builds.isSubtree {pre : List Token} {t : Token} {post : List Item} {x z : Expr}
    (h : Builds pre t post x)
    (hz : Reads none .expression 0 (pre.map .ok ++ .ok t :: post) z []) : x.IsSubtree z := by
  cases h with
  | @sign d n _ ts _ sg rest x hb hs hx he =>
    obtain ⟨y, r, hy, hsub⟩ := reads_of_begins hb trivial hz
    obtain ⟨x', hx', rfl⟩ := hy.of_sign hs
    have hpart : PartReads none .signed ts x n := reads_of_derives hx rfl
    obtain ⟨rfl, -⟩ := (hpart (d + 1) rest rfl he).unique hx'
    exact hsub
  | @join tier d m n pre ls rs _ op rest x y hb hl ho ht hr he =>
    have hj : (Joint.operator tier).op? t.kind = some op := op?_operator.2 ⟨ho, ht⟩
    obtain ⟨y', r, hy', hsub⟩ := reads_of_begins hb
      (s := ls.map .ok ++ .ok t :: (rs.map .ok ++ rest)) trivial (by simpa using hz)
    have hmore := reads_more_of_spine (j := .operator tier) hl (first_ends_of_op? hj) hy'
    obtain ⟨w, k, hw, hsub'⟩ := hmore.of_more hj
    have hends : (Joint.operator tier).first.Ends rest := by
      cases tier <;> exact he
    have hpart : PartReads none tier.operands rs y n := reads_of_derives hr rfl
    rw [Joint.next_operator] at hw
    obtain ⟨rfl, -⟩ := (hpart.operand rfl hends).unique hw
    exact hsub'.trans hsub
  | @juxtaposed d m n pre ls ts _ c rest x y hb hl ho hr hc =>
    have hready : (Call.spine .adjacent).Ready
        (ls.map .ok ++ .ok t :: (ts.map .ok ++ .ok c :: rest)) := ready_of_primary hl
    obtain ⟨y', r, hy', hsub⟩ := reads_of_begins hb hready (by simpa using hz)
    have hmore := reads_more_of_spine (j := .adjacent) hl trivial hy'
    obtain ⟨w, k, hw, hsub'⟩ := hmore.of_more (op?_adjacent.2 ⟨ho, rfl⟩)
    have hpart : SpineReads none (.operator .sum) ts y n := reads_of_derives hr rfl
    have hgroup : Reads none (.group t) d (ts.map .ok ++ .ok c :: rest) y rest :=
      hpart.group rfl hc
    obtain ⟨rfl, -⟩ := hgroup.unique hw
    exact hsub'.trans hsub

end DeskCalculator
