import DeskCalculator.Json
import Mathlib.Data.List.Basic

/-! No text stands for two values by the grammar of JSON. The parts of a text are told apart by
where they end, so each is shown to have one reading before all that may follow it: a number ends
before what is no character of a number, white space before what is none, and a value in a list
before a comma or a closing bracket. -/
namespace DeskCalculator
namespace Json

variable {α : Type} {g g' r r' s t u : Text} {c c' e : Char} {v w : Value}

/-- Where `Follows` holds of what comes after it, a text for `a` stands for nothing else, and it
ends in one place only. -/
def Unambiguous (IsPart : α → Text → Prop) (Follows : Text → Prop) (a : α) : Prop :=
  ∀ b t u r q, IsPart a t → IsPart b u → Follows r → Follows q → t ++ r = u ++ q → a = b ∧ r = q

theorem append_inj_of_all {p : Char → Bool} (hg : g.all p = true) (hg' : g'.all p = true)
    (hr : r.takeWhile p = []) (hr' : r'.takeWhile p = []) (h : g ++ r = g' ++ r') :
    g = g' ∧ r = r' := by
  have hcut : ∀ {l q : Text}, l.all p = true → q.takeWhile p = [] → (l ++ q).takeWhile p = l := by
    intro l q hl hq
    rw [List.takeWhile_append_of_pos (by simpa using hl), hq, List.append_nil]
  have hgg : g = g' := by rw [← hcut hg hr, h, hcut hg' hr']
  exact ⟨hgg, List.append_cancel_left (hgg ▸ h)⟩

/-! ### Strings -/

theorem IsUnit.unique {m n : Nat} (hm : IsUnit m t) (hn : IsUnit n u) (h : t ++ r = u ++ r') :
    m = n ∧ r = r' := by
  cases hm
  cases hn
  simp only [List.cons_append, List.nil_append, List.cons.injEq] at h
  obtain ⟨rfl, rfl, rfl, rfl, rfl⟩ := h
  simp_all

theorem toNat_ne_surrogate (c : Char) {m : Nat} (hm : m < 0x400) : c.toNat ≠ 0xd800 + m := by
  have hvalid := c.valid
  have hnat : c.val.toNat = c.toNat := rfl
  simp only [UInt32.isValidChar, Nat.isValidChar, hnat] at hvalid
  omega

theorem IsCharacter.head (h : IsCharacter c t) : ∃ d u, t = d :: u ∧ d ≠ '"' := by
  cases h with
  | plain _ hq _ => exact ⟨c, [], rfl, hq⟩
  | short _ => exact ⟨'\\', _, rfl, by decide⟩
  | unit _ => exact ⟨'\\', _, rfl, by decide⟩
  | pair _ _ _ _ _ => exact ⟨'\\', _, rfl, by decide⟩

theorem IsCharacter.unique (hc : IsCharacter c t) (hc' : IsCharacter c' u)
    (h : t ++ r = u ++ r') : c = c' ∧ r = r' := by
  cases hc with
  | plain _ _ hb =>
    cases hc' with
    | plain _ _ _ => exact List.cons.inj h
    | short _ | unit _ | pair _ _ _ _ _ => exact absurd (List.cons.inj h).1 hb
  | short he =>
    cases hc' with
    | plain _ _ hb => exact absurd (List.cons.inj h).1.symm hb
    | short he' =>
      simp only [List.cons_append, List.nil_append, List.cons.injEq, true_and] at h
      obtain ⟨rfl, rfl⟩ := h
      exact ⟨Option.some.inj (he.symm.trans he'), rfl⟩
    | unit _ | pair _ _ _ _ _ =>
      simp only [List.cons_append, List.cons.injEq, true_and] at h
      obtain ⟨rfl, -⟩ := h
      cases he
  | unit hu =>
    cases hc' with
    | plain _ _ hb => exact absurd (List.cons.inj h).1.symm hb
    | short he =>
      simp only [List.cons_append, List.cons.injEq, true_and] at h
      obtain ⟨rfl, -⟩ := h
      cases he
    | unit hu' =>
      simp only [List.cons_append, List.cons.injEq, true_and] at h
      obtain ⟨hn, hr⟩ := hu.unique hu' h
      exact ⟨Char.toNat_inj.1 hn, hr⟩
    | pair hm _ _ hu' _ =>
      -- The first half of a pair would be a character by itself.
      simp only [List.cons_append, List.append_assoc, List.cons.injEq, true_and] at h
      exact absurd (hu.unique hu' h).1 (toNat_ne_surrogate c hm)
  | pair hm _ hc hu hl =>
    cases hc' with
    | plain _ _ hb => exact absurd (List.cons.inj h).1.symm hb
    | short he =>
      simp only [List.cons_append, List.cons.injEq, true_and] at h
      obtain ⟨rfl, -⟩ := h
      cases he
    | unit hu' =>
      simp only [List.cons_append, List.append_assoc, List.cons.injEq, true_and] at h
      exact absurd (hu.unique hu' h).1.symm (toNat_ne_surrogate c' hm)
    | pair _ _ hc' hu' hl' =>
      simp only [List.cons_append, List.append_assoc, List.cons.injEq, true_and] at h
      obtain ⟨hm, hlow⟩ := hu.unique hu' h
      simp only [List.cons.injEq, true_and] at hlow
      obtain ⟨hn, hr⟩ := hl.unique hl' hlow
      exact ⟨Char.toNat_inj.1 (by omega), hr⟩

theorem IsBody.unique (hs : IsBody s t) {s' : Text} (hs' : IsBody s' u)
    (h : t ++ '"' :: r = u ++ '"' :: r') : s = s' ∧ r = r' := by
  induction hs generalizing s' u with
  | nil =>
    cases hs' with
    | nil => exact ⟨rfl, (List.cons.inj h).2⟩
    | cons hc _ =>
      obtain ⟨d, v, rfl, hd⟩ := hc.head
      exact absurd (List.cons.inj h).1.symm hd
  | cons hc _ ih =>
    cases hs' with
    | nil =>
      obtain ⟨d, v, rfl, hd⟩ := hc.head
      exact absurd (List.cons.inj h).1 hd
    | cons hc' hs' =>
      rw [List.append_assoc, List.append_assoc] at h
      obtain ⟨rfl, hrest⟩ := hc.unique hc' h
      obtain ⟨rfl, hr⟩ := ih hs' hrest
      exact ⟨rfl, hr⟩

theorem IsString.unique {s' : Text} (hs : IsString s t) (hs' : IsString s' u)
    (h : t ++ r = u ++ r') : s = s' ∧ r = r' := by
  cases hs with
  | intro hb =>
    cases hs' with
    | intro hb' =>
      simp only [List.cons_append, List.append_assoc, List.nil_append, List.cons.injEq,
        true_and] at h
      exact hb.unique hb' h

/-! ### Numbers -/

def inNumber (c : Char) : Bool :=
  c.isDigit || c == '-' || c == '+' || c == '.' || c == 'e' || c == 'E'

def Stops (r : Text) : Prop := r.takeWhile inNumber = []

theorem inNumber_of_isDigit (h : c.isDigit = true) : inNumber c = true := by
  simp [inNumber, h]

theorem all_inNumber (h : s.all Char.isDigit = true) : s.all inNumber = true := by
  rw [List.all_eq_true] at h ⊢
  exact fun c hc => inNumber_of_isDigit (h c hc)

theorem IsWhole.all_inNumber (h : IsWhole t) : t.all inNumber = true := by
  cases h with
  | zero => rfl
  | digits hc _ hds => simp [inNumber_of_isDigit hc, Json.all_inNumber hds]

theorem IsFraction.all_inNumber (h : IsFraction t) : t.all inNumber = true := by
  cases h with
  | none => rfl
  | digits hds _ => simpa [inNumber] using Json.all_inNumber hds

theorem all_inNumber_of_isExponent (h : Numeral.IsExponent t) : t.all inNumber = true := by
  have hsign : ∀ {s : Text}, Numeral.IsSign s → s.all inNumber = true := by
    intro s hs
    cases hs <;> rfl
  cases h with
  | none => rfl
  | lower hs hds _ | upper hs hds _ =>
    rw [List.all_cons, List.all_append, hsign hs, Json.all_inNumber hds]
    rfl

theorem IsUnsigned.all_inNumber (h : IsUnsigned t) : t.all inNumber = true := by
  cases h with
  | intro hw hf he =>
    simp [hw.all_inNumber, hf.all_inNumber, all_inNumber_of_isExponent he]

theorem IsNumber.all_inNumber (h : IsNumber t) : t.all inNumber = true := by
  cases h with
  | plain h => exact h.all_inNumber
  | minus h => simpa [inNumber] using h.all_inNumber

theorem IsNumber.unique (ht : IsNumber t) (hu : IsNumber u) (hr : Stops r) (hr' : Stops r')
    (h : t ++ r = u ++ r') : t = u ∧ r = r' :=
  append_inj_of_all ht.all_inNumber hu.all_inNumber hr hr' h

/-! ### Values -/

inductive Kind
  | null
  | bool (b : Bool)
  | number
  | string
  | array
  | object
  deriving DecidableEq

def Value.kind : Value → Kind
  | .null => .null
  | .bool b => .bool b
  | .number _ => .number
  | .string _ => .string
  | .array _ => .array
  | .object _ => .object

def kindOf? (c : Char) : Option Kind :=
  if c = '-' ∨ c.isDigit = true then some .number
  else
    match c with
    | 'n' => some .null
    | 't' => some (.bool true)
    | 'f' => some (.bool false)
    | '"' => some .string
    | '[' => some .array
    | '{' => some .object
    | _ => none

def IsClosing (c : Char) : Prop := c = ']' ∨ c = '}'

theorem of_kindOf?_eq_some {k : Kind} (h : kindOf? c = some k) :
    isSpace c = false ∧ ¬ IsClosing c := by
  constructor
  · rw [Bool.eq_false_iff]
    intro hc
    simp only [isSpace, Bool.or_eq_true, beq_iff_eq] at hc
    rcases hc with ((rfl | rfl) | rfl) | rfl <;> cases h
  · rintro (rfl | rfl) <;> cases h

theorem IsUnsigned.head (h : IsUnsigned t) : ∃ c u, t = c :: u ∧ c.isDigit = true := by
  cases h with
  | intro hw _ _ =>
    cases hw with
    | zero => exact ⟨'0', _, rfl, rfl⟩
    | digits hc _ _ => exact ⟨_, _, rfl, hc⟩

theorem IsNumber.head (h : IsNumber t) : ∃ c u, t = c :: u ∧ kindOf? c = some .number := by
  cases h with
  | plain h =>
    obtain ⟨c, u, rfl, hc⟩ := h.head
    exact ⟨c, u, rfl, if_pos (.inr hc)⟩
  | minus h => exact ⟨'-', _, rfl, rfl⟩

/-- The first character of a value says what kind it is of. -/
theorem IsValue.head (h : IsValue v t) : ∃ c u, t = c :: u ∧ kindOf? c = some v.kind := by
  cases h with
  | null | boolTrue | boolFalse => exact ⟨_, _, rfl, rfl⟩
  | number h => exact h.head
  | string h =>
    cases h with
    | intro _ => exact ⟨'"', _, rfl, rfl⟩
  | array _ => exact ⟨'[', _, rfl, rfl⟩
  | object _ => exact ⟨'{', _, rfl, rfl⟩

theorem IsValue.kind_eq (hv : IsValue v t) (hw : IsValue w u) (h : t ++ r = u ++ r') :
    v.kind = w.kind := by
  obtain ⟨c, t', rfl, hc⟩ := hv.head
  obtain ⟨d, u', rfl, hd⟩ := hw.head
  obtain ⟨rfl, -⟩ := List.cons.inj h
  exact Option.some.inj (hc.symm.trans hd)

/-- What may follow a value with its white space: the end, a comma or a closing bracket. -/
def Ends (r : Text) : Prop := ∀ c u, r = c :: u → c = ',' ∨ IsClosing c

theorem ends_nil : Ends [] := nofun

theorem ends_comma : Ends (',' :: r) := by
  rintro _ _ ⟨⟩
  exact .inl rfl

theorem ends_closing (h : IsClosing c) : Ends (c :: r) := by
  rintro _ _ ⟨⟩
  exact .inr h

theorem Ends.takeWhile_isSpace (h : Ends r) : r.takeWhile isSpace = [] := by
  cases r with
  | nil => rfl
  | cons c u => rcases h c u rfl with rfl | rfl | rfl <;> rfl

theorem Ends.stops (h : Ends r) (hg : IsSpaces g) : Stops (g ++ r) := by
  cases g with
  | nil =>
    cases r with
    | nil => rfl
    | cons c u => rcases h c u rfl with rfl | rfl | rfl <;> rfl
  | cons c g =>
    have hc : isSpace c = true := (List.all_eq_true.1 hg) c (by simp)
    simp only [isSpace, Bool.or_eq_true, beq_iff_eq] at hc
    rcases hc with ((rfl | rfl) | rfl) | rfl <;> rfl

theorem IsValue.takeWhile_isSpace (h : IsValue v t) (r : Text) :
    (t ++ r).takeWhile isSpace = [] := by
  obtain ⟨c, u, rfl, hc⟩ := h.head
  simp [(of_kindOf?_eq_some hc).1]

theorem IsString.takeWhile_isSpace (h : IsString s t) (r : Text) :
    (t ++ r).takeWhile isSpace = [] := by
  cases h
  rfl

theorem unambiguous_element (hv : Unambiguous IsValue Stops v) :
    Unambiguous IsElement Ends v := by
  rintro w _ _ r q ⟨hg, hvt, hg'⟩ ⟨hk, hwu, hk'⟩ hr hq h
  simp only [List.append_assoc] at h
  obtain ⟨-, h⟩ := append_inj_of_all hg hk (hvt.takeWhile_isSpace _) (hwu.takeWhile_isSpace _) h
  obtain ⟨rfl, h⟩ := hv w _ _ _ _ hvt hwu (hr.stops hg') (hq.stops hk') h
  exact ⟨rfl, (append_inj_of_all hg' hk' hr.takeWhile_isSpace hq.takeWhile_isSpace h).2⟩

theorem unambiguous_member {k : Text} (hv : Unambiguous IsValue Stops v) :
    Unambiguous IsMember Ends (k, v) := by
  rintro _ _ _ r q ⟨hg, hk, hg', hvt⟩ ⟨hd, hl, hd', hwu⟩ hr hq h
  simp only [List.append_assoc, List.cons_append] at h
  obtain ⟨-, h⟩ := append_inj_of_all hg hd (hk.takeWhile_isSpace _) (hl.takeWhile_isSpace _) h
  obtain ⟨rfl, h⟩ := hk.unique hl h
  obtain ⟨-, h⟩ := append_inj_of_all hg' hd' rfl rfl h
  obtain ⟨rfl, h⟩ := unambiguous_element hv _ _ _ _ _ hvt hwu hr hq (List.cons.inj h).2
  exact ⟨rfl, h⟩

/-- White space may come first, and then something that does not close a list. -/
def Opens (t : Text) : Prop :=
  ∃ g c u, t = g ++ c :: u ∧ IsSpaces g ∧ isSpace c = false ∧ ¬ IsClosing c

theorem IsElement.opens (h : IsElement v t) : Opens t := by
  cases h with
  | intro hg hv _ =>
    obtain ⟨c, u, rfl, hc⟩ := hv.head
    exact ⟨_, c, _, rfl, hg, of_kindOf?_eq_some hc⟩

theorem IsMember.opens {m : Text × Value} (h : IsMember m t) : Opens t := by
  cases h with
  | intro hg hk _ _ =>
    cases hk
    exact ⟨_, '"', _, rfl, hg, rfl, by simp [IsClosing]⟩

theorem Opens.ne_spaces (h : Opens t) (hg : IsSpaces g) (hc : IsClosing c) :
    t ++ r ≠ g ++ c :: r' := by
  obtain ⟨g', d, u, rfl, hg', hd, hopen⟩ := h
  have hspace : isSpace c = false := by rcases hc with rfl | rfl <;> rfl
  intro h
  rw [List.append_assoc] at h
  obtain ⟨-, h⟩ := append_inj_of_all hg' hg (by simp [hd]) (by simp [hspace]) h
  obtain ⟨rfl, -⟩ := List.cons.inj h
  exact hopen hc

theorem IsListing.opens {IsPart : α → Text → Prop} (hpart : ∀ {a t}, IsPart a t → Opens t) {a : α}
    {as : List α} (h : IsListing IsPart (a :: as) t) : Opens t := by
  cases h with
  | last ha => exact hpart ha
  | more ha _ =>
    obtain ⟨g, c, u, rfl, hc⟩ := hpart ha
    exact ⟨g, c, u ++ _, by rw [List.append_assoc, List.cons_append], hc⟩

/-- Up to its closing bracket a list has one reading, if its parts have. -/
theorem IsListing.unique {IsPart : α → Text → Prop} (hpart : ∀ {a t}, IsPart a t → Opens t)
    (hc : IsClosing c) {as bs : List α} (has : ∀ a ∈ as, Unambiguous IsPart Ends a)
    (ha : IsListing IsPart as t) (hb : IsListing IsPart bs u)
    (h : t ++ c :: r = u ++ c :: r') : as = bs ∧ r = r' := by
  have hspace : isSpace c = false := by rcases hc with rfl | rfl <;> rfl
  have hcomma : c ≠ ',' := by rcases hc with rfl | rfl <;> decide
  induction ha generalizing bs u with
  | blank hg =>
    cases hb with
    | blank hg' =>
      obtain ⟨-, h⟩ := append_inj_of_all hg hg' (by simp [hspace]) (by simp [hspace]) h
      exact ⟨rfl, (List.cons.inj h).2⟩
    | last hb => exact absurd h.symm ((hpart hb).ne_spaces hg hc)
    | more hb hbs => exact absurd h.symm ((IsListing.more hb hbs).opens hpart |>.ne_spaces hg hc)
  | last ha =>
    have hunique := has _ List.mem_cons_self
    cases hb with
    | blank hg => exact absurd h ((hpart ha).ne_spaces hg hc)
    | last hb =>
      obtain ⟨rfl, h⟩ := hunique _ _ _ _ _ ha hb (ends_closing hc) (ends_closing hc) h
      exact ⟨rfl, (List.cons.inj h).2⟩
    | more hb _ =>
      rw [List.append_assoc] at h
      obtain ⟨-, h⟩ := hunique _ _ _ _ _ ha hb (ends_closing hc) ends_comma h
      exact absurd (List.cons.inj h).1 hcomma
  | more ha has' ih =>
    have hunique := has _ List.mem_cons_self
    cases hb with
    | blank hg => exact absurd h ((IsListing.more ha has').opens hpart |>.ne_spaces hg hc)
    | last hb =>
      rw [List.append_assoc] at h
      obtain ⟨-, h⟩ := hunique _ _ _ _ _ ha hb ends_comma (ends_closing hc) h
      exact absurd (List.cons.inj h).1.symm hcomma
    | more hb hbs =>
      rw [List.append_assoc, List.append_assoc] at h
      obtain ⟨rfl, h⟩ := hunique _ _ _ _ _ ha hb ends_comma ends_comma h
      obtain ⟨hrest, h⟩ := ih (fun a ha => has a (List.mem_cons_of_mem _ ha)) hbs
        (List.cons.inj h).2
      exact ⟨congrArg _ hrest, h⟩

def Value.parts : Value → List Value
  | .null => []
  | .bool _ => []
  | .number _ => []
  | .string _ => []
  | .array vs => vs
  | .object ms => ms.map Prod.snd

theorem Value.sizeOf_lt_of_mem_parts (h : w ∈ v.parts) : sizeOf w < sizeOf v := by
  cases v with
  | null | bool _ | number _ | string _ => cases h
  | array vs =>
    have hlt : sizeOf w < sizeOf vs := List.sizeOf_lt_of_mem h
    simp only [Value.array.sizeOf_spec]
    omega
  | object ms =>
    obtain ⟨⟨k, x⟩, hm, rfl⟩ := List.mem_map.1 h
    have hlt := List.sizeOf_lt_of_mem hm
    simp only [Prod.mk.sizeOf_spec, Value.object.sizeOf_spec] at hlt ⊢
    omega

/-- Only values of one kind begin alike, so a value has one reading if the values in it have. -/
theorem unambiguous_of_parts (hparts : ∀ x ∈ v.parts, Unambiguous IsValue Stops x) :
    Unambiguous IsValue Stops v := by
  intro w t u r q hv hw hr hq h
  have hkind := hv.kind_eq hw h
  cases hv with
  | null | boolTrue | boolFalse =>
    cases hw <;> cases hkind
    exact ⟨rfl, List.append_cancel_left h⟩
  | number hn =>
    cases hw with
    | number hn' =>
      obtain ⟨rfl, hrest⟩ := hn.unique hn' hr hq h
      exact ⟨rfl, hrest⟩
    | _ => cases hkind
  | string hs =>
    cases hw with
    | string hs' =>
      obtain ⟨rfl, hrest⟩ := hs.unique hs' h
      exact ⟨rfl, hrest⟩
    | _ => cases hkind
  | array hvs =>
    cases hw with
    | array hws =>
      simp only [List.cons_append, List.append_assoc, List.nil_append, List.cons.injEq,
        true_and] at h
      obtain ⟨rfl, hrest⟩ := hvs.unique IsElement.opens (.inl rfl)
        (fun x hx => unambiguous_element (hparts x hx)) hws h
      exact ⟨rfl, hrest⟩
    | _ => cases hkind
  | object hms =>
    cases hw with
    | object hns =>
      simp only [List.cons_append, List.append_assoc, List.nil_append, List.cons.injEq,
        true_and] at h
      have hmembers : ∀ m ∈ _, Unambiguous IsMember Ends m := fun m hm =>
        unambiguous_member (hparts m.2 (List.mem_map_of_mem hm))
      obtain ⟨rfl, hrest⟩ := hms.unique IsMember.opens (.inr rfl) hmembers hns h
      exact ⟨rfl, hrest⟩
    | _ => cases hkind

theorem unambiguous_value (v : Value) : Unambiguous IsValue Stops v :=
  unambiguous_of_parts fun x _ => unambiguous_value x
termination_by v
decreasing_by exact Value.sizeOf_lt_of_mem_parts ‹_›

theorem IsDocument.unique (hv : IsDocument v t) (hw : IsDocument w t) : v = w :=
  (unambiguous_element (unambiguous_value v) w t t [] [] hv hw ends_nil ends_nil rfl).1

end Json
end DeskCalculator
