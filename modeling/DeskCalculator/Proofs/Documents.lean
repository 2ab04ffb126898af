import DeskCalculator.Expression.Document
import DeskCalculator.Proofs.Ambiguity
import Mathlib.Tactic.SplitIfs

/-! What is written of an expression is a document of JSON, and the expression can be read off it.
-/
namespace DeskCalculator

section Decoding

namespace Json

variable {c : Char} {v : Value} {x y : Expr}

theorem hexDigit?_digitChar : ∀ n < 16, hexDigit? (Nat.digitChar n) = some n := by
  decide

theorem isUnit_control (h : c.toNat < 0x20) :
    IsUnit c.toNat ['0', '0', Nat.digitChar (c.toNat / 16), Nat.digitChar (c.toNat % 16)] := by
  have hzero : hexDigit? '0' = some 0 := rfl
  have hhigh := hexDigit?_digitChar (c.toNat / 16) (by omega)
  have hlow := hexDigit?_digitChar (c.toNat % 16) (by omega)
  have hsum : 4096 * 0 + 256 * 0 + 16 * (c.toNat / 16) + c.toNat % 16 = c.toNat := by omega
  have hunit := IsUnit.intro hzero hzero hhigh hlow
  rwa [hsum] at hunit

theorem isCharacter_escape (c : Char) : IsCharacter c (escape c) := by
  simp only [escape]
  split_ifs with hself hn hr ht hb hf hcontrol
  · rcases hself with rfl | rfl <;> exact .short rfl
  · exact hn ▸ .short rfl
  · exact hr ▸ .short rfl
  · exact ht ▸ .short rfl
  · exact hb ▸ .short rfl
  · exact hf ▸ .short rfl
  · exact .unit (isUnit_control hcontrol)
  · rw [not_or] at hself
    exact .plain (Nat.le_of_not_lt hcontrol) hself.1 hself.2

theorem isBody_escape (s : Text) : IsBody s (s.flatMap escape) := by
  induction s with
  | nil => exact .nil
  | cons c s ih => exact .cons (isCharacter_escape c) ih

theorem isString_quote (s : Text) : IsString s (quote s) := .intro (isBody_escape s)

theorem isSpaces_newLine (d : Nat) : IsSpaces (newLine d) := by
  simp [IsSpaces, newLine, isSpace]

/-- The members of an object, with the white space before its closing bracket. -/
def writeMembers (d e : Nat) : Members → Text
  | .nil => []
  | .cons k v rest =>
    newLine d ++ quote k ++ [':', ' '] ++ v.write d ++ writeRest d rest ++ newLine e

theorem write_object (d : Nat) (ms : Members) :
    write d (.object ms) = '{' :: (writeMembers (d + 1) d ms ++ ['}']) := by
  cases ms <;> simp [write, writeMembers]

theorem writeMembers_cons_cons (d e : Nat) (k l : Text) (v w : Json) (rest : Members) :
    writeMembers d e (.cons k v (.cons l w rest)) =
      (newLine d ++ quote k ++ [':', ' '] ++ v.write d) ++
        ',' :: writeMembers d e (.cons l w rest) := by
  simp [writeRest, writeMembers]

theorem isMember_write {d : Nat} {k t g : Text} (hv : IsValue v t) (hg : IsSpaces g) :
    IsMember (k, v) (newLine d ++ quote k ++ [':', ' '] ++ t ++ g) := by
  have hspace : IsSpaces [' '] := rfl
  have hmember := IsMember.intro (isSpaces_newLine d) (isString_quote k) (rfl : IsSpaces [])
    (.intro hspace hv hg)
  simpa using hmember

mutual

theorem isValue_write (d : Nat) : (v : Json) → IsValue v.value (v.write d)
  | .null => .null
  | .string s => .string (isString_quote s)
  | .object ms => by
    rw [write_object]
    exact .object (isListing_write (d + 1) d ms)

theorem isListing_write (d e : Nat) :
    (ms : Members) → IsListing IsMember ms.values (writeMembers d e ms)
  | .nil => .blank rfl
  | .cons k v .nil => by
    -- The white space before the closing bracket is taken for the end of the last member.
    have hmember := isMember_write (k := k) (d := d) (isValue_write d v) (isSpaces_newLine e)
    simpa [writeMembers, writeRest, Members.values] using IsListing.last hmember
  | .cons k v (.cons l w rest) => by
    have hmember := isMember_write (k := k) (d := d) (isValue_write d v) (rfl : IsSpaces [])
    have hrest := isListing_write d e (.cons l w rest)
    rw [writeMembers_cons_cons]
    rw [List.append_nil] at hmember
    exact .more hmember hrest

end

theorem isDocument_pretty (v : Json) : IsDocument v.value v.pretty := by
  have helement := IsElement.intro (rfl : IsSpaces []) (isValue_write 0 v) (rfl : IsSpaces [])
  simpa [IsDocument, pretty] using helement

/-- The type of a node leaves one constructor, and the keys that it has lead to one part each. -/
theorem Value.Denotes.unique (hx : v.Denotes x) (hy : v.Denotes y) : x = y := by
  induction hx generalizing y with
  | hole =>
    cases hy
    rfl
  | number ht hv =>
    cases hy with
    | number _ hv' =>
      rw [hv] at hv'
      cases hv'
      rfl
    | ans ht' | binary ht' | signed ht' => simp [ht] at ht'
  | ans ht =>
    cases hy with
    | ans _ => rfl
    | number ht' | binary ht' | signed ht' => simp [ht] at ht'
  | binary ht hl hr _ _ ihl ihr =>
    cases hy with
    | binary ht' hl' hr' hx' hy' =>
      simp only [ht, Option.some.injEq, Value.string.injEq, List.cons.injEq, true_and, and_true]
        at ht'
      rw [hl] at hl'
      rw [hr] at hr'
      cases hl'
      cases hr'
      rw [BinaryOp.symbol_injective ht', ihl hx', ihr hy']
    | number ht' | ans ht' | signed ht' => simp [ht] at ht'
  | signed ht hv _ ih =>
    cases hy with
    | signed ht' hv' hx' =>
      simp only [ht, Option.some.injEq, Value.string.injEq, List.cons.injEq, true_and, and_true]
        at ht'
      rw [hv] at hv'
      cases hv'
      rw [Sign.symbol_injective ht', ih hx']
    | number ht' | ans ht' | binary ht' => simp [ht] at ht'

theorem denotes_toJson (x : Expr) : x.toJson.value.Denotes x := by
  induction x with
  | hole => exact .hole
  | number t => exact .number rfl rfl
  | ans => exact .ans rfl
  | binary op l r ihl ihr => exact .binary rfl rfl rfl ihl ihr
  | signed s x ih => exact .signed rfl rfl ih

end Json

open Json

/-- The document of an expression has one reading: an object whose one member is the root, and the
value there denotes that expression and no other. So two expressions with one document are equal. -/
theorem Expr.isDocument_serialize (x : Expr) :
    (∃ v : Json.Value,
      (∀ w, IsDocument w x.serialize ↔ w = .object [("root".toList, v)]) ∧
      ∀ y, v.Denotes y ↔ y = x) ∧
    ∀ y : Expr, y.serialize = x.serialize ↔ y = x := by
  have hdocument : ∀ y : Expr, IsDocument (.object [("root".toList, y.toJson.value)]) y.serialize :=
    fun y => isDocument_pretty y.toDocument
  have hdenotes : ∀ y : Expr, x.toJson.value.Denotes y ↔ y = x := fun y =>
    ⟨fun h => h.unique (denotes_toJson x), fun h => h ▸ denotes_toJson x⟩
  refine ⟨⟨x.toJson.value, fun w => ⟨fun h => h.unique (hdocument x), ?_⟩, hdenotes⟩,
    fun y => ⟨fun h => ?_, congrArg Expr.serialize⟩⟩
  · rintro rfl
    exact hdocument x
  · have hsame := (h ▸ hdocument y).unique (hdocument x)
    have hvalue : y.toJson.value = x.toJson.value := by simpa using hsame
    exact (hdenotes y).1 (hvalue ▸ denotes_toJson y)

end Decoding

/-! How the text of an expression is put together from the texts of its parts. The writer carries a
depth downwards, and one level more of it moves the text of a value two spaces to the right. That
needs that no text in quotes holds a line feed, since such a line would be moved as well. -/

open Text (indent indent_append indent_cons indent_indent indent_of_not_mem count_indent)

namespace Json

theorem lineFeed_not_mem_escape (c : Char) : '\n' ∉ escape c := by
  have hdigit : ∀ n < 16, Nat.digitChar n ≠ '\n' := by decide
  simp only [escape]
  split_ifs with hself hn hr ht hb hf hcontrol
  · rcases hself with rfl | rfl <;> decide
  · decide
  · decide
  · decide
  · decide
  · decide
  · have hhigh := hdigit (c.toNat / 16) (by omega)
    have hlow := hdigit (c.toNat % 16) (by omega)
    simp [hhigh.symm, hlow.symm]
  · simpa using Ne.symm hn

theorem lineFeed_not_mem_quote (s : Text) : '\n' ∉ quote s := by
  simp [quote, lineFeed_not_mem_escape]

@[simp] theorem indent_quote (n : Nat) (s : Text) : indent n (quote s) = quote s :=
  indent_of_not_mem n (lineFeed_not_mem_quote s)

@[simp] theorem count_quote (s : Text) : (quote s).count '\n' = 0 :=
  List.count_eq_zero.2 (lineFeed_not_mem_quote s)

theorem newLine_add (n d : Nat) : newLine (n + d) = indent n (newLine d) := by
  have hspaces : indent n (List.replicate (2 * d) ' ') = List.replicate (2 * d) ' ' :=
    indent_of_not_mem n (by simp)
  rw [newLine, newLine, Text.indent_lineFeed, hspaces, Nat.mul_add, ← List.replicate_append_replicate]

mutual

/-- What is written some levels further in is that much further to the right, but for its first
line. -/
theorem write_add (n d : Nat) : (v : Json) → v.write (n + d) = indent n (v.write d)
  | .null => by
    rw [write, write]
    exact (indent_of_not_mem n (by decide)).symm
  | .string s => by rw [write, write, indent_quote]
  | .object .nil => by
    rw [write, write]
    exact (indent_of_not_mem n (by decide)).symm
  | .object (.cons k v rest) => by
    have hopen : '\x7b' ≠ '\n' := by decide
    have hcolon : indent n [':', ' '] = [':', ' '] := indent_of_not_mem n (by decide)
    have hclose : indent n ['\x7d'] = ['\x7d'] := indent_of_not_mem n (by decide)
    have hv := write_add n (d + 1) v
    have hrest := writeRest_add n (d + 1) rest
    have hline := newLine_add n (d + 1)
    rw [← Nat.add_assoc] at hv hrest hline
    rw [write, write, hv, hrest, hline, newLine_add n d, indent_cons hopen]
    simp only [indent_append, indent_quote, hcolon, hclose]

theorem writeRest_add (n d : Nat) :
    (ms : Members) → writeRest (n + d) ms = indent n (writeRest d ms)
  | .nil => rfl
  | .cons k v rest => by
    have hcomma : ',' ≠ '\n' := by decide
    have hcolon : indent n [':', ' '] = [':', ' '] := indent_of_not_mem n (by decide)
    rw [writeRest, writeRest, write_add n d v, writeRest_add n d rest, newLine_add n d,
      indent_cons hcomma]
    simp only [indent_append, indent_quote, hcolon]

end

theorem write_one (v : Json) : v.write 1 = indent 1 v.pretty := write_add 1 0 v

end Json

namespace Expr

open Json (quote write_one)

variable (x y l r : Expr) (f : Text → Text) (fs : List Frame)

/-! The text of each node. -/

theorem text_hole : text .hole = "null".toList := rfl

theorem text_number (t : Text) : text (.number t) =
    "\x7b\n  \"type\": \"number\",\n  \"value\": ".toList ++ quote t ++ "\n\x7d".toList := by
  simp [text, toJson, Json.pretty, Json.write, Json.writeRest, Json.newLine, typeKey, quote,
    Json.escape]

theorem text_binary (op : BinaryOp) : text (.binary op l r) =
    "\x7b\n  \"type\": \"b".toList ++ [op.symbol] ++ "\",\n  \"left\": ".toList ++
      indent 1 l.text ++ ",\n  \"right\": ".toList ++ indent 1 r.text ++ "\n\x7d".toList := by
  have hsymbol : quote ['b', op.symbol] = ['"', 'b', op.symbol, '"'] := by cases op <;> rfl
  rw [text, toJson, Json.pretty, text, text, ← write_one, ← write_one]
  simp only [Json.write, Json.writeRest, hsymbol]
  simp [Json.newLine, typeKey, quote, Json.escape]

theorem text_signed (s : Sign) : text (.signed s x) =
    "\x7b\n  \"type\": \"u".toList ++ [s.symbol] ++ "\",\n  \"operand\": ".toList ++
      indent 1 x.text ++ "\n\x7d".toList := by
  have hsymbol : quote ['u', s.symbol] = ['"', 'u', s.symbol, '"'] := by cases s <;> rfl
  rw [text, toJson, Json.pretty, text, ← write_one]
  simp only [Json.write, Json.writeRest, hsymbol]
  simp [Json.newLine, typeKey, quote, Json.escape]

theorem serialize_eq : x.serialize =
    "\x7b\n  \"root\": ".toList ++ indent 1 x.text ++ "\n\x7d".toList := by
  rw [serialize, toDocument, Json.pretty, text, ← write_one]
  simp [Json.write, Json.writeRest, Json.newLine, quote, Json.escape]

/-- One step down the tree: the text of an operand stands in that of the node, a level further in,
and the text around it is the same for every operand. -/
theorem text_fill (g : Frame) : ∃ before after, ∀ x : Expr,
    (g.fill x).text = before ++ indent 1 x.text ++ after := by
  cases g with
  | left op r =>
    refine ⟨"\x7b\n  \"type\": \"b".toList ++ [op.symbol] ++ "\",\n  \"left\": ".toList,
      ",\n  \"right\": ".toList ++ indent 1 r.text ++ "\n\x7d".toList, fun x => ?_⟩
    simp only [Frame.fill, text_binary, List.append_assoc]
  | right op l => exact ⟨_, _, fun x => text_binary l x op⟩
  | signed s => exact ⟨_, _, fun x => text_signed x s⟩

theorem text_plug : ∃ before after, ∀ x : Expr,
    (plug fs x).text = before ++ indent fs.length x.text ++ after := by
  induction fs with
  | nil => exact ⟨[], [], fun x => by simp [Text.indent_zero]⟩
  | cons g fs ih =>
    obtain ⟨before, after, hfs⟩ := ih
    obtain ⟨before', after', hg⟩ := text_fill g
    refine ⟨before' ++ indent 1 before, indent 1 after ++ after', fun x => ?_⟩
    rw [plug_cons, hg, hfs, indent_append, indent_append, indent_indent, List.length_cons,
      Nat.add_comm fs.length]
    simp only [List.append_assoc]

theorem count_text_relabel : (x.relabel f).text.count '\n' = x.text.count '\n' := by
  induction x with
  | hole => rfl
  | number t => simp [relabel, text_number]
  | ans => rfl
  | binary op l r ihl ihr =>
    simp only [relabel, text_binary, List.count_append, count_indent, ihl, ihr]
  | signed s x ih => simp only [relabel, text_signed, List.count_append, count_indent, ih]

/-- The layout of an expression and of its document, which is a law of its parts. The text of a node
is put together from those of its operands, two spaces further in, and a missing operand is null.
The text of a subtree stands in the document two spaces further in for each level above it, with text
around it that does not depend on it. And no text of a number, whatever its characters, adds a
line. -/
theorem serialize_layout :
    text .hole = "null".toList ∧
    (∀ op l r, text (.binary op l r) =
      "\x7b\n  \"type\": \"b".toList ++ [op.symbol] ++ "\",\n  \"left\": ".toList ++
        indent 1 l.text ++ ",\n  \"right\": ".toList ++ indent 1 r.text ++ "\n\x7d".toList) ∧
    (∀ s x, text (.signed s x) =
      "\x7b\n  \"type\": \"u".toList ++ [s.symbol] ++ "\",\n  \"operand\": ".toList ++
        indent 1 x.text ++ "\n\x7d".toList) ∧
    (∀ x, serialize x = "\x7b\n  \"root\": ".toList ++ indent 1 x.text ++ "\n\x7d".toList) ∧
    (∀ x y, IsSubtree x y ↔ ∃ fs, plug fs x = y) ∧
    (∀ fs, ∃ before after, ∀ x, serialize (plug fs x) =
      before ++ indent (fs.length + 1) x.text ++ after) ∧
    ∀ x f, (serialize (relabel f x)).count '\n' = (serialize x).count '\n' := by
  refine ⟨text_hole, fun op l r => text_binary l r op, fun s x => text_signed x s, serialize_eq,
    fun x y => isSubtree_iff_plug, fun fs => ?_, fun x f => ?_⟩
  · obtain ⟨before, after, hfs⟩ := text_plug fs
    refine ⟨"\x7b\n  \"root\": ".toList ++ indent 1 before, indent 1 after ++ "\n\x7d".toList,
      fun x => ?_⟩
    rw [serialize_eq, hfs, indent_append, indent_append, indent_indent, Nat.add_comm 1]
    simp only [List.append_assoc]
  · simp only [serialize_eq, List.count_append, count_indent, count_text_relabel]

end Expr
end DeskCalculator
