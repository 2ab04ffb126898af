import DeskCalculator.Proofs.Tiling
import DeskCalculator.Session.History
import DeskCalculator.Shell.Basic
import Mathlib.Data.List.Basic

/-! The shell is one session in a dialogue: whatever bytes it reads, what it prints and writes is
what the session answers to the lines that they are. -/
namespace DeskCalculator
namespace Shell

variable {b : UInt8} {l bs : List UInt8} {ls : List (List UInt8)} {d e : Destination} {s : Session}

/-! ### Lines -/

theorem IsLines.cons (hb : b ≠ 10) (hreturn : b = 13 → bs.head? ≠ some 10)
    (h : IsLines ls bs) : IsLines (pushByte b ls) (b :: bs) := by
  have hkeep : ∀ {l : List UInt8}, 10 ∉ l → 10 ∉ b :: l := fun hl => by
    simp [Ne.symm hb, hl]
  cases h with
  | nil => exact .last (by simp) (hkeep (by simp))
  | last _ hl => exact .last (by simp) (hkeep hl)
  | feed hl hlast h =>
    refine .feed (hkeep hl) ?_ h
    rename_i l _ _
    cases l with
    | nil => simpa using fun hb => hreturn hb rfl
    | cons c l => simpa [List.getLast?_cons_cons] using hlast
  | carriage hl h => exact .carriage (hkeep hl) h

@[simp] theorem contents_none (d : Destination) : d.contents none = none := by
  cases d <;> rfl

end Shell
end DeskCalculator
