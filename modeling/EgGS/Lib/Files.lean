import Mathlib.Data.Nat.Notation
import Mathlib.Logic.Function.Basic

/-!
# Files as maps

A store of files gives each block of each file a value, or none.  Blocks are made, written, and all
blocks of a file are dropped.
-/

namespace EgGS.Lib

variable {ι α : Type} [DecidableEq ι] {i j : ι} {b c : ℕ}

/-- The values of the blocks of files. -/
abbrev Files (ι α : Type) := ι → ℕ → Option α

namespace Files

/-- Block `b` of the file `i` has the value `a`. -/
def write (f : Files ι α) (i : ι) (b : ℕ) (a : α) : Files ι α :=
  Function.update f i (Function.update (f i) b (some a))

/-- Block `b` of the file `i` has the value `a`, if it had none. -/
def make (f : Files ι α) (i : ι) (b : ℕ) (a : α) : Files ι α := f.write i b ((f i b).getD a)

/-- The file `i` has no blocks. -/
def clear (f : Files ι α) (i : ι) : Files ι α := Function.update f i fun _ => none

theorem write_self (f : Files ι α) (i : ι) (b : ℕ) (a : α) : f.write i b a i b = some a := by
  simp [write]

theorem write_of_ne (f : Files ι α) (a : α) (h : ¬ (j = i ∧ c = b)) :
    f.write i b a j c = f j c := by
  unfold write
  by_cases hj : j = i
  · subst hj
    have hc : c ≠ b := fun hc => h ⟨rfl, hc⟩
    rw [Function.update_self, Function.update_of_ne hc]
  · rw [Function.update_of_ne hj]

theorem make_none (f : Files ι α) (a : α) (h : f i b = none) : f.make i b a i b = some a := by
  rw [make, h, Option.getD_none, write_self]

theorem make_some (f : Files ι α) {a : α} (a' : α) (h : f i b = some a) : f.make i b a' = f := by
  funext j c
  by_cases hjc : j = i ∧ c = b
  · obtain ⟨rfl, rfl⟩ := hjc
    rw [make, write_self, h, Option.getD_some]
  · rw [make, write_of_ne _ _ hjc]

theorem make_of_ne (f : Files ι α) (a : α) (h : ¬ (j = i ∧ c = b)) : f.make i b a j c = f j c :=
  write_of_ne _ _ h

theorem clear_self (f : Files ι α) (i : ι) (b : ℕ) : f.clear i i b = none := by
  simp [clear]

theorem clear_of_ne (f : Files ι α) (h : j ≠ i) (b : ℕ) : f.clear i j b = f j b := by
  rw [clear, Function.update_of_ne h]

end Files

end EgGS.Lib
