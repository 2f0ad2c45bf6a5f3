import Mathlib.Data.Nat.Basic
import Mathlib.Logic.Function.Basic
import Mathlib.Tactic.Common

/-!
# Memory with a record of its stores

A memory is a function from addresses, together with the addresses of all stores so far.  The
loops that copy and fill it are described cell by cell: a copy from the lower end up moves a
range to a lower address even if the two ranges overlap.
-/

namespace EgGS.Lib

variable {α : Type} {i dest src count lo hi : ℕ}

/-- The cells of a memory, and the addresses that were stored to. -/
structure Memory (α : Type) where
  cells : ℕ → α
  stores : List ℕ

namespace Memory

variable (m : Memory α)

/-- Store one cell. -/
def put (m : Memory α) (i : ℕ) (v : α) : Memory α where
  cells := Function.update m.cells i v
  stores := i :: m.stores

/-- Copy `count` cells from `src` to `dest`, from the lower end up. -/
def copyUp (dest src : ℕ) : ℕ → Memory α → Memory α
  | 0, m => m
  | count + 1, m => copyUp (dest + 1) (src + 1) count (m.put dest (m.cells src))

/-- All stores were to addresses from `lo` up to `hi`. -/
def StoredIn (lo hi : ℕ) : Prop := ∀ i ∈ m.stores, lo ≤ i ∧ i < hi

variable {m}

theorem put_cells_self (i : ℕ) (v : α) : (m.put i v).cells i = v := Function.update_self ..

theorem put_cells_ne {j : ℕ} (h : i ≠ j) (v : α) : (m.put j v).cells i = m.cells i :=
  Function.update_of_ne h ..

theorem StoredIn.put (h : m.StoredIn lo hi) (hlo : lo ≤ i) (hhi : i < hi) (v : α) :
    (m.put i v).StoredIn lo hi := by
  intro j hj
  rcases List.mem_cons.mp hj with rfl | hj
  · exact ⟨hlo, hhi⟩
  · exact h j hj

/-- **A copy to a lower address** moves the cells as they were. -/
theorem copyUp_cells (hle : dest ≤ src) (i : ℕ) : (copyUp dest src count m).cells i =
    if dest ≤ i ∧ i < dest + count then m.cells (i - dest + src) else m.cells i := by
  induction count generalizing dest src m with
  | zero => rw [copyUp, if_neg (by omega)]
  | succ count ih =>
      rw [copyUp, ih (by omega)]
      by_cases hi : i = dest
      · subst hi
        rw [if_neg (by omega), if_pos (by omega), put_cells_self, Nat.sub_self, Nat.zero_add]
      · by_cases hin : dest ≤ i ∧ i < dest + (count + 1)
        · -- the source of this cell lies above the one just stored
          rw [if_pos (by omega), if_pos hin, put_cells_ne (by omega)]
          congr 1
          omega
        · rw [if_neg (by omega), if_neg hin, put_cells_ne hi]

theorem StoredIn.copyUp (h : m.StoredIn lo hi) (hlo : lo ≤ dest) (hhi : dest + count ≤ hi) :
    (copyUp dest src count m).StoredIn lo hi := by
  induction count generalizing dest src m with
  | zero => exact h
  | succ count ih => exact ih (h.put hlo (by omega) _) (by omega) (by omega)

end Memory

end EgGS.Lib
