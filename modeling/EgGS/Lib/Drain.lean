import EgGS.Lib.Prog
import Mathlib.Data.Finset.Card

/-!
# Calling a function until it has nothing left

A program that returns a number is called again and again, until it returns 0.  If every call
takes one element away from a finite set, the number of calls before is the size of the set.
-/

namespace EgGS.Lib

variable {ε σ : Type} {m : Prog ε σ ℕ} {e : ε} {s : σ} {c c' : ℕ}

/-- From `s` on, exactly `c` calls in a row do not return 0. -/
inductive Consecutive (m : Prog ε σ ℕ) (e : ε) : σ → ℕ → Prop
  | zero {s s' : σ} : Prog.Evals m e s 0 s' → Consecutive m e s 0
  | succ {s s' : σ} {v c : ℕ} : Prog.Evals m e s v s' → v ≠ 0 → Consecutive m e s' c →
      Consecutive m e s (c + 1)

theorem Consecutive.unique (h : Consecutive m e s c) (h' : Consecutive m e s c') : c = c' := by
  induction h generalizing c' with
  | zero hrun =>
      cases h' with
      | zero _ => rfl
      | succ hrun' hne _ => exact absurd (hrun'.unique hrun).1 hne
  | succ hrun hne _ ih =>
      cases h' with
      | zero hrun' => exact absurd (hrun.unique hrun').1 hne
      | succ hrun' _ hrest =>
          obtain ⟨-, rfl⟩ := hrun.unique hrun'
          rw [ih hrest]

/-- Each call that does not return 0 takes one element of `left`. -/
theorem Consecutive.of_drain {I : σ → Prop} (left : σ → Finset ℕ)
    (hcall : ∀ s, I s → (left s = ∅ ∧ ∃ s', Prog.Evals m e s 0 s') ∨
      ∃ a ∈ left s, ∃ v s', Prog.Evals m e s v s' ∧ v ≠ 0 ∧ I s' ∧ left s' = (left s).erase a)
    (hs : I s) : Consecutive m e s (left s).card := by
  induction hcard : (left s).card generalizing s with
  | zero =>
      rcases hcall s hs with ⟨-, s', hrun⟩ | ⟨a, ha, -⟩
      · exact .zero hrun
      · exact absurd (Finset.card_pos.mpr ⟨a, ha⟩) (by omega)
  | succ c ih =>
      rcases hcall s hs with ⟨hempty, -⟩ | ⟨a, ha, v, s', hrun, hne, hs', hleft⟩
      · rw [hempty, Finset.card_empty] at hcard
        omega
      · refine .succ hrun hne (ih hs' ?_)
        rw [hleft, Finset.card_erase_of_mem ha, hcard, Nat.add_sub_cancel]

end EgGS.Lib
