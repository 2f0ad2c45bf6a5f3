import Mathlib.Algebra.Order.Ring.Nat
import Mathlib.Data.List.Basic
import Mathlib.Order.Bounds.Basic
import Mathlib.Tactic.Common

/-!
# Bit strings in bytes

A string of bits is kept in an array of bytes, bit `i` in bit `i % 8` of byte `i / 8`.  The
first half of this file is about one byte, the second about searching such a string in
chunks for the first bit with a property.
-/

namespace EgGS.Lib

/-! ## One byte -/

/-- The byte with bit `m` set. -/
def bitMask (m : ℕ) : UInt8 := UInt8.ofNat (2 ^ m)

theorem bitMask_testBit {m p : ℕ} (hm : m < 8) : (bitMask m).toNat.testBit p = decide (m = p) := by
  have hsmall : 2 ^ m < 256 := lt_of_le_of_lt (Nat.pow_le_pow_right (by decide) (by omega : m ≤ 7))
    (by decide)
  rw [bitMask, UInt8.toNat_ofNat_of_lt' (by simpa using hsmall), Nat.testBit_two_pow]

theorem bitMask_not_testBit {m p : ℕ} (hm : m < 8) (hp : p < 8) :
    (~~~ bitMask m).toNat.testBit p = !decide (m = p) := by
  have hall : ∀ m : Fin 8, ∀ p : Fin 8,
      (~~~ bitMask m).toNat.testBit p = !decide (m.val = p.val) := by
    decide
  exact hall ⟨m, hm⟩ ⟨p, hp⟩

/-- Setting a bit sets that bit. -/
theorem set_testBit (x : UInt8) {m p : ℕ} (hm : m < 8) :
    (x ||| bitMask m).toNat.testBit p = (x.toNat.testBit p || decide (m = p)) := by
  rw [UInt8.toNat_or, Nat.testBit_or, bitMask_testBit hm]

/-- Clearing a bit clears that bit. -/
theorem clear_testBit (x : UInt8) {m p : ℕ} (hm : m < 8) (hp : p < 8) :
    (x &&& ~~~ bitMask m).toNat.testBit p = (x.toNat.testBit p && !decide (m = p)) := by
  rw [UInt8.toNat_and, Nat.testBit_and, bitMask_not_testBit hm hp]

/-! ## The first of its kind -/

/-- The first index at which `f` gives something decides. -/
theorem findSome?_range {α : Type} {f : ℕ → Option α} {n : ℕ} {b : α} :
    (List.range n).findSome? f = some b ↔ ∃ i < n, f i = some b ∧ ∀ j < i, f j = none := by
  rw [List.findSome?_eq_some_iff]
  constructor
  · rintro ⟨l₁, i, l₂, heq, hi, hbefore⟩
    have hmem : i ∈ List.range n := by simp [heq]
    refine ⟨i, List.mem_range.mp hmem, hi, fun j hj => hbefore j ?_⟩
    have hjn : j ∈ l₁ ++ i :: l₂ := by
      rw [← heq]
      exact List.mem_range.mpr (hj.trans (List.mem_range.mp hmem))
    have hsorted : (l₁ ++ i :: l₂).Pairwise (· < ·) := heq ▸ List.pairwise_lt_range
    have hafter := (List.pairwise_cons.mp (List.pairwise_append.mp hsorted).2.1).1
    rcases List.mem_append.mp hjn with hj₁ | hj₂
    · exact hj₁
    · rcases List.mem_cons.mp hj₂ with rfl | hj₂
      · exact absurd hj (lt_irrefl _)
      · exact absurd hj (not_lt.mpr (hafter j hj₂).le)
  · rintro ⟨i, hi, hsome, hbefore⟩
    refine ⟨List.range i, i, (List.range (n - i - 1)).map (i + 1 + ·), ?_, hsome, fun j hj =>
      hbefore j (List.mem_range.mp hj)⟩
    have hsplit : n = i + 1 + (n - i - 1) := by omega
    conv_lhs => rw [hsplit, List.range_add, List.range_succ]
    simp

/-- A search that goes through `count` chunks of `width` indices finds the least index with
the property. -/
theorem chunks_first {p : ℕ → Bool} {width count b : ℕ} (hwidth : 0 < width)
    (h : ((List.range count).findSome? fun w =>
      ((List.range width).find? fun j => p (width * w + j)).map (width * w + ·)) = some b) :
    IsLeast {i | i < width * count ∧ p i = true} b := by
  obtain ⟨w, hw, hchunk, hbefore⟩ := findSome?_range.mp h
  obtain ⟨j, hj, rfl⟩ := Option.map_eq_some_iff.mp hchunk
  obtain ⟨hfound, hmem, hless⟩ := List.find?_range_eq_some.mp hj
  have hj := List.mem_range.mp hmem
  have hsize : width * w + width ≤ width * count := by
    rw [← Nat.mul_succ]
    exact Nat.mul_le_mul_left width hw
  refine ⟨⟨by omega, hfound⟩, fun i hi => ?_⟩
  by_contra hlt
  have hdiv := Nat.div_add_mod i width
  have hmod := Nat.mod_lt i hwidth
  have hle : i / width ≤ w := by
    by_contra hgt
    have hmul := Nat.mul_le_mul_left width (not_le.mp hgt)
    rw [Nat.mul_succ] at hmul
    omega
  rcases Nat.lt_or_eq_of_le hle with hlow | heq
  · have hnone := hbefore (i / width) hlow
    rw [Option.map_eq_none_iff, List.find?_range_eq_none] at hnone
    have hclear := hnone (i % width) hmod
    rw [hdiv, hi.2] at hclear
    exact absurd hclear (by decide)
  · rw [heq] at hdiv
    have hclear := hless (i % width) (by omega)
    rw [hdiv, hi.2] at hclear
    exact absurd hclear (by decide)

/-- A search through all chunks that finds nothing leaves nothing to be found. -/
theorem chunks_none {p : ℕ → Bool} {width count : ℕ} (hwidth : 0 < width)
    (h : ((List.range count).findSome? fun w =>
      ((List.range width).find? fun j => p (width * w + j)).map (width * w + ·)) = none) :
    ∀ i < width * count, p i = false := by
  intro i hi
  rw [List.findSome?_eq_none_iff] at h
  have hchunk := h (i / width) (List.mem_range.mpr (Nat.div_lt_of_lt_mul hi))
  rw [Option.map_eq_none_iff, List.find?_range_eq_none] at hchunk
  have hclear := hchunk (i % width) (Nat.mod_lt i hwidth)
  rw [Nat.div_add_mod] at hclear
  simpa using hclear

end EgGS.Lib
