import Mathlib.Data.List.Basic
import Mathlib.Data.List.Sublists
import Mathlib.Tactic.Common

/-!
# Insertion by a one-way elevator

A list is served from its head.  A new element is put behind the first element at which a
test of the two neighbours succeeds, and at the end if there is none; the head stays.
For the test of an elevator, `(a < x ∨ ¬ a < b) ∧ x < b`, the list keeps at most one place
where it descends, so it is served in at most two ascending sweeps.

* `Placed test x l m`: the insertion, as a relation on lists.
* `descents lt l`: the number of neighbours that are not in order.
* `Early test p l`: the insertion comes before the first waiting element with `p`.
-/

namespace EgGS.Lib

variable {α : Type}

/-- `x` is put behind the first element of which the test with its successor succeeds. -/
inductive Placed (test : α → α → Prop) (x : α) : List α → List α → Prop
  | last (a : α) : Placed test x [a] [a, x]
  | here {a b : α} {l : List α} : test a b → Placed test x (a :: b :: l) (a :: x :: b :: l)
  | there {a b : α} {l m : List α} : ¬ test a b → Placed test x (b :: l) m →
      Placed test x (a :: b :: l) (a :: m)

/-- The test of an elevator for `x`. -/
def Fits (lt : α → α → Prop) (x a b : α) : Prop := (lt a x ∨ ¬ lt a b) ∧ lt x b

namespace Placed

variable {test test' : α → α → Prop} {x : α} {l m : List α}

/-- The head stays, and so does the order of the others. -/
theorem split (h : Placed test x l m) :
    ∃ a l₁ l₂, l = a :: (l₁ ++ l₂) ∧ m = a :: (l₁ ++ x :: l₂) := by
  induction h with
  | last a => exact ⟨a, [], [], rfl, rfl⟩
  | @here a b l _ => exact ⟨a, [], b :: l, rfl, rfl⟩
  | @there a b l m _ _ ih =>
      obtain ⟨b', l₁, l₂, hl, rfl⟩ := ih
      exact ⟨a, b' :: l₁, l₂, by rw [hl]; rfl, rfl⟩

theorem congr (h : Placed test x l m) (htest : ∀ a ∈ l, ∀ b ∈ l, test a b ↔ test' a b) :
    Placed test' x l m := by
  induction h with
  | last a => exact .last a
  | here hab => exact .here ((htest _ (by simp) _ (by simp)).mp hab)
  | there hab _ ih =>
      refine .there (fun h => hab ((htest _ (by simp) _ (by simp)).mpr h)) (ih fun c hc d hd => ?_)
      exact htest c (List.mem_cons_of_mem _ hc) d (List.mem_cons_of_mem _ hd)

end Placed

/-! ## Descents -/

section Descents

variable (lt : α → α → Prop) [DecidableRel lt]

/-- The number of places where two neighbours are not in order. -/
def descents (l : List α) : ℕ := (l.zip l.tail).countP fun p => ¬ lt p.1 p.2

@[simp] theorem descents_singleton (a : α) : descents lt [a] = 0 := rfl

theorem descents_cons_cons (a b : α) (l : List α) :
    descents lt (a :: b :: l) = descents lt (b :: l) + if lt a b then 0 else 1 := by
  simp only [descents, List.tail_cons, List.zip_cons_cons, List.countP_cons]
  by_cases h : lt a b <;> simp [h]

variable {lt}

theorem descents_congr {lt' : α → α → Prop} [DecidableRel lt'] {l : List α}
    (h : l.Pairwise fun a b => lt a b ↔ lt' a b) : descents lt l = descents lt' l := by
  induction l with
  | nil => rfl
  | cons a l ih =>
      obtain ⟨ha, hl⟩ := List.pairwise_cons.mp h
      cases l with
      | nil => rfl
      | cons b l =>
          rw [descents_cons_cons, descents_cons_cons, ih hl]
          simp only [ha b (List.mem_cons_self ..)]

theorem descents_tail_le (a : α) (l : List α) : descents lt l ≤ descents lt (a :: l) := by
  cases l with
  | nil => exact Nat.zero_le _
  | cons b l =>
      rw [descents_cons_cons]
      exact Nat.le_add_right _ _

/-- What is left when the list is served from its head. -/
theorem descents_suffix {l l' : List α} (h : l' <:+ l) : descents lt l' ≤ descents lt l := by
  obtain ⟨t, rfl⟩ := h
  induction t with
  | nil => exact Nat.le_refl _
  | cons a t ih => exact ih.trans (descents_tail_le a (t ++ l'))

/-- An element above the head of an ascending list joins it at its place. -/
theorem Placed.ascending {x a : α} {l m : List α} (htotal : ∀ b ∈ l, lt x b ∨ lt b x)
    (hax : lt a x) (hl : descents lt (a :: l) = 0) (h : Placed (Fits lt x) x (a :: l) m) :
    descents lt m = 0 := by
  induction l generalizing a m with
  | nil =>
      cases h with
      | last => simp [descents_cons_cons, hax]
  | cons b l ih =>
      rw [descents_cons_cons] at hl
      have hab : lt a b := by
        by_contra hab
        simp [hab] at hl
      have hbl : descents lt (b :: l) = 0 := by omega
      cases h with
      | here hfit => simp [descents_cons_cons, hax, hfit.2, hbl]
      | @there _ _ _ m' hfit hrest =>
          have hxb : ¬ lt x b := fun hxb => hfit ⟨.inl hax, hxb⟩
          have hbx : lt b x := (htotal b (List.mem_cons_self ..)).resolve_left hxb
          have hm := ih (fun c hc => htotal c (List.mem_cons_of_mem _ hc)) hbx hbl hrest
          obtain ⟨c, l₁, l₂, hc, rfl⟩ := hrest.split
          obtain ⟨rfl, -⟩ := List.cons.inj hc
          simp [descents_cons_cons, hab, hm]

/-- **Two sweeps.**  The insertion keeps at most one descent, if `x` can be compared with
the elements of the list. -/
theorem Placed.descents_le {x : α} {l m : List α} (htotal : ∀ b ∈ l, lt x b ∨ lt b x)
    (hl : descents lt l ≤ 1) (h : Placed (Fits lt x) x l m) : descents lt m ≤ 1 := by
  induction h with
  | last a =>
      rw [descents_cons_cons]
      split <;> simp
  | @here a b l hfit =>
      rw [descents_cons_cons] at hl
      rw [descents_cons_cons, descents_cons_cons, if_pos hfit.2]
      rcases hfit.1 with hax | hab
      · rw [if_pos hax]
        omega
      · rw [if_neg hab] at hl
        split <;> omega
  | @there a b l m hfit hrest ih =>
      rw [descents_cons_cons] at hl
      have htotal' : ∀ c ∈ b :: l, lt x c ∨ lt c x := fun c hc =>
        htotal c (List.mem_cons_of_mem _ hc)
      have hm := ih htotal' (by omega)
      obtain ⟨c, l₁, l₂, hc, rfl⟩ := hrest.split
      obtain ⟨rfl, -⟩ := List.cons.inj hc
      rw [descents_cons_cons]
      by_cases hab : lt a b
      · rw [if_pos hab]
        exact hm
      · -- the descent is here, so the rest ascends and `x` comes after `b`
        rw [if_neg hab] at hl ⊢
        have hxb : ¬ lt x b := fun hxb => hfit ⟨.inr hab, hxb⟩
        have hbx : lt b x := (htotal b (by simp)).resolve_left hxb
        have hzero := hrest.ascending (fun c hc => htotal' c (List.mem_cons_of_mem _ hc)) hbx
          (by omega)
        omega

end Descents

/-! ## Classes -/

section Classes

variable {test : α → α → Prop} {p : α → Prop} {x : α} {l m : List α}

/-- The test succeeds before the first waiting element with `p`, or none waits. -/
def Early (test : α → α → Prop) (p : α → Prop) : List α → Prop
  | a :: b :: l => test a b ∨ ¬ p b ∧ Early test p (b :: l)
  | _ => True

/-- An element without `p` comes before the waiting ones with `p` exactly if it is early. -/
theorem Placed.early_iff (h : Placed test x l m) (hx : ¬ p x)
    (hl : l.tail.Pairwise fun a b => p a → p b) :
    (m.tail.Pairwise fun a b => p a → p b) ↔ Early test p l := by
  induction h with
  | last a => simp [Early]
  | @here a b l hab =>
      simp only [List.tail_cons] at hl ⊢
      rw [List.pairwise_cons]
      simp [Early, hab, hx, hl]
  | @there a b l m hab hrest ih =>
      obtain ⟨hb, hl⟩ := List.pairwise_cons.mp hl
      obtain ⟨c, l₁, l₂, hc, rfl⟩ := hrest.split
      obtain ⟨rfl, rfl⟩ := List.cons.inj hc
      have hm := ih hl
      simp only [List.tail_cons, List.pairwise_cons] at hm ⊢
      simp only [Early, hab, false_or]
      rw [← hm]
      refine and_congr_left fun _ => ⟨fun h hpb => hx (h x (by simp) hpb), fun hpb y _ h => ?_⟩
      exact absurd h hpb

/-- An element with `p` comes behind every waiting one without, if the test looks for
a successor with `p`. -/
theorem Placed.late (h : Placed test x l m) (hx : p x) (htest : ∀ a b, test a b → p b)
    (hl : l.tail.Pairwise fun a b => p a → p b) : m.tail.Pairwise fun a b => p a → p b := by
  induction h with
  | last a => simp
  | @here a b l hab =>
      simp only [List.tail_cons] at hl ⊢
      refine List.pairwise_cons.mpr ⟨fun y hy _ => ?_, hl⟩
      rcases List.mem_cons.mp hy with rfl | hy
      · exact htest a y hab
      · exact (List.pairwise_cons.mp hl).1 y hy (htest a b hab)
  | @there a b l m hab hrest ih =>
      obtain ⟨hb, hl⟩ := List.pairwise_cons.mp hl
      have hm := ih hl
      obtain ⟨c, l₁, l₂, hc, rfl⟩ := hrest.split
      obtain ⟨rfl, rfl⟩ := List.cons.inj hc
      simp only [List.tail_cons] at hm ⊢
      refine List.pairwise_cons.mpr ⟨fun y hy hpb => ?_, hm⟩
      rcases List.mem_append.mp hy with hy | hy
      · exact hb y (List.mem_append_left _ hy) hpb
      · rcases List.mem_cons.mp hy with rfl | hy
        · exact hx
        · exact hb y (List.mem_append_right _ hy) hpb

end Classes

end EgGS.Lib
