import Mathlib.Logic.Relation
import Mathlib.Tactic.Common

/-!
# Linked lists threaded through a table of cells

A link field is a function `next : α → Option α` on the cells, `none` being the
null pointer.  Nothing below depends on what else a cell holds.

* `Chain next p l`: following `next` from `p` visits the cells of `l` in order
  and ends in null.  Such an `l` is unique and has no repetition, so a chain is
  finite and acyclic.
* `DSeg next prev q p l q' p'`: the doubly linked segment `l`, entered through
  the pointer `p` with the cell before it `q`, and left through the pointer
  `p'` with the last cell passed `q'`.  A null-terminated doubly linked list is
  a segment from `none` to `none`; a circular one is a segment that ends where
  it began (`DCircle`).

Insertion and removal rewrite link fields at the ends of segments only, which
is what `DSeg.rebound` is for.
-/

namespace EgGS.Lib

variable {α : Type} {next next' prev prev' : α → Option α}

/-! ## Singly linked lists -/

/-- Following `next` from `p` visits exactly the cells of `l` and ends in null. -/
def Chain (next : α → Option α) : Option α → List α → Prop
  | p, [] => p = none
  | p, a :: l => p = some a ∧ Chain next (next a) l

@[simp] theorem chain_nil {p : Option α} : Chain next p [] ↔ p = none := Iff.rfl

@[simp] theorem chain_cons {p : Option α} {a : α} {l : List α} :
    Chain next p (a :: l) ↔ p = some a ∧ Chain next (next a) l := Iff.rfl

namespace Chain

theorem congr {p : Option α} {l : List α} (h : Chain next p l)
    (heq : ∀ a ∈ l, next' a = next a) : Chain next' p l := by
  induction l generalizing p with
  | nil => exact h
  | cons a l ih =>
      obtain ⟨rfl, hrest⟩ := h
      rw [chain_cons, heq a (List.mem_cons_self ..)]
      exact ⟨rfl, ih hrest fun b hb => heq b (List.mem_cons_of_mem _ hb)⟩

theorem unique {p : Option α} {l l' : List α} (h : Chain next p l) (h' : Chain next p l') :
    l = l' := by
  induction l generalizing p l' with
  | nil =>
      cases l' with
      | nil => rfl
      | cons b l' => exact absurd (h.symm.trans h'.1) (by simp)
  | cons a l ih =>
      cases l' with
      | nil => exact absurd (h.1.symm.trans h') (by simp)
      | cons b l' =>
          obtain rfl : a = b := Option.some.inj (h.1.symm.trans h'.1)
          rw [ih h.2 h'.2]

theorem split {p : Option α} {l₁ l₂ : List α} (h : Chain next p (l₁ ++ l₂)) :
    ∃ p', Chain next p' l₂ := by
  induction l₁ generalizing p with
  | nil => exact ⟨p, h⟩
  | cons a l₁ ih => exact ih h.2

/-- What can be reached from the first cell is on the list. -/
theorem mem_of_reach {a b : α} {l : List α} (h : Chain next (some a) l)
    (hreach : Relation.ReflTransGen (fun x y => next x = some y) a b) : b ∈ l := by
  induction hreach using Relation.ReflTransGen.head_induction_on generalizing l with
  | refl =>
      cases l with
      | nil => exact absurd h (by simp)
      | cons c l =>
          obtain rfl : b = c := Option.some.inj h.1
          exact List.mem_cons_self ..
  | head hstep _ ih =>
      cases l with
      | nil => exact absurd h (by simp)
      | cons c l =>
          obtain ⟨heq, hrest⟩ := h
          obtain rfl := Option.some.inj heq
          rw [hstep] at hrest
          exact List.mem_cons_of_mem _ (ih hrest)

/-- A null-terminated list cannot come back to one of its cells. -/
theorem nodup {p : Option α} {l : List α} (h : Chain next p l) : l.Nodup := by
  induction l generalizing p with
  | nil => exact List.nodup_nil
  | cons a l ih =>
      refine List.nodup_cons.mpr ⟨fun hmem => ?_, ih h.2⟩
      obtain ⟨l₁, l₂, rfl⟩ := List.append_of_mem hmem
      obtain ⟨p', hp'⟩ := split h.2
      have hlonger : Chain next p' (a :: (l₁ ++ a :: l₂)) := ⟨hp'.1, h.2⟩
      have := congrArg List.length (unique hp' hlonger)
      simp at this
      omega

/-- Linking the fresh cell `b` behind the cell `a`. -/
theorem insertAfter {p : Option α} {l₁ l₂ : List α} {a b : α}
    (h : Chain next p (l₁ ++ a :: l₂)) (hfresh : b ∉ l₁ ++ a :: l₂)
    (ha : next' a = some b) (hb : next' b = next a)
    (heq : ∀ c, c ≠ a → c ≠ b → next' c = next c) : Chain next' p (l₁ ++ a :: b :: l₂) := by
  have hnodup := h.nodup
  induction l₁ generalizing p with
  | nil =>
      obtain ⟨rfl, hrest⟩ := h
      refine ⟨rfl, ha, hb ▸ hrest.congr fun c hc => heq c ?_ ?_⟩
      · rintro rfl
        exact (List.nodup_cons.mp hnodup).1 hc
      · rintro rfl
        exact hfresh (List.mem_cons_of_mem _ hc)
  | cons c l₁ ih =>
      obtain ⟨rfl, hrest⟩ := h
      have hca : c ≠ a := by
        rintro rfl
        exact (List.nodup_cons.mp hnodup).1 (by simp)
      have hcb : c ≠ b := by
        rintro rfl
        exact hfresh (List.mem_cons_self ..)
      refine ⟨rfl, ?_⟩
      rw [heq c hca hcb]
      exact ih hrest (fun hmem => hfresh (List.mem_cons_of_mem _ hmem))
        (List.nodup_cons.mp hnodup).2

end Chain

/-! ## Doubly linked segments -/

/-- The doubly linked segment `l`, entered through `p` coming from `q` and left
through `p'` coming from `q'`. -/
def DSeg (next prev : α → Option α) : Option α → Option α → List α → Option α → Option α → Prop
  | q, p, [], q', p' => q' = q ∧ p' = p
  | q, p, a :: l, q', p' => p = some a ∧ prev a = q ∧ DSeg next prev (some a) (next a) l q' p'

namespace DSeg

variable {q p q' p' : Option α} {l l₁ l₂ : List α} {a b : α}

@[simp] theorem nil : DSeg next prev q p [] q' p' ↔ q' = q ∧ p' = p := Iff.rfl

@[simp] theorem cons : DSeg next prev q p (a :: l) q' p' ↔
    p = some a ∧ prev a = q ∧ DSeg next prev (some a) (next a) l q' p' := Iff.rfl

theorem append : DSeg next prev q p (l₁ ++ l₂) q' p' ↔
    ∃ q₁ p₁, DSeg next prev q p l₁ q₁ p₁ ∧ DSeg next prev q₁ p₁ l₂ q' p' := by
  induction l₁ generalizing q p with
  | nil => simp
  | cons a l₁ ih =>
      simp only [List.cons_append, cons, ih]
      constructor
      · rintro ⟨hp, hq, q₁, p₁, h₁, h₂⟩
        exact ⟨q₁, p₁, ⟨hp, hq, h₁⟩, h₂⟩
      · rintro ⟨q₁, p₁, ⟨hp, hq, h₁⟩, h₂⟩
        exact ⟨hp, hq, q₁, p₁, h₁, h₂⟩

theorem congr (h : DSeg next prev q p l q' p') (hnext : ∀ a ∈ l, next' a = next a)
    (hprev : ∀ a ∈ l, prev' a = prev a) : DSeg next' prev' q p l q' p' := by
  induction l generalizing q p with
  | nil => exact h
  | cons a l ih =>
      obtain ⟨rfl, rfl, hrest⟩ := h
      rw [cons, hnext a (List.mem_cons_self ..), hprev a (List.mem_cons_self ..)]
      exact ⟨rfl, rfl, ih hrest (fun b hb => hnext b (List.mem_cons_of_mem _ hb))
        fun b hb => hprev b (List.mem_cons_of_mem _ hb)⟩

theorem entry_eq (h : DSeg next prev q p l q' p') (hne : l ≠ []) : p = l.head? := by
  cases l with
  | nil => exact absurd rfl hne
  | cons a l => exact h.1

theorem exit_eq (h : DSeg next prev q p l q' p') (hne : l ≠ []) : q' = l.getLast? := by
  induction l generalizing q p with
  | nil => exact absurd rfl hne
  | cons a l ih =>
      rcases l with _ | ⟨b, l⟩
      · exact h.2.2.1
      · simpa using ih h.2.2 (by simp)

/-- The two ends of a segment can be linked elsewhere: only the first cell's
`prev` and the last cell's `next` change. -/
theorem rebound (h : DSeg next prev q p l q' p') (hnodup : l.Nodup) (hne : l ≠ [])
    {q₁ p₁ : Option α} (hfirst : ∀ a, p = some a → prev' a = q₁)
    (hprev : ∀ a ∈ l, p ≠ some a → prev' a = prev a)
    (hlast : ∀ a, q' = some a → next' a = p₁)
    (hnext : ∀ a ∈ l, q' ≠ some a → next' a = next a) :
    DSeg next' prev' q₁ p l q' p₁ := by
  induction l generalizing q p q₁ with
  | nil => exact absurd rfl hne
  | cons a l ih =>
      obtain ⟨rfl, rfl, hrest⟩ := h
      obtain ⟨ha, hl⟩ := List.nodup_cons.mp hnodup
      refine ⟨rfl, hfirst a rfl, ?_⟩
      rcases l with _ | ⟨b, l⟩
      · obtain ⟨rfl, rfl⟩ := hrest
        exact ⟨rfl, (hlast a rfl).symm⟩
      · have hqa : q' ≠ some a := by
          rw [hrest.exit_eq (by simp)]
          exact fun hlast => ha (List.mem_of_getLast? hlast)
        rw [hnext a (List.mem_cons_self ..) hqa]
        refine ih hrest hl (by simp) ?_ ?_ fun c hc => hnext c (List.mem_cons_of_mem _ hc)
        · intro c hc
          obtain rfl : b = c := Option.some.inj (hrest.1.symm.trans hc)
          rw [hprev b (by simp) (by rintro ⟨⟩; simp at ha)]
          exact hrest.2.1
        · intro c hc _
          exact hprev c (List.mem_cons_of_mem _ hc) (by rintro ⟨⟩; exact ha hc)

/-- A segment that leaves into null is a chain. -/
theorem chain (h : DSeg next prev q p l q' none) : Chain next p l := by
  induction l generalizing q p with
  | nil => exact h.2.symm
  | cons a l ih => exact ⟨h.1, ih h.2.2⟩

theorem next_exit (h : DSeg next prev q p l q' p') (hne : l ≠ []) (ha : q' = some a) :
    next a = p' := by
  induction l generalizing q p with
  | nil => exact absurd rfl hne
  | cons b l ih =>
      rcases l with _ | ⟨c, l⟩
      · obtain rfl : b = a := Option.some.inj (h.2.2.1.symm.trans ha)
        exact h.2.2.2.symm
      · exact ih h.2.2 (by simp)

theorem prev_entry (h : DSeg next prev q p l q' p') (hne : l ≠ []) (ha : p = some a) :
    prev a = q := by
  cases l with
  | nil => exact absurd rfl hne
  | cons b l =>
      obtain rfl : b = a := Option.some.inj (h.1.symm.trans ha)
      exact h.2.1

theorem entry_mem (h : DSeg next prev q p l q' p') (hne : l ≠ []) (ha : p = some a) : a ∈ l :=
  List.mem_of_mem_head? (by rw [← h.entry_eq hne, ha]; rfl)

theorem exit_mem (h : DSeg next prev q p l q' p') (hne : l ≠ []) (ha : q' = some a) : a ∈ l :=
  List.mem_of_getLast? (by rw [← h.exit_eq hne, ha])

/-- A segment, empty or not, can be entered from another cell. -/
theorem reenter (h : DSeg next prev q p l q' p') (hnodup : l.Nodup) (q₁ : Option α)
    (hfirst : ∀ a ∈ l, p = some a → prev' a = q₁)
    (hprev : ∀ a ∈ l, p ≠ some a → prev' a = prev a)
    (hnext : ∀ a ∈ l, next' a = next a) : ∃ q'', DSeg next' prev' q₁ p l q'' p' := by
  by_cases hne : l = []
  · subst hne
    exact ⟨q₁, rfl, h.2⟩
  · refine ⟨q', h.rebound hnodup hne (fun a ha => hfirst a (h.entry_mem hne ha) ha) hprev ?_
      fun a ha _ => hnext a ha⟩
    intro a ha
    rw [hnext a (h.exit_mem hne ha), h.next_exit hne ha]

end DSeg

/-! ## Null-terminated doubly linked lists -/

/-- The doubly linked list `l` from the head pointer `p`. -/
def DList (next prev : α → Option α) (p : Option α) (l : List α) : Prop :=
  ∃ q', DSeg next prev none p l q' none

namespace DList

variable [DecidableEq α] {p : Option α} {l l₁ l₂ : List α} {b : α}

omit [DecidableEq α] in
theorem chain (h : DList next prev p l) : Chain next p l := by
  obtain ⟨q', h⟩ := h
  exact h.chain

omit [DecidableEq α] in
theorem nodup (h : DList next prev p l) : l.Nodup := h.chain.nodup

omit [DecidableEq α] in
theorem congr (h : DList next prev p l) (hnext : ∀ a ∈ l, next' a = next a)
    (hprev : ∀ a ∈ l, prev' a = prev a) : DList next' prev' p l :=
  h.imp fun _ h => h.congr hnext hprev

omit [DecidableEq α] in
theorem head_mem (h : DList next prev p l) (hp : p = some b) : b ∈ l := by
  have hchain := h.chain
  cases l with
  | nil => exact absurd (hchain.symm.trans hp) (by simp)
  | cons a l =>
      obtain rfl : a = b := Option.some.inj (hchain.1.symm.trans hp)
      exact List.mem_cons_self ..

omit [DecidableEq α] in
/-- The cell behind a cell of the list is another cell of the list. -/
theorem next_mem {a : α} (h : DList next prev p l) (hb : b ∈ l) (hnext : next b = some a) :
    a ∈ l ∧ a ≠ b := by
  have hnodup := h.nodup
  obtain ⟨l₁, l₂, rfl⟩ := List.append_of_mem hb
  obtain ⟨q', h⟩ := h
  obtain ⟨q₁, p₁, -, -, -, h₂⟩ := DSeg.append.mp h
  have hne : l₂ ≠ [] := by
    rintro rfl
    exact absurd (h₂.2.trans hnext) (by simp)
  have ha := h₂.entry_mem hne hnext
  refine ⟨by simp [ha], ?_⟩
  rintro rfl
  exact (List.nodup_cons.mp (List.nodup_append.mp hnodup).2.1).1 ha

omit [DecidableEq α] in
/-- The cell before a cell of the list is another cell of the list. -/
theorem prev_mem {a : α} (h : DList next prev p l) (hb : b ∈ l) (hprev : prev b = some a) :
    a ∈ l ∧ a ≠ b := by
  have hnodup := h.nodup
  obtain ⟨l₁, l₂, rfl⟩ := List.append_of_mem hb
  obtain ⟨q', h⟩ := h
  obtain ⟨q₁, p₁, h₁, -, rfl, -⟩ := DSeg.append.mp h
  have hne : l₁ ≠ [] := by
    rintro rfl
    exact absurd (h₁.1.symm.trans hprev) (by simp)
  have ha := h₁.exit_mem hne hprev
  refine ⟨by simp [ha], ?_⟩
  rintro rfl
  exact (List.nodup_append.mp hnodup).2.2 a ha a (List.mem_cons_self ..) rfl

/-- Linking the fresh cell `b` in front. -/
theorem push (h : DList next prev p l) (hb : next' b = p) (hb' : prev' b = none)
    (hnext : ∀ a ∈ l, next' a = next a)
    (hprev : ∀ a ∈ l, prev' a = if p = some a then some b else prev a) :
    DList next' prev' (some b) (b :: l) := by
  have hnodup := h.nodup
  obtain ⟨q', h⟩ := h
  obtain ⟨q'', h'⟩ := h.reenter hnodup (some b)
    (fun a ha hp => (hprev a ha).trans (if_pos hp))
    (fun a ha hp => (hprev a ha).trans (if_neg hp)) hnext
  exact ⟨q'', rfl, hb', hb ▸ h'⟩

/-- Unlinking the cell `b`. -/
theorem remove (h : DList next prev p (l₁ ++ b :: l₂))
    (hnext : ∀ a ∈ l₁ ++ l₂, next' a = if prev b = some a then next b else next a)
    (hprev : ∀ a ∈ l₁ ++ l₂, prev' a = if next b = some a then prev b else prev a) :
    DList next' prev' (if p = some b then next b else p) (l₁ ++ l₂) := by
  have hnodup := h.nodup
  obtain ⟨hnodup₁, hnodup₂, hdisj⟩ := List.nodup_append.mp hnodup
  obtain ⟨hb, hnodup₂⟩ := List.nodup_cons.mp hnodup₂
  obtain ⟨q', h⟩ := h
  obtain ⟨q₁, p₁, h₁, rfl, rfl, h₂⟩ := DSeg.append.mp h
  -- behind `b`: the segment is entered from the cell before `b`
  obtain ⟨q'', hrest⟩ := h₂.reenter hnodup₂ (prev b)
    (fun a ha hp => (hprev a (by simp [ha])).trans (if_pos hp))
    (fun a ha hp => (hprev a (by simp [ha])).trans (if_neg hp))
    (fun a ha => by
      refine (hnext a (by simp [ha])).trans (if_neg ?_)
      intro hq
      by_cases hne : l₁ = []
      · subst hne
        exact absurd (h₁.1.symm.trans hq) (by simp)
      · exact hdisj a (h₁.exit_mem hne hq) a (by simp [ha]) rfl)
  by_cases hne : l₁ = []
  · subst hne
    obtain ⟨hq, hp⟩ := h₁
    rw [if_pos hp.symm]
    rw [hq] at hrest
    exact ⟨q'', hrest⟩
  · -- before `b`: the last cell now leads behind `b`
    have hpb : p ≠ some b := fun hp => hdisj b (h₁.entry_mem hne hp) b (by simp) rfl
    rw [if_neg hpb]
    refine ⟨q'', DSeg.append.mpr ⟨prev b, next b, h₁.rebound hnodup₁ hne ?_ ?_ ?_ ?_, hrest⟩⟩
    · intro a ha
      rw [hprev a (by simp [h₁.entry_mem hne ha]), if_neg, h₁.prev_entry hne ha]
      intro hn
      by_cases hne₂ : l₂ = []
      · subst hne₂
        exact absurd (h₂.2.trans hn) (by simp)
      · exact hdisj a (h₁.entry_mem hne ha) a (by simp [h₂.entry_mem hne₂ hn]) rfl
    · intro a ha _
      rw [hprev a (by simp [ha]), if_neg]
      intro hn
      by_cases hne₂ : l₂ = []
      · subst hne₂
        exact absurd (h₂.2.trans hn) (by simp)
      · exact hdisj a ha a (by simp [h₂.entry_mem hne₂ hn]) rfl
    · intro a ha
      rw [hnext a (by simp [h₁.exit_mem hne ha]), if_pos ha]
    · intro a ha hq
      rw [hnext a (by simp [ha]), if_neg hq]

end DList

/-! ## Circular doubly linked lists -/

/-- The circular doubly linked list `l`, from its first cell around to it. -/
def DCircle (next prev : α → Option α) (l : List α) : Prop :=
  ∃ q p, DSeg next prev q p l q p

namespace DCircle

variable [DecidableEq α] {l l₁ l₂ : List α} {b : α}

omit [DecidableEq α] in
theorem rotate (h : DCircle next prev (l₁ ++ l₂)) : DCircle next prev (l₂ ++ l₁) := by
  obtain ⟨q, p, h⟩ := h
  obtain ⟨q₁, p₁, h₁, h₂⟩ := DSeg.append.mp h
  exact ⟨q₁, p₁, DSeg.append.mpr ⟨q, p, h₂, h₁⟩⟩

omit [DecidableEq α] in
/-- On a circle every cell has a cell behind it. -/
theorem next_some (h : DCircle next prev (b :: l)) : ∃ a, next b = some a := by
  obtain ⟨q, p, rfl, rfl, h⟩ := h
  cases l with
  | nil => exact ⟨b, h.2.symm⟩
  | cons a l => exact ⟨a, h.1⟩

omit [DecidableEq α] in
/-- On a circle every cell has a cell before it. -/
theorem prev_some (h : DCircle next prev (b :: l)) : ∃ a, prev b = some a := by
  obtain ⟨q, p, rfl, rfl, h⟩ := h
  by_cases hne : l = []
  · subst hne
    exact ⟨b, h.1⟩
  · rw [h.exit_eq hne]
    exact ⟨l.getLast hne, List.getLast?_eq_some_getLast hne⟩

omit [DecidableEq α] in
theorem prev_mem {a : α} (h : DCircle next prev (b :: l)) (ha : prev b = some a) :
    a ∈ b :: l := by
  obtain ⟨q, p, h⟩ := h
  have hq : q = some a := h.2.1.symm.trans ha
  exact h.exit_mem (by simp) hq

omit [DecidableEq α] in
theorem next_head (h : DCircle next prev (b :: l)) (hne : l ≠ []) : next b = l.head? := by
  obtain ⟨q, p, rfl, rfl, h⟩ := h
  exact h.entry_eq hne

omit [DecidableEq α] in
/-- Cells that are linked in the order of an enumeration with period `m` form a circle. -/
theorem of_periodic {c : ℕ → α} {m : ℕ} (hm : 0 < m) (hperiod : ∀ i, c (i + m) = c i)
    (hnext : ∀ i, next (c i) = some (c (i + 1))) (hprev : ∀ i, prev (c (i + 1)) = some (c i)) :
    DCircle next prev ((List.range m).map c) := by
  have hseg : ∀ j i, DSeg next prev (some (c i)) (some (c (i + 1)))
      ((List.range' (i + 1) j).map c) (some (c (i + j))) (some (c (i + j + 1))) := by
    intro j
    induction j with
    | zero => intro i; exact ⟨rfl, rfl⟩
    | succ j ih =>
        intro i
        rw [List.range'_succ, List.map_cons, DSeg.cons, hnext, hprev]
        have := ih (i + 1)
        rw [show i + 1 + j = i + (j + 1) by omega] at this
        exact ⟨rfl, rfl, this⟩
  have hcircle := hseg m (m - 1)
  have hlist : (List.range' (m - 1 + 1) m).map c = (List.range m).map c := by
    rw [Nat.sub_add_cancel hm, List.range'_eq_map_range, List.map_map]
    refine List.map_congr_left fun i _ => ?_
    rw [Function.comp_apply, Nat.add_comm, hperiod]
  rw [hlist, hperiod, show m - 1 + m + 1 = m - 1 + 1 + m by omega, hperiod] at hcircle
  exact ⟨_, _, hcircle⟩

/-- Unlinking the cell `b`, if it is not the only one. -/
theorem remove (h : DCircle next prev (b :: l)) (hnodup : l.Nodup) (hne : l ≠ [])
    (hnext : ∀ a ∈ l, next' a = if prev b = some a then next b else next a)
    (hprev : ∀ a ∈ l, prev' a = if next b = some a then prev b else prev a) :
    DCircle next' prev' l := by
  obtain ⟨q, p, rfl, rfl, h⟩ := h
  refine ⟨prev b, next b, h.rebound hnodup hne ?_ ?_ ?_ ?_⟩
  · intro a ha
    rw [hprev a (h.entry_mem hne ha), if_pos ha]
  · intro a ha hna
    rw [hprev a ha, if_neg hna]
  · intro a ha
    rw [hnext a (h.exit_mem hne ha), if_pos ha]
  · intro a ha hna
    rw [hnext a ha, if_neg hna]

/-- Linking the fresh cell `b` behind the last one, in front of the first cell `f`. -/
theorem push (h : DCircle next prev l) (hnodup : l.Nodup) {f : α} (hf : l.head? = some f)
    (hb : next' b = some f) (hb' : prev' b = prev f)
    (hnext : ∀ a ∈ l, next' a = if prev f = some a then some b else next a)
    (hprev : ∀ a ∈ l, prev' a = if a = f then some b else prev a) :
    DCircle next' prev' (l ++ [b]) := by
  have hne : l ≠ [] := by rintro rfl; simp at hf
  obtain ⟨q, p, h⟩ := h
  obtain rfl : p = some f := (h.entry_eq hne).trans hf
  have hq : prev f = q := h.prev_entry hne rfl
  have hl : DSeg next' prev' (some b) (some f) l q (some b) := by
    refine h.rebound hnodup hne ?_ ?_ ?_ ?_
    · rintro a ⟨⟩
      rw [hprev f (h.entry_mem hne rfl), if_pos rfl]
    · intro a ha hfa
      rw [hprev a ha, if_neg]
      rintro rfl
      exact hfa rfl
    · intro a ha
      rw [hnext a (h.exit_mem hne ha), if_pos (hq.trans ha)]
    · intro a ha hqa
      rw [hnext a ha, if_neg fun heq => hqa (hq ▸ heq)]
  exact ⟨some b, some f, DSeg.append.mpr ⟨q, some b, hl, rfl, hb'.trans hq, rfl, hb.symm⟩⟩

end DCircle

end EgGS.Lib
