import EgGS.Lib.Does
import EgGS.Model.Pool
import Mathlib.Data.Set.Lattice
import Mathlib.Order.Bounds.Basic
import Mathlib.Order.CompletePartialOrder
import Mathlib.Order.Interval.Set.Basic

/-!
# Where `init_buff` puts the headers and their data

The headers grow upwards from the end of the kernel, the blocks downwards from `buffer_end`, and
the loop ends where the next header and the next block would meet.

`Rounds` says what a number of rounds have made, one header each, and `rounds_all` that the loop
ends at the largest number that fits.  A round links its header to those on both sides before they
are there; `Rounds.links` is what the links are at the end, where `closed` ties both ends of the
list together.

* `initPool_layout`: there are as many headers as fit, no two of them and their blocks overlap, and
  the free list is one cycle through all of them.
-/

namespace EgGS

open Lib Prog

/-! ## The layout -/

/-- The address of a header. -/
def headAt (startBuffer i : ℕ) : ℕ := startBuffer + headSize * i

/-- The address of the data of a header. -/
def dataAt (bufferEnd i : ℕ) : ℕ := bufferEnd - poolBlockSize * (i + 1)

/-- That many headers and blocks fit between the end of the kernel and `buffer_end`. -/
def FitsPool (startBuffer bufferEnd count : ℕ) : Prop :=
  startBuffer + headSize * count + poolBlockSize * count ≤ bufferEnd

theorem FitsPool.mono {startBuffer bufferEnd m n : ℕ} (h : FitsPool startBuffer bufferEnd n)
    (hle : m ≤ n) : FitsPool startBuffer bufferEnd m := by
  unfold FitsPool headSize poolBlockSize at *
  omega

/-- The cells of a header. -/
def headCells (startBuffer i : ℕ) : Set ℕ :=
  Set.Ico (headAt startBuffer i) (headAt startBuffer i + headSize)

/-- The cells of a block of data. -/
def blockCells (a : ℕ) : Set ℕ := Set.Ico a (a + poolBlockSize)

/-- The pool is laid out between the end of the kernel and `buffer_end`. -/
structure Laid (startBuffer bufferEnd : ℕ) (t : RawPool) : Prop where
  greatest : IsGreatest {count | FitsPool startBuffer bufferEnd count} t.nrBuffers
  headsInside : ∀ i < t.nrBuffers, headCells startBuffer i ⊆ Set.Ico startBuffer bufferEnd
  blocksInside : ∀ i < t.nrBuffers,
    blockCells (t.head (headAt startBuffer i)).bData ⊆ Set.Ico startBuffer bufferEnd
  headsDisjoint : ∀ i < t.nrBuffers, ∀ j < t.nrBuffers, i ≠ j →
    Disjoint (headCells startBuffer i) (headCells startBuffer j)
  blocksDisjoint : ∀ i < t.nrBuffers, ∀ j < t.nrBuffers, i ≠ j →
    Disjoint (blockCells (t.head (headAt startBuffer i)).bData)
      (blockCells (t.head (headAt startBuffer j)).bData)
  apart : ∀ i < t.nrBuffers, ∀ j < t.nrBuffers,
    Disjoint (headCells startBuffer i) (blockCells (t.head (headAt startBuffer j)).bData)
  /-- From `free_list` on, `b_next_free` goes round through all headers. -/
  cycle : ∀ i, (fun a => (t.head a).bNextFree)^[i] t.freeList =
    headAt startBuffer (i % t.nrBuffers)
  matching : ∀ i < t.nrBuffers,
    (t.head (t.head (headAt startBuffer i)).bNextFree).bPrevFree = headAt startBuffer i ∧
      (t.head (t.head (headAt startBuffer i)).bPrevFree).bNextFree = headAt startBuffer i

/-! ## The rounds -/

section Rounds

variable {startBuffer bufferEnd : ℕ} {s s₀ : RawPool} {k : ℕ}

/-- The pool behind `k` rounds. -/
structure Rounds (startBuffer bufferEnd : ℕ) (s₀ : RawPool) (k : ℕ) (s : RawPool) : Prop where
  count : s.nrBuffers = s₀.nrBuffers + k
  heads : ∀ i < k, s.head (headAt startBuffer i) =
    RawHead.init (headAt startBuffer i) (dataAt bufferEnd i) (s₀.head (headAt startBuffer i))
  others : ∀ i, k ≤ i → s.head (headAt startBuffer i) = s₀.head (headAt startBuffer i)

theorem headAt_inj {i j : ℕ} : headAt startBuffer i = headAt startBuffer j ↔ i = j := by
  unfold headAt headSize
  omega

/-- Another round fits. -/
theorem Rounds.round (h : Rounds startBuffer bufferEnd s₀ k s) (hstart : 0x100000 ≤ startBuffer)
    (hend : bufferEnd < 4294967296) (hfits : FitsPool startBuffer bufferEnd (k + 1)) :
    Does (initRound (headAt startBuffer k) (bufferEnd - poolBlockSize * k)) () s fun x t =>
      x = .inl (headAt startBuffer (k + 1), bufferEnd - poolBlockSize * (k + 1)) ∧
        Rounds startBuffer bufferEnd s₀ (k + 1) t := by
  unfold FitsPool headSize poolBlockSize at hfits
  have hblock : unsigned (((bufferEnd - poolBlockSize * k : ℕ) : ℤ) - (poolBlockSize : ℕ)) =
      dataAt bufferEnd k := by
    unfold unsigned dataAt poolBlockSize
    omega
  have hhead :
      unsigned ((headAt startBuffer k : ℤ) + (headSize : ℕ)) = headAt startBuffer (k + 1) := by
    unfold unsigned headAt headSize
    omega
  have hroom : headAt startBuffer (k + 1) ≤ dataAt bufferEnd k := by
    unfold headAt dataAt headSize poolBlockSize
    omega
  have hhigh : dataAt bufferEnd k ≠ 0x100000 := by
    unfold headAt headSize at hroom
    omega
  unfold initRound
  dsimp only
  rw [hblock, hhead, if_pos hroom, if_neg hhigh]
  refine .bind_update (.bind_update (.pure ⟨rfl, ?_, fun i hi => ?_, fun i hi => ?_⟩))
  · show s.nrBuffers + 1 = _
    rw [h.count, Nat.add_assoc]
  · show Function.update s.head (headAt startBuffer k) _ (headAt startBuffer i) = _
    by_cases heq : i = k
    · subst heq
      rw [Function.update_self, h.others i le_rfl]
    · rw [Function.update_of_ne (mt headAt_inj.mp heq)]
      exact h.heads i (by omega)
  · show Function.update s.head (headAt startBuffer k) _ (headAt startBuffer i) = _
    rw [Function.update_of_ne (mt headAt_inj.mp (by omega))]
    exact h.others i (by omega)

/-- No other round fits. -/
theorem Rounds.last (hstart : 0x100000 ≤ startBuffer) (hend : bufferEnd < 4294967296) (hpos : 0 < k)
    (hfits : FitsPool startBuffer bufferEnd k) (hnot : ¬ FitsPool startBuffer bufferEnd (k + 1)) :
    Does (initRound (headAt startBuffer k) (bufferEnd - poolBlockSize * k)) () s fun x t =>
      x = .inr (headAt startBuffer k) ∧ t = s := by
  unfold FitsPool headSize poolBlockSize at hfits hnot
  have hroom : ¬ unsigned (((bufferEnd - poolBlockSize * k : ℕ) : ℤ) - (poolBlockSize : ℕ)) ≥
      unsigned ((headAt startBuffer k : ℤ) + (headSize : ℕ)) := by
    unfold unsigned headAt headSize poolBlockSize
    omega
  unfold initRound
  dsimp only
  rw [if_neg hroom]
  exact .pure ⟨rfl, rfl⟩

/-- The loop ends with as many headers as fit. -/
theorem rounds_all (hstart : 0x100000 ≤ startBuffer) (hend : bufferEnd < 4294967296) {count : ℕ}
    (hpos : 0 < count) (hfits : FitsPool startBuffer bufferEnd count)
    (hnot : ¬ FitsPool startBuffer bufferEnd (count + 1)) : ∀ {left k : ℕ} {s : RawPool},
    k + left = count → Rounds startBuffer bufferEnd s₀ k s →
    LoopDoes (fun p : ℕ × ℕ => initRound p.1 p.2) ()
      (headAt startBuffer k, bufferEnd - poolBlockSize * k) s fun h t =>
        h = headAt startBuffer count ∧ Rounds startBuffer bufferEnd s₀ count t := by
  intro left
  induction left with
  | zero =>
      intro k s hleft h
      obtain rfl : k = count := hleft
      refine .done ((Rounds.last hstart hend hpos hfits hnot).mono ?_)
      rintro _ _ ⟨rfl, rfl⟩
      exact ⟨_, rfl, rfl, h⟩
  | succ left ih =>
      intro k s hleft h
      have hle : k + 1 ≤ count := by omega
      refine .step ((h.round hstart hend (hfits.mono hle)).mono ?_)
      rintro _ t ⟨rfl, ht⟩
      exact ⟨_, rfl, ih (by omega) ht⟩

/-! ## The links -/

/-- The pool behind the loop, with the first and the last link patched. -/
def closed (startBuffer count : ℕ) (s : RawPool) : RawPool :=
  let s := { s with freeList := headAt startBuffer 0 }
  let s := s.setHead s.freeList fun x => { x with bPrevFree := headAt startBuffer (count - 1) }
  let s := s.setHead (headAt startBuffer (count - 1)) fun x => { x with bNextFree := s.freeList }
  { s with hashTable := fun _ => 0 }

variable {count i : ℕ}

theorem closed_head (i : ℕ) :
    (closed startBuffer count s).head (headAt startBuffer i) =
      { s.head (headAt startBuffer i) with
        bPrevFree := if i = 0 then headAt startBuffer (count - 1)
          else (s.head (headAt startBuffer i)).bPrevFree
        bNextFree := if i = count - 1 then headAt startBuffer 0
          else (s.head (headAt startBuffer i)).bNextFree } := by
  simp only [closed, RawPool.setHead, Function.update_apply, headAt_inj]
  by_cases hlast : i = count - 1
  · subst hlast
    by_cases hfirst : count - 1 = 0
    · simp [hfirst]
    · simp [hfirst]
  · by_cases hfirst : i = 0
    · subst hfirst
      simp [hlast]
    · simp [hfirst, hlast]

/-- The links and the data of a header. -/
theorem Rounds.links (h : Rounds startBuffer bufferEnd s₀ count s) (hend : bufferEnd < 4294967296)
    (hfits : FitsPool startBuffer bufferEnd count) (hi : i < count) :
    ((closed startBuffer count s).head (headAt startBuffer i)).bData = dataAt bufferEnd i ∧
      ((closed startBuffer count s).head (headAt startBuffer i)).bNextFree =
        headAt startBuffer ((i + 1) % count) ∧
      ((closed startBuffer count s).head (headAt startBuffer i)).bPrevFree =
        headAt startBuffer ((i + (count - 1)) % count) := by
  unfold FitsPool headSize poolBlockSize at hfits
  rw [closed_head, h.heads i hi]
  refine ⟨rfl, ?_, ?_⟩
  · dsimp only [RawHead.init]
    by_cases hlast : i = count - 1
    · rw [if_pos hlast, show i + 1 = count by omega, Nat.mod_self]
    · rw [if_neg hlast, Nat.mod_eq_of_lt (by omega)]
      unfold unsigned headAt headSize
      omega
  · dsimp only [RawHead.init]
    by_cases hfirst : i = 0
    · rw [if_pos hfirst, hfirst, Nat.zero_add, Nat.mod_eq_of_lt (by omega)]
    · have hmod : (i + (count - 1)) % count = i - 1 := by
        rw [show i + (count - 1) = i - 1 + count by omega, Nat.add_mod_right,
          Nat.mod_eq_of_lt (by omega)]
      rw [if_neg hfirst, hmod]
      unfold unsigned headAt headSize
      omega

/-- Nothing overlaps, and the links go round. -/
theorem Rounds.laid (h : Rounds startBuffer bufferEnd s₀ count s) (hnew : s₀.nrBuffers = 0)
    (hend : bufferEnd < 4294967296) (hpos : 0 < count)
    (hfits : FitsPool startBuffer bufferEnd count)
    (hnot : ¬ FitsPool startBuffer bufferEnd (count + 1)) :
    Laid startBuffer bufferEnd (closed startBuffer count s) := by
  have hcount : (closed startBuffer count s).nrBuffers = count := by
    show s.nrBuffers = count
    rw [h.count, hnew, Nat.zero_add]
  have hlinks := fun i (hi : i < count) => h.links hend hfits hi
  have hfits' := hfits
  unfold FitsPool headSize poolBlockSize at hfits' hnot
  -- the number is maximal, the ranges of headers and blocks lie apart, the list is a circle
  refine ⟨⟨?_, fun other hother => ?_⟩, ?_, ?_, ?_, ?_, ?_, fun i => ?_, ?_⟩
  · rw [hcount]
    exact hfits
  · have hother' : startBuffer + 36 * other + 1024 * other ≤ bufferEnd := hother
    rw [hcount]
    by_contra hlt
    -- a larger number would have room for one header and block more, and the loop would go on
    have hmore : startBuffer + 36 * (count + 1) + 1024 * (count + 1) ≤
        startBuffer + 36 * other + 1024 * other := by omega
    exact hnot (hmore.trans hother')
  all_goals rw [hcount]
  · intro i hi a ha
    obtain ⟨hlo, hhi⟩ := ha
    unfold headAt headSize at hlo hhi
    exact ⟨by omega, by omega⟩
  · intro i hi a ha
    rw [(hlinks i hi).1] at ha
    obtain ⟨hlo, hhi⟩ := ha
    unfold dataAt poolBlockSize at hlo hhi
    exact ⟨by omega, by omega⟩
  · intro i hi j hj hne
    refine Set.disjoint_left.mpr fun a ⟨hlo, hhi⟩ ⟨hlo', hhi'⟩ => ?_
    unfold headAt headSize at hlo hhi hlo' hhi'
    omega
  · intro i hi j hj hne
    rw [(hlinks i hi).1, (hlinks j hj).1]
    refine Set.disjoint_left.mpr fun a ⟨hlo, hhi⟩ ⟨hlo', hhi'⟩ => ?_
    unfold dataAt poolBlockSize at hlo hhi hlo' hhi'
    omega
  · intro i hi j hj
    rw [(hlinks j hj).1]
    refine Set.disjoint_left.mpr fun a ⟨hlo, hhi⟩ ⟨hlo', hhi'⟩ => ?_
    unfold headAt headSize at hlo hhi
    unfold dataAt poolBlockSize at hlo' hhi'
    omega
  · -- from the first header `i` links lead to the header `i` modulo their number
    induction i with
    | zero =>
        rw [Nat.zero_mod]
        rfl
    | succ i ih =>
        rw [Function.iterate_succ_apply', ih, (hlinks _ (Nat.mod_lt _ hpos)).2.1, Nat.mod_add_mod]
  · intro i hi
    have hnext : (i + 1) % count < count := Nat.mod_lt _ hpos
    have hprev : (i + (count - 1)) % count < count := Nat.mod_lt _ hpos
    rw [(hlinks i hi).2.1, (hlinks _ hnext).2.2, (hlinks i hi).2.2, (hlinks _ hprev).2.1,
      Nat.mod_add_mod, Nat.mod_add_mod, show i + 1 + (count - 1) = i + count by omega,
      show i + (count - 1) + 1 = i + count by omega, Nat.add_mod_right, Nat.mod_eq_of_lt hi]
    exact ⟨rfl, rfl⟩

end Rounds

/-- **The layout**: with room for one header and its block, `init_buff` makes as many headers as
fit between the end of the kernel and `buffer_end`, none of them and none of their blocks overlap,
and the free list goes round through all of them in both directions. -/
theorem initPool_layout {startBuffer bufferEnd : ℕ} {s : RawPool} (hstart : 0x100000 ≤ startBuffer)
    (hend : bufferEnd < 4294967296) (hblocks : bufferEnd % 1024 = 0)
    (hroom : startBuffer + 36 + 1024 ≤ bufferEnd) (hnew : s.nrBuffers = 0) :
    Does (initPool startBuffer bufferEnd) () s fun _ t => Laid startBuffer bufferEnd t := by
  obtain ⟨count, hcount⟩ : ∃ count, count = (bufferEnd - startBuffer) / 1060 := ⟨_, rfl⟩
  have hpos : 0 < count := by omega
  have hfits : FitsPool startBuffer bufferEnd count := by
    show startBuffer + 36 * count + 1024 * count ≤ bufferEnd
    omega
  have hnot : ¬ FitsPool startBuffer bufferEnd (count + 1) := by
    show ¬ startBuffer + 36 * (count + 1) + 1024 * (count + 1) ≤ bufferEnd
    omega
  have hstartRounds : Rounds startBuffer bufferEnd s 0 s :=
    ⟨rfl, fun i hi => absurd hi (Nat.not_lt_zero i), fun _ _ => rfl⟩
  have hloop := rounds_all hstart hend hpos hfits hnot (Nat.zero_add count) hstartRounds
  rw [Nat.mul_zero, Nat.sub_zero] at hloop
  have hlast : unsigned ((headAt startBuffer count : ℤ) - (headSize : ℕ)) =
      headAt startBuffer (count - 1) := by
    unfold FitsPool poolBlockSize at hfits
    unfold unsigned headAt headSize at *
    omega
  unfold initPool
  dsimp only
  rw [if_neg (by omega)]
  refine hloop.does.bind ?_
  rintro _ t ⟨rfl, ht⟩
  rw [hlast]
  exact .bind_update (.bind_update (.bind_update (.update (ht.laid hnew hend hpos hfits hnot))))

/-- A megabyte behind a kernel that ends at 1 MB. -/
theorem initPool_layout_megabyte :
    Does (initPool 0x100000 0x200000) ()
      ⟨fun _ => ⟨0, 0, 0, 0, 0, 0, 0, 0, 0, 0, 0, 0⟩, 0, 0, fun _ => 0⟩ fun _ t =>
        Laid 0x100000 0x200000 t :=
  initPool_layout (by decide) (by decide) (by decide) (by decide) rfl

end EgGS
