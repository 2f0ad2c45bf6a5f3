import EgGS.Paging.Map
import Mathlib.Data.List.Nodup
import Mathlib.Data.List.Perm.Basic

/-!
# The free frames

Freed frames lie on a stack.  A frame that is freed while the stack is full becomes memory of the
stack; otherwise it becomes an entry.  As long as no pop finds the highest page of the stack empty,
the entries and the frames of the stack are the frames that are free, each of them once.

When a pop does find it empty, the code hands out the frame of the page below, and unmaps the page
whose address is that frame.

* `popped_free`: in a run whose pops leave an entry on the highest page of the stack, every frame
  that is popped was free, and holds no part of the stack.
-/

namespace EgGS

open Lib

/-! ## Entries of the page map -/

/-- The address of a frame is aligned. -/
def PageAligned (page : UInt32) : Prop := page &&& pageMask = page

/-- The entry of a page of the stack. -/
def stackEntry (frame : UInt32) : UInt32 := pageVal frame (pagePresent ||| pageWrite)

theorem stackEntry_present (frame : UInt32) : present (stackEntry frame) :=
  present_or (by decide) _

theorem stackEntry_mask {frame : UInt32} (h : PageAligned frame) :
    stackEntry frame &&& pageMask = frame := by
  have hflags : (pagePresent ||| pageWrite) &&& pageFlagMask &&& pageMask = 0 := by decide
  unfold stackEntry pageVal
  rw [h, ← UInt32.toNat_inj, UInt32.toNat_and, UInt32.toNat_or, Nat.and_or_distrib_right,
    ← UInt32.toNat_and, ← UInt32.toNat_and, h, hflags]
  exact Nat.or_zero _

/-! ## The stack -/

/-- The frame holds part of the page stack. -/
def Pmm.HoldsStack (s : Pmm) (frame : UInt32) : Prop :=
  ∃ vaddr, pageStackVaddr ≤ vaddr ∧ vaddr < s.stackMax ∧ present (s.pageGet vaddr) ∧
    s.frameAt vaddr = frame

/-- The page stack is kept in `frames`, the lowest page first, and holds `entries`, the oldest one
first. -/
structure StackAt (s : Pmm) (frames entries : List UInt32) : Prop where
  stackMax : s.stackMax = pageStackVaddr + pageSize * frames.length
  stackPtr : s.stackPtr = pageStackVaddr + 4 * entries.length
  room : entries.length ≤ 1024 * frames.length
  mapped : ∀ j f, frames[j]? = some f → s.map (pageStackVaddr / pageSize + j) = stackEntry f
  entry : ∀ i e f, entries[i]? = some e → frames[i / 1024]? = some f → s.mem f (i % 1024) = e
  nodup : (frames ++ entries).Nodup
  aligned : ∀ f ∈ frames ++ entries, PageAligned f

namespace StackAt

variable {s : Pmm} {frames entries : List UInt32}

/-- The page of an address of the stack. -/
theorem page_of_index (i : ℕ) : (pageStackVaddr + 4 * i) / pageSize =
    pageStackVaddr / pageSize + i / 1024 ∧ (pageStackVaddr + 4 * i) % pageSize / 4 = i % 1024 := by
  unfold pageStackVaddr pageSize
  omega

theorem frameAt (h : StackAt s frames entries) {j : ℕ} {f : UInt32} (hf : frames[j]? = some f)
    {vaddr : ℕ} (hpage : vaddr / pageSize = pageStackVaddr / pageSize + j) :
    present (s.pageGet vaddr) ∧ s.frameAt vaddr = f := by
  have hentry : s.pageGet vaddr = stackEntry f := by
    unfold Pmm.pageGet
    rw [hpage]
    exact h.mapped j f hf
  have hmem := List.mem_append_left entries (List.mem_of_getElem? hf)
  unfold Pmm.frameAt
  rw [hentry]
  exact ⟨stackEntry_present f, stackEntry_mask (h.aligned f hmem)⟩

/-- The frames of the stack are those that hold part of it. -/
theorem mem_of_holds (h : StackAt s frames entries) {f : UInt32} (hf : s.HoldsStack f) :
    f ∈ frames := by
  obtain ⟨vaddr, hlo, hhi, -, hframe⟩ := hf
  rw [h.stackMax] at hhi
  obtain ⟨j, hj⟩ : ∃ j, vaddr / pageSize = pageStackVaddr / pageSize + j :=
    ⟨vaddr / pageSize - pageStackVaddr / pageSize, by unfold pageSize pageStackVaddr at *; omega⟩
  have hlt : j < frames.length := by
    unfold pageSize pageStackVaddr at *
    omega
  obtain ⟨-, hat⟩ := h.frameAt (List.getElem?_eq_getElem hlt) hj
  rw [← hframe, hat]
  exact List.getElem_mem hlt

theorem holds_of_mem (h : StackAt s frames entries) {f : UInt32} (hf : f ∈ frames) :
    s.HoldsStack f := by
  obtain ⟨j, hj, rfl⟩ := List.getElem_of_mem hf
  have hpage : (pageStackVaddr + pageSize * j) / pageSize = pageStackVaddr / pageSize + j := by
    unfold pageSize pageStackVaddr
    omega
  obtain ⟨hpresent, hat⟩ := h.frameAt (List.getElem?_eq_getElem hj) hpage
  refine ⟨_, Nat.le_add_right _ _, ?_, hpresent, hat⟩
  rw [h.stackMax]
  exact Nat.add_lt_add_left (Nat.mul_lt_mul_of_pos_left hj (by decide)) _

/-- An entry lies in a frame of the stack. -/
theorem frame_of_index (h : StackAt s frames entries) {i : ℕ} (hi : i < 1024 * frames.length) :
    ∃ f, frames[i / 1024]? = some f ∧ present (s.pageGet (pageStackVaddr + 4 * i)) ∧
      s.frameAt (pageStackVaddr + 4 * i) = f := by
  have hlt : i / 1024 < frames.length := by omega
  exact ⟨_, List.getElem?_eq_getElem hlt,
    h.frameAt (List.getElem?_eq_getElem hlt) (page_of_index i).1⟩

/-- What happens outside the stack does not change it. -/
theorem elsewhere (h : StackAt s frames entries) {map : ℕ → UInt32} {mem : UInt32 → ℕ → UInt32}
    (hmap : ∀ p, pageStackVaddr ≤ pageSize * p → pageSize * p < s.stackMax → map p = s.map p)
    (hmem : ∀ f, s.HoldsStack f → mem f = s.mem f) :
    StackAt { s with map, mem } frames entries := by
  refine ⟨h.stackMax, h.stackPtr, h.room, fun j f hj => ?_, fun i e f he hf => ?_, h.nodup,
    h.aligned⟩
  · have hlt : j < frames.length := (List.getElem?_eq_some_iff.mp hj).1
    have hmax := h.stackMax
    rw [← h.mapped j f hj]
    refine hmap _ ?_ ?_
    · unfold pageStackVaddr pageSize
      omega
    · rw [hmax]
      unfold pageStackVaddr pageSize
      omega
  · dsimp only
    rw [hmem f (h.holds_of_mem (List.mem_of_getElem? hf))]
    exact h.entry i e f he hf

/-! ## Freeing a frame -/

theorem freed (h : StackAt s frames entries) {page : UInt32} {s' : Pmm}
    (haligned : PageAligned page)
    (hpos : s.pos ≤ page) (hnew : page ∉ frames ++ entries) (hfree : pmmFreePage s page = .ok s') :
    ∃ frames' entries', StackAt s' frames' entries' ∧
      (frames' ++ entries').Perm (page :: (frames ++ entries)) := by
  have hnew' : (page :: (frames ++ entries)).Nodup := List.nodup_cons.mpr ⟨hnew, h.nodup⟩
  have haligned' : ∀ f ∈ page :: (frames ++ entries), PageAligned f := by
    intro f hf
    rcases List.mem_cons.mp hf with rfl | hf
    · exact haligned
    · exact h.aligned f hf
  have hmax := h.stackMax
  have hptr := h.stackPtr
  have hroom := h.room
  unfold pmmFreePage at hfree
  rw [haligned, if_neg (UInt32.not_lt.mpr hpos)] at hfree
  by_cases hfull : s.stackPtr ≥ s.stackMax
  · -- the frame is the next page of the stack
    rw [if_pos hfull] at hfree
    obtain rfl := Except.ok.inj hfree
    have hperm : (frames ++ [page] ++ entries).Perm (page :: (frames ++ entries)) := by
      rw [List.append_assoc, List.singleton_append]
      exact List.perm_middle
    have hnext : s.stackMax / pageSize = pageStackVaddr / pageSize + frames.length := by
      rw [hmax]
      unfold pageStackVaddr pageSize
      omega
    refine ⟨frames ++ [page], entries, ⟨?_, hptr, ?_, fun j f hj => ?_, fun i e f he hf => ?_,
      hperm.nodup_iff.mpr hnew', fun f hf => haligned' f (hperm.mem_iff.mp hf)⟩, hperm⟩
    · show s.stackMax + pageSize = _
      rw [hmax, List.length_append, List.length_singleton, Nat.mul_add, Nat.mul_one, Nat.add_assoc]
    · rw [List.length_append, List.length_singleton]
      omega
    · show Function.update s.map (s.stackMax / pageSize) (stackEntry page) _ = _
      rw [hnext]
      -- the new page of the stack is behind those that are mapped
      by_cases hj' : j = frames.length
      · subst hj'
        obtain rfl : page = f := by simpa using hj
        rw [Function.update_self]
      · have hold : frames[j]? = some f := by
          rw [List.getElem?_append] at hj
          split at hj
          · exact hj
          · rw [List.getElem?_singleton, if_neg (by omega)] at hj
            cases hj
        rw [Function.update_of_ne (by omega)]
        exact h.mapped j f hold
    · have hlt : i < entries.length := (List.getElem?_eq_some_iff.mp he).1
      rw [List.getElem?_append_left (by omega)] at hf
      exact h.entry i e f he hf
  · -- the frame is the next entry
    rw [if_neg hfull] at hfree
    have hlt : entries.length < 1024 * frames.length := by
      rw [hmax, hptr] at hfull
      unfold pageSize at hfull
      omega
    obtain ⟨g, hg, hpresent, hat⟩ := h.frame_of_index hlt
    rw [hptr, Pmm.store, if_pos hpresent, hat, (page_of_index entries.length).2] at hfree
    obtain rfl := Except.ok.inj hfree
    have hperm : (frames ++ (entries ++ [page])).Perm (page :: (frames ++ entries)) := by
      rw [← List.append_assoc]
      exact List.perm_append_singleton page (frames ++ entries)
    refine ⟨frames, entries ++ [page], ⟨hmax, ?_, ?_, h.mapped, fun i e f he hf => ?_,
      hperm.nodup_iff.mpr hnew', fun f hf => haligned' f (hperm.mem_iff.mp hf)⟩, hperm⟩
    · dsimp only
      rw [hptr, List.length_append, List.length_singleton]
      omega
    · rw [List.length_append, List.length_singleton]
      omega
    · show Function.update s.mem g (Function.update (s.mem g) (entries.length % 1024) page) f
        (i % 1024) = e
      -- the new entry is read back, and the entries below it lie at other addresses
      by_cases hlast : i = entries.length
      · subst hlast
        obtain rfl : g = f := Option.some.inj (hg.symm.trans hf)
        obtain rfl : page = e := by simpa using he
        rw [Function.update_self, Function.update_self]
      · have hold : entries[i]? = some e := by
          rw [List.getElem?_append] at he
          split at he
          · exact he
          · rw [List.getElem?_singleton, if_neg (by omega)] at he
            cases he
        rw [← h.entry i e f hold hf]
        by_cases hgf : f = g
        · -- two words of one frame
          subst hgf
          have hsame : i / 1024 = entries.length / 1024 := by
            have hframes := (List.nodup_append.mp h.nodup).1
            obtain ⟨hi, hfi⟩ := List.getElem?_eq_some_iff.mp hf
            obtain ⟨hl, hfl⟩ := List.getElem?_eq_some_iff.mp hg
            exact (List.Nodup.getElem_inj_iff hframes).mp (hfi.trans hfl.symm)
          rw [Function.update_self, Function.update_of_ne (by omega)]
        · rw [Function.update_of_ne hgf]

/-! ## Popping a frame -/

theorem popped (h : StackAt s frames entries) {page : UInt32} {s' : Pmm}
    (hrunning : s.running = true) (hleaves : s.stackMax - pageSize < s.stackPtr - 4)
    (hpop : popFreePhysicalPage s = .ok (page, s')) :
    ∃ entries', entries = entries' ++ [page] ∧ StackAt s' frames entries' := by
  have hptr := h.stackPtr
  have hroom := h.room
  unfold popFreePhysicalPage at hpop
  rw [if_neg (by simp [hrunning])] at hpop
  by_cases hempty : s.stackPtr = pageStackVaddr
  · rw [if_pos hempty] at hpop
    cases hpop
  · rw [if_neg hempty] at hpop
    dsimp only at hpop
    rw [if_neg (by omega)] at hpop
    obtain ⟨entries', last, rfl⟩ : ∃ entries' last, entries = entries' ++ [last] := by
      refine ⟨entries.dropLast, entries.getLast ?_, (List.dropLast_append_getLast _).symm⟩
      rintro rfl
      exact hempty hptr
    rw [List.length_append, List.length_singleton] at hptr hroom
    obtain ⟨f, hf, hpresent, hat⟩ := h.frame_of_index (i := entries'.length) (by omega)
    have haddr : s.stackPtr - 4 = pageStackVaddr + 4 * entries'.length := by omega
    have hword := h.entry entries'.length last f (by simp) hf
    have hload :
        ({ s with stackPtr := s.stackPtr - 4 } : Pmm).load (s.stackPtr - 4) = .ok last := by
      rw [haddr]
      show (if present (s.pageGet (pageStackVaddr + 4 * entries'.length)) then
        Except.ok (s.mem (s.frameAt (pageStackVaddr + 4 * entries'.length))
          ((pageStackVaddr + 4 * entries'.length) % pageSize / 4)) else _) = _
      rw [if_pos hpresent, hat, (page_of_index entries'.length).2, hword]
    rw [hload] at hpop
    obtain ⟨rfl, rfl⟩ := Prod.mk.inj (Except.ok.inj hpop)
    have hperm : (last :: (frames ++ entries')).Perm (frames ++ (entries' ++ [last])) := by
      rw [← List.append_assoc]
      exact (List.perm_append_singleton last (frames ++ entries')).symm
    refine ⟨entries', rfl, h.stackMax, haddr, by omega, h.mapped, fun i e g he hg => ?_,
      (List.nodup_cons.mp (hperm.nodup_iff.mpr h.nodup)).2,
      fun g hg => h.aligned g (hperm.mem_iff.mp (List.mem_cons_of_mem _ hg))⟩
    refine h.entry i e g ?_ hg
    rw [List.getElem?_append_left (List.getElem?_eq_some_iff.mp he).1]
    exact he

end StackAt

/-! ## Runs -/

/-- The calls of the allocator, with the frames that are free: they were freed, and not popped since
they were last freed.  A pop behind the first free happens in a state that `may` allows. -/
inductive PmmRun (may : Pmm → Prop) (s₀ : Pmm) : List UInt32 → Pmm → Prop
  | start : s₀.running = false → s₀.stackMax = pageStackVaddr → s₀.stackPtr = pageStackVaddr →
      PmmRun may s₀ [] s₀
  /-- A pop before the first free. -/
  | early {free : List UInt32} {s s' : Pmm} {page : UInt32} : PmmRun may s₀ free s →
      s.running = false → popFreePhysicalPage s = .ok (page, s') → PmmRun may s₀ free s'
  | free {free : List UInt32} {s s' : Pmm} {page : UInt32} : PmmRun may s₀ free s →
      PageAligned page → s.pos ≤ page → page ∉ free → pmmFreePage s page = .ok s' →
      PmmRun may s₀ (page :: free) s'
  | pop {free : List UInt32} {s s' : Pmm} {page : UInt32} : PmmRun may s₀ free s →
      s.running = true → may s → popFreePhysicalPage s = .ok (page, s') →
      PmmRun may s₀ (free.erase page) s'
  /-- Pages outside the stack are mapped, and frames that hold no part of it are written. -/
  | elsewhere {free : List UInt32} {s : Pmm} {map : ℕ → UInt32} {mem : UInt32 → ℕ → UInt32} :
      PmmRun may s₀ free s →
      (∀ p, pageStackVaddr ≤ pageSize * p → pageSize * p < s.stackMax → map p = s.map p) →
      (∀ f, s.HoldsStack f → mem f = s.mem f) → PmmRun may s₀ free { s with map, mem }

/-- The pop leaves an entry on the highest page of the stack. -/
def LeavesEntry (s : Pmm) : Prop := s.stackMax - pageSize < s.stackPtr - 4

/-- The stack holds the frames that are free, each of them once. -/
def HoldsFree (free : List UInt32) (s : Pmm) : Prop :=
  ∃ frames entries, StackAt s frames entries ∧ free.Perm (frames ++ entries)

theorem early_same {s s' : Pmm} {page : UInt32} (hrunning : s.running = false)
    (hpop : popFreePhysicalPage s = .ok (page, s')) : s' = { s with pos := s.pos + 0x1000 } := by
  unfold popFreePhysicalPage at hpop
  rw [if_pos hrunning] at hpop
  exact (Prod.mk.inj (Except.ok.inj hpop)).2.symm

theorem PmmRun.holdsFree {s₀ s : Pmm} {free : List UInt32} (hrun : PmmRun LeavesEntry s₀ free s) :
    HoldsFree free s := by
  induction hrun with
  | start _ hmax hptr =>
      refine ⟨[], [], ⟨hmax, hptr, le_rfl, fun j f hj => ?_, fun i e f he _ => ?_, List.nodup_nil,
        fun f hf => ?_⟩, .nil⟩
      · simp at hj
      · simp at he
      · simp at hf
  | early _ hrunning hpop ih =>
      obtain ⟨frames, entries, hat, hperm⟩ := ih
      obtain rfl := early_same hrunning hpop
      exact ⟨frames, entries,
        ⟨hat.stackMax, hat.stackPtr, hat.room, hat.mapped, hat.entry, hat.nodup, hat.aligned⟩,
        hperm⟩
  | free _ haligned hpos hnew hfree ih =>
      obtain ⟨frames, entries, hat, hperm⟩ := ih
      obtain ⟨frames', entries', hat', hperm'⟩ :=
        hat.freed haligned hpos (fun h => hnew (hperm.mem_iff.mpr h)) hfree
      exact ⟨frames', entries', hat', (hperm.cons _).trans hperm'.symm⟩
  | @pop free s s' page _ hrunning hleaves hpop ih =>
      obtain ⟨frames, entries, hat, hperm⟩ := ih
      obtain ⟨entries', rfl, hat'⟩ := hat.popped hrunning hleaves hpop
      refine ⟨frames, entries', hat', ?_⟩
      have hlast : free.Perm (page :: (frames ++ entries')) := by
        rw [← List.append_assoc] at hperm
        exact hperm.trans (List.perm_append_singleton page (frames ++ entries'))
      have herase := hlast.erase page
      rwa [List.erase_cons_head] at herase
  | elsewhere _ hmap hmem ih =>
      obtain ⟨frames, entries, hat, hperm⟩ := ih
      exact ⟨frames, entries, hat.elsewhere hmap hmem, hperm⟩

/-- **Frames are handed out once**: in a run whose pops leave an entry on the highest page of the
stack, a frame that is popped was freed and not popped since, and holds no part of the stack. -/
theorem popped_free {s₀ s s' : Pmm} {free : List UInt32} {page : UInt32}
    (hrun : PmmRun LeavesEntry s₀ free s) (hrunning : s.running = true) (hleaves : LeavesEntry s)
    (hpop : popFreePhysicalPage s = .ok (page, s')) :
    page ∈ free ∧ ¬ s.HoldsStack page ∧ ¬ s'.HoldsStack page := by
  obtain ⟨frames, entries, hat, hperm⟩ := hrun.holdsFree
  obtain ⟨entries', rfl, hat'⟩ := hat.popped hrunning hleaves hpop
  have hnot : page ∉ frames := fun h =>
    (List.disjoint_of_nodup_append hat.nodup) h
    (List.mem_append_right _ (List.mem_singleton_self _))
  refine ⟨hperm.mem_iff.mpr (by simp), fun h => hnot (hat.mem_of_holds h), fun h => ?_⟩
  exact hnot (hat'.mem_of_holds h)

/-! ## The last entry of a page -/

/-- The allocator before the first free, with frames from 2 MB on. -/
def freshPmm : Pmm where
  running := false
  pos := 0x00200000
  stackMax := pageStackVaddr
  stackPtr := pageStackVaddr
  map := fun _ => 0
  mem := fun _ _ => 0

/-- The state behind a free. -/
def afterFree (s : Pmm) (page : UInt32) : Pmm := ((pmmFreePage s page).toOption).getD s

theorem afterFree_eq {s : Pmm} {page : UInt32} (h : (pmmFreePage s page).toOption.isSome) :
    pmmFreePage s page = .ok (afterFree s page) := by
  unfold afterFree
  cases hfree : pmmFreePage s page with
  | ok s' => rfl
  | error why =>
      rw [hfree] at h
      cases h

theorem popped_of_fst {s : Pmm} {page : UInt32}
    (h : ((popFreePhysicalPage s).toOption.map Prod.fst) = some page) :
    ∃ s', popFreePhysicalPage s = .ok (page, s') := by
  cases hpop : popFreePhysicalPage s with
  | ok r =>
      rw [hpop] at h
      obtain ⟨r, s'⟩ := r
      obtain rfl := Option.some.inj h
      exact ⟨s', rfl⟩
  | error why =>
      rw [hpop] at h
      cases h

/-- The state behind two frees: a page of the stack, and an entry on it. -/
def twoFreed : Pmm := afterFree (afterFree freshPmm 0x00200000) 0x00201000

/-- The state behind three frees. -/
def threeFreed : Pmm := afterFree twoFreed 0x00202000

theorem twoFreed_run (may : Pmm → Prop) :
    PmmRun may freshPmm [0x00201000, 0x00200000] twoFreed := by
  have hfirst : PmmRun may freshPmm [0x00200000] (afterFree freshPmm 0x00200000) :=
    .free (.start rfl rfl rfl) (by unfold PageAligned; decide) (by decide) (by decide)
      (afterFree_eq (by decide +kernel))
  exact .free hfirst (by unfold PageAligned; decide) (by decide +kernel) (by decide)
    (afterFree_eq (by decide +kernel))

theorem threeFreed_run (may : Pmm → Prop) :
    PmmRun may freshPmm [0x00202000, 0x00201000, 0x00200000] threeFreed :=
  .free (twoFreed_run may) (by unfold PageAligned; decide) (by decide +kernel) (by decide)
    (afterFree_eq (by decide +kernel))

/-- With two entries on the page of the stack the frame freed last is popped. -/
theorem popped_free_third :
    ∃ s', popFreePhysicalPage threeFreed = .ok (0x00202000, s') ∧
      0x00202000 ∈ [(0x00202000 : UInt32), 0x00201000, 0x00200000] ∧
        ¬ threeFreed.HoldsStack 0x00202000 ∧ ¬ s'.HoldsStack 0x00202000 := by
  obtain ⟨s', hpop⟩ : ∃ s', popFreePhysicalPage threeFreed = .ok (0x00202000, s') :=
    popped_of_fst (by decide +kernel)
  exact ⟨s', hpop, popped_free (threeFreed_run LeavesEntry) (by decide +kernel)
    (by unfold LeavesEntry; decide +kernel) hpop⟩

/-- With one entry on it, frame 0 is popped, which was never freed. -/
theorem popped_unfreed :
    ∃ s', PmmRun (fun _ => True) freshPmm [0x00201000, 0x00200000] twoFreed ∧
      twoFreed.running = true ∧ popFreePhysicalPage twoFreed = .ok (0, s') ∧
        0 ∉ [(0x00201000 : UInt32), 0x00200000] := by
  obtain ⟨s', hpop⟩ : ∃ s', popFreePhysicalPage twoFreed = .ok (0, s') :=
    popped_of_fst (by decide +kernel)
  exact ⟨s', twoFreed_run _, by decide +kernel, hpop, by decide⟩

end EgGS
