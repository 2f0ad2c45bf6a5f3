import EgGS.Model.Buffer

/-!
# Moving a header between lists

The functions that take a header off its lists and put it on others assign links,
hash table and free-list head only.  `BufferHead.core` is a header without its
links, and `Relinked` says that nothing but links changed.
-/

namespace EgGS

open Lib Prog

variable {n : ℕ} {env : Env n} {k : ℕ} {s s' s'' : Sys n} {b : Fin n}

/-- A buffer header without its links. -/
structure BufferCore where
  bBlocknr : ℕ
  bDev : ℕ
  bCount : ℕ
  bData : Block
  bUptodate : Bool
  bDirt : Bool
  bLock : Bool

/-- The header without its links. -/
def BufferHead.core (bh : BufferHead n) : BufferCore where
  bBlocknr := bh.bBlocknr
  bDev := bh.bDev
  bCount := bh.bCount
  bData := bh.bData
  bUptodate := bh.bUptodate
  bDirt := bh.bDirt
  bLock := bh.bLock

/-- Only links changed. -/
structure Relinked (s s' : Sys n) : Prop where
  rest : s' = { s with buf := s'.buf, hashTable := s'.hashTable, freeList := s'.freeList }
  core : ∀ c, (s'.buf c).core = (s.buf c).core

namespace Relinked

theorem refl (s : Sys n) : Relinked s s := ⟨rfl, fun _ => rfl⟩

theorem trans (h : Relinked s s') (h' : Relinked s' s'') : Relinked s s'' := by
  refine ⟨?_, fun c => (h'.core c).trans (h.core c)⟩
  rw [h'.rest, h.rest]

theorem setBuf (h : Relinked s s') {f : BufferHead n → BufferHead n}
    (hf : ∀ bh, (f bh).core = bh.core) : Relinked s (s'.setBuf b f) := by
  refine h.trans ⟨rfl, fun c => ?_⟩
  by_cases hc : c = b
  · subst hc; simpa using hf _
  · simp [hc]

theorem setLinked (h : Relinked s s') {link : Option (Fin n)} {f : BufferHead n → BufferHead n}
    (hf : ∀ bh, (f bh).core = bh.core) : Relinked s (s'.setLinked link f) := by
  cases link with
  | none => exact h
  | some b => exact h.setBuf hf

theorem setHash (h : Relinked s s') (table : Fin nrHash → Option (Fin n)) :
    Relinked s { s' with hashTable := table } := h.trans ⟨rfl, fun _ => rfl⟩

theorem setFree (h : Relinked s s') (b : Fin n) : Relinked s { s' with freeList := b } :=
  h.trans ⟨rfl, fun _ => rfl⟩

end Relinked

theorem removeFromHash_relinked (b : Fin n) (s : Sys n) : Relinked s (removeFromHash b s) := by
  unfold removeFromHash
  dsimp only
  split
  · refine .setHash (.setLinked (.setLinked (.refl s) ?_) ?_) _ <;> exact fun _ => rfl
  · refine .setLinked (.setLinked (.refl s) ?_) ?_ <;> exact fun _ => rfl

theorem removeFromFree_relinked (b prev next : Fin n) (s : Sys n) :
    Relinked s (removeFromFree b prev next s) := by
  unfold removeFromFree
  dsimp only
  split
  · refine .setFree (.setBuf (.setBuf (.refl s) ?_) ?_) _ <;> exact fun _ => rfl
  · refine .setBuf (.setBuf (.refl s) ?_) ?_ <;> exact fun _ => rfl

theorem insertIntoFree_relinked (b : Fin n) (s : Sys n) : Relinked s (insertIntoFree b s) := by
  unfold insertIntoFree
  refine .setBuf (.setLinked (.setBuf (.setBuf (.refl s) ?_) ?_) ?_) ?_ <;> exact fun _ => rfl

theorem insertIntoHash_relinked (b : Fin n) (s : Sys n) : Relinked s (insertIntoHash b s) := by
  unfold insertIntoHash
  dsimp only
  split
  · exact .setBuf (.refl s) fun _ => rfl
  · refine .setLinked (.setHash (.setBuf (.setBuf (.refl s) ?_) ?_) _) ?_ <;> exact fun _ => rfl

theorem removeFromQueues_eq_ok {u : Unit} (h : removeFromQueues b env k s = .ok u s') :
    ∃ prev next, ((removeFromHash b s).buf b).bPrevFree = some prev ∧
      ((removeFromHash b s).buf b).bNextFree = some next ∧
      s' = removeFromFree b prev next (removeFromHash b s) := by
  unfold removeFromQueues at h
  rw [update_bind, read_bind] at h
  cases hprev : ((removeFromHash b s).buf b).bPrevFree with
  | none => simp [hprev, panic] at h
  | some prev =>
      cases hnext : ((removeFromHash b s).buf b).bNextFree with
      | none => simp [hprev, hnext, panic] at h
      | some next =>
          simp only [hprev, hnext, update_run, Res.ok.injEq] at h
          exact ⟨prev, next, rfl, rfl, h.2.symm⟩

/-- The core of a header that was given a new block. -/
def BufferCore.renamed (c : BufferCore) (dev block : ℕ) : BufferCore :=
  { c with bDev := dev % 65536, bBlocknr := block, bCount := 1, bDirt := false, bUptodate := false }

/-- **Recycling.**  The header `b` belongs to the new block, is clean, not up to
date and referenced once; of the other headers only links change. -/
theorem reuse_spec {dev block : ℕ} {u : Unit} (h : reuse b dev block env k s = .ok u s') :
    s' = { s with
      buf := s'.buf, hashTable := s'.hashTable, freeList := s'.freeList,
      log := .recycled b :: s.log } ∧
    (s'.buf b).core = (s.buf b).core.renamed dev block ∧
    ∀ c, c ≠ b → (s'.buf c).core = (s.buf c).core := by
  unfold reuse at h
  simp only [update_bind, bind_eq_ok, update_run, Res.ok.injEq, true_and] at h
  obtain ⟨⟨⟩, s₁, hremove, rfl⟩ := h
  obtain ⟨prev, next, -, -, rfl⟩ := removeFromQueues_eq_ok hremove
  have hrem : Relinked (s.claim b) (removeFromFree b prev next (removeFromHash b (s.claim b))) :=
    (removeFromHash_relinked b _).trans (removeFromFree_relinked b prev next _)
  generalize removeFromFree b prev next (removeFromHash b (s.claim b)) = t at hrem ⊢
  have hins : Relinked (t.rename b dev block) (insertIntoQueues b (t.rename b dev block)) :=
    (insertIntoFree_relinked b _).trans (insertIntoHash_relinked b _)
  generalize insertIntoQueues b (t.rename b dev block) = s' at hins ⊢
  refine ⟨?_, ?_, fun c hc => ?_⟩
  · rw [hins.rest, Sys.rename, Sys.setBuf, hrem.rest]
    rfl
  · have hb := hrem.core b
    rw [hins.core]
    simp only [Sys.rename, Sys.claim, Sys.setBuf_buf, Sys.note_buf, Function.update_self,
      BufferHead.core, BufferCore.renamed, BufferCore.mk.injEq] at hb ⊢
    exact ⟨trivial, trivial, hb.2.2.1, hb.2.2.2.1, hb.2.2.2.2.1, hb.2.2.2.2.2.1, hb.2.2.2.2.2.2⟩
  · rw [hins.core]
    simpa [Sys.rename, Sys.claim, hc] using hrem.core c

end EgGS
