import EgGS.Block.Order
import EgGS.Cache.Steps
import EgGS.Lib.Linked
import Mathlib.Algebra.Group.Fin.Basic
import Mathlib.Data.Fintype.Card

/-!
# The lists of the buffer cache

Every header is on one circular list, and a header with a device is on the hash
chain of its key, which is doubly linked and ends in `NULL` on both sides.
`Links` is that invariant.  Only `new_buff` moves a header, and it does so between
`remove_from_queues` and `insert_into_queues`, where it also changes the key.

In between the header is `Detached`: `Links.detach` takes it out, `Detached.rename` gives it its new
key and `Detached.attach` puts it back.  What one assignment of a link changes is said once for each
of the four functions (`removeFromHash_spec` and its like), and carried over to lists by the lemmas
of `Lib.Linked`.  `Links.findBuff_exact` is what the invariant is for: a chain is searched to its
end, so a header that is not found is not there.
-/

namespace EgGS

open Lib Prog Relation

variable {n : ℕ} {env : Env n} {k : ℕ} {s s' : Sys n} {b : Fin n} {dev block : ℕ}

/-! ## The invariant -/

/-- The key of a header and its links. -/
structure BufferThread (n : ℕ) where
  bBlocknr : ℕ
  bDev : ℕ
  bPrev : Option (Fin n)
  bNext : Option (Fin n)
  bPrevFree : Option (Fin n)
  bNextFree : Option (Fin n)

/-- The key of the header and its links. -/
def BufferHead.thread (bh : BufferHead n) : BufferThread n where
  bBlocknr := bh.bBlocknr
  bDev := bh.bDev
  bPrev := bh.bPrev
  bNext := bh.bNext
  bPrevFree := bh.bPrevFree
  bNextFree := bh.bNextFree

/-- The hash chain the header belongs on, if it has a device. -/
def Sys.bucket (s : Sys n) (b : Fin n) : Fin nrHash := hashfn (s.buf b).bDev (s.buf b).bBlocknr

/-- The free list is the circle `l`, from its head on. -/
structure FreeCircle (s : Sys n) (l : List (Fin n)) : Prop where
  ring : DCircle (fun b => (s.buf b).bNextFree) (fun b => (s.buf b).bPrevFree) l
  nodup : l.Nodup
  head : l.head? = some s.freeList

/-- The hash chains hold the headers in `on`, each on the chain of its key. -/
structure Hashed (s : Sys n) (on : Fin n → Prop) (chain : Fin nrHash → List (Fin n)) : Prop where
  list : ∀ h, DList (fun b => (s.buf b).bNext) (fun b => (s.buf b).bPrev) (s.hashTable h) (chain h)
  mem : ∀ h b, b ∈ chain h ↔ on b ∧ s.bucket b = h

/-- The two kinds of lists are well formed. -/
structure Links (s : Sys n) : Prop where
  free : ∃ l, FreeCircle s l ∧ ∀ b, b ∈ l
  hashed : ∃ chain, Hashed s (fun b => (s.buf b).bDev ≠ 0) chain
  unhashed : ∀ b, (s.buf b).bDev = 0 → (s.buf b).bPrev = none ∧ (s.buf b).bNext = none
  unique : ∀ b c, (s.buf b).bDev ≠ 0 → (s.buf c).bDev = (s.buf b).bDev →
    (s.buf c).bBlocknr = (s.buf b).bBlocknr → c = b

/-- The elevator can rely on the headers of the cache. -/
theorem Links.cached (h : Links s)
    (hsmall : ∀ b, (s.buf b).bLock = true → (s.buf b).bBlocknr < 2 ^ 31) : s.Cached :=
  ⟨fun b c hdev hkey => h.unique b c hdev hkey.1 hkey.2, hsmall⟩

/-- The headers have the same keys and the same links. -/
structure SameThreads (s s' : Sys n) : Prop where
  thread : ∀ b, (s'.buf b).thread = (s.buf b).thread
  hashTable : s'.hashTable = s.hashTable
  freeList : s'.freeList = s.freeList

namespace SameThreads

theorem setBuf {f : BufferHead n → BufferHead n} (hf : ∀ bh, (f bh).thread = bh.thread) :
    SameThreads s (s.setBuf b f) := by
  refine ⟨fun c => ?_, rfl, rfl⟩
  by_cases hc : c = b
  · subst hc; simpa using hf _
  · simp [hc]

theorem of_rest (h : s'.rest = s.rest) : SameThreads s s' := by
  have hlinks : ∀ b, s'.links b = s.links b := congrFun (congrArg Rest.links h)
  refine ⟨fun b => ?_, congrArg Rest.hashTable h, congrArg Rest.freeList h⟩
  have hb := hlinks b
  simp only [Sys.links] at hb
  simp only [BufferHead.thread, hb]

end SameThreads

theorem FreeCircle.congr {l : List (Fin n)} (h : FreeCircle s l)
    (hnext : ∀ b, (s'.buf b).bNextFree = (s.buf b).bNextFree)
    (hprev : ∀ b, (s'.buf b).bPrevFree = (s.buf b).bPrevFree) (hhead : s'.freeList = s.freeList) :
    FreeCircle s' l := by
  refine ⟨?_, h.nodup, hhead ▸ h.head⟩
  simpa only [hnext, hprev] using h.ring

theorem Hashed.congr {on on' : Fin n → Prop} {chain : Fin nrHash → List (Fin n)}
    (h : Hashed s on chain) (hnext : ∀ b, on b → (s'.buf b).bNext = (s.buf b).bNext)
    (hprev : ∀ b, on b → (s'.buf b).bPrev = (s.buf b).bPrev) (htable : s'.hashTable = s.hashTable)
    (hon : ∀ b, on' b ↔ on b) (hbucket : ∀ b, on b → s'.bucket b = s.bucket b) :
    Hashed s' on' chain := by
  refine ⟨fun h' => ?_, fun h' b => ?_⟩
  · rw [htable]
    exact (h.list h').congr (fun a ha => hnext a ((h.mem h' a).mp ha).1)
      fun a ha => hprev a ((h.mem h' a).mp ha).1
  · rw [h.mem, hon]
    exact and_congr_right fun hb => by rw [hbucket b hb]

theorem Links.congr (h : Links s) (hsame : SameThreads s s') : Links s' := by
  have hdev : ∀ b, (s'.buf b).bDev = (s.buf b).bDev :=
    fun b => congrArg BufferThread.bDev (hsame.thread b)
  have hnr : ∀ b, (s'.buf b).bBlocknr = (s.buf b).bBlocknr :=
    fun b => congrArg BufferThread.bBlocknr (hsame.thread b)
  have hnext : ∀ b, (s'.buf b).bNext = (s.buf b).bNext :=
    fun b => congrArg BufferThread.bNext (hsame.thread b)
  have hprev : ∀ b, (s'.buf b).bPrev = (s.buf b).bPrev :=
    fun b => congrArg BufferThread.bPrev (hsame.thread b)
  obtain ⟨l, hfree, hall⟩ := h.free
  obtain ⟨chain, hchain⟩ := h.hashed
  refine ⟨⟨l, hfree.congr ?_ ?_ hsame.freeList, hall⟩,
    ⟨chain, hchain.congr (fun b _ => hnext b) (fun b _ => hprev b) hsame.hashTable ?_ ?_⟩, ?_, ?_⟩
  · exact fun b => congrArg BufferThread.bNextFree (hsame.thread b)
  · exact fun b => congrArg BufferThread.bPrevFree (hsame.thread b)
  · exact fun b => by rw [hdev]
  · exact fun b _ => by rw [Sys.bucket, Sys.bucket, hdev, hnr]
  · simpa only [hdev, hnext, hprev] using h.unhashed
  · simpa only [hdev, hnr] using h.unique

/-! ## Moving a header -/

@[simp] theorem Sys.setLinked_buf (s : Sys n) (link : Option (Fin n))
    (f : BufferHead n → BufferHead n) (c : Fin n) :
    (s.setLinked link f).buf c = if link = some c then f (s.buf c) else s.buf c := by
  cases link with
  | none => simp [Sys.setLinked]
  | some b =>
      by_cases hc : b = c
      · subst hc; simp [Sys.setLinked]
      · simp [Sys.setLinked, hc, Ne.symm hc]

/-- A field after an assignment to a header. -/
theorem Sys.setBuf_at {γ : Type} (g : BufferHead n → γ) (s : Sys n) (b : Fin n)
    (f : BufferHead n → BufferHead n) (c : Fin n) :
    g ((s.setBuf b f).buf c) = if b = c then g (f (s.buf c)) else g (s.buf c) := by
  by_cases hc : b = c
  · subst hc; simp
  · simp [hc, Ne.symm hc]

/-- A field after an assignment to the header behind a link. -/
theorem Sys.setLinked_at {γ : Type} (g : BufferHead n → γ) (s : Sys n) (link : Option (Fin n))
    (f : BufferHead n → BufferHead n) (c : Fin n) :
    g ((s.setLinked link f).buf c) = if link = some c then g (f (s.buf c)) else g (s.buf c) := by
  rw [Sys.setLinked_buf, apply_ite g]

@[simp] theorem Sys.setLinked_hashTable (s : Sys n) (link : Option (Fin n))
    (f : BufferHead n → BufferHead n) : (s.setLinked link f).hashTable = s.hashTable := by
  cases link <;> rfl

@[simp] theorem Sys.setLinked_freeList (s : Sys n) (link : Option (Fin n))
    (f : BufferHead n → BufferHead n) : (s.setLinked link f).freeList = s.freeList := by
  cases link <;> rfl

theorem Hashed.next_mem {on : Fin n → Prop} {chain : Fin nrHash → List (Fin n)}
    (h : Hashed s on chain) {c : Fin n} (hb : on b) (hnext : (s.buf b).bNext = some c) :
    c ∈ chain (s.bucket b) ∧ c ≠ b :=
  (h.list (s.bucket b)).next_mem ((h.mem _ b).mpr ⟨hb, rfl⟩) hnext

theorem Hashed.prev_mem {on : Fin n → Prop} {chain : Fin nrHash → List (Fin n)}
    (h : Hashed s on chain) {c : Fin n} (hb : on b) (hprev : (s.buf b).bPrev = some c) :
    c ∈ chain (s.bucket b) ∧ c ≠ b :=
  (h.list (s.bucket b)).prev_mem ((h.mem _ b).mpr ⟨hb, rfl⟩) hprev

/-- No header is its own neighbour on a chain. -/
theorem Links.apart (h : Links s) (b : Fin n) :
    (s.buf b).bNext ≠ some b ∧ (s.buf b).bPrev ≠ some b := by
  obtain ⟨chain, hchain⟩ := h.hashed
  by_cases hb : (s.buf b).bDev = 0
  · obtain ⟨hprev, hnext⟩ := h.unhashed b hb
    simp [hprev, hnext]
  · exact ⟨fun hnext => (hchain.next_mem hb hnext).2 rfl,
      fun hprev => (hchain.prev_mem hb hprev).2 rfl⟩

/-- What `remove_from_queues` does to the chains, if the header is not its own neighbour. -/
theorem removeFromHash_spec (hnext : (s.buf b).bNext ≠ some b) (hprev : (s.buf b).bPrev ≠ some b) :
    (∀ c, ((removeFromHash b s).buf c).bNext =
      if (s.buf b).bPrev = some c then (s.buf b).bNext else (s.buf c).bNext) ∧
    (∀ c, ((removeFromHash b s).buf c).bPrev =
      if (s.buf b).bNext = some c then (s.buf b).bPrev else (s.buf c).bPrev) ∧
    (removeFromHash b s).hashTable =
      (if s.hashTable (s.bucket b) = some b then
        Function.update s.hashTable (s.bucket b) (s.buf b).bNext else s.hashTable) := by
  unfold removeFromHash
  dsimp only
  simp only [Sys.setLinked_buf, Sys.setLinked_hashTable, if_neg hnext, if_neg hprev]
  refine ⟨fun c => ?_, fun c => ?_, ?_⟩
  · split <;> simp only [Sys.setLinked_at fun bh => bh.bNext, ite_self]
  · split <;> simp only [Sys.setLinked_at fun bh => bh.bPrev, ite_self]
  · rw [Sys.bucket]
    split <;> simp

theorem removeFromHash_free (b : Fin n) (s : Sys n) :
    (∀ c, ((removeFromHash b s).buf c).bNextFree = (s.buf c).bNextFree) ∧
    (∀ c, ((removeFromHash b s).buf c).bPrevFree = (s.buf c).bPrevFree) ∧
    (removeFromHash b s).freeList = s.freeList := by
  unfold removeFromHash
  dsimp only
  refine ⟨fun c => ?_, fun c => ?_, ?_⟩
  · split <;> simp only [Sys.setLinked_at fun bh => bh.bNextFree, ite_self]
  · split <;> simp only [Sys.setLinked_at fun bh => bh.bPrevFree, ite_self]
  · split <;> simp

theorem Relinked.bucket (h : Relinked s s') (c : Fin n) : s'.bucket c = s.bucket c := by
  have hcore := h.core c
  rw [Sys.bucket, Sys.bucket, show (s'.buf c).bDev = _ from congrArg BufferCore.bDev hcore,
    show (s'.buf c).bBlocknr = _ from congrArg BufferCore.bBlocknr hcore]
  rfl

/-- The chains without the header `b`. -/
theorem Links.hashed_remove (h : Links s) (b : Fin n) :
    ∃ chain, Hashed (removeFromHash b s) (fun c => (s.buf c).bDev ≠ 0 ∧ c ≠ b) chain := by
  obtain ⟨chain, hchain⟩ := h.hashed
  obtain ⟨hnextb, hprevb⟩ := h.apart b
  obtain ⟨hnext, hprev, htable⟩ := removeFromHash_spec hnextb hprevb
  have hbucket := (removeFromHash_relinked b s).bucket
  by_cases hb : (s.buf b).bDev = 0
  · -- never hashed: nothing changes
    obtain ⟨hprev₀, hnext₀⟩ := h.unhashed b hb
    have hhead : s.hashTable (s.bucket b) ≠ some b := by
      intro hhead
      have hmem := (hchain.list (s.bucket b)).head_mem hhead
      exact ((hchain.mem _ b).mp hmem).1 hb
    simp only [hprev₀, hnext₀, if_neg hhead, reduceCtorEq, if_false] at hnext hprev htable
    refine ⟨chain, hchain.congr (fun c _ => hnext c) (fun c _ => hprev c) htable (fun c => ?_)
      fun c _ => hbucket c⟩
    refine and_iff_left_of_imp fun hc => ?_
    rintro rfl
    exact hc hb
  · -- its chain loses one cell, and the other chains have no cell in common with it
    have hmem : b ∈ chain (s.bucket b) := (hchain.mem _ b).mpr ⟨hb, rfl⟩
    obtain ⟨l₁, l₂, hsplit⟩ := List.append_of_mem hmem
    have hnodup := (hchain.list (s.bucket b)).nodup
    refine ⟨Function.update chain (s.bucket b) (l₁ ++ l₂), fun h' => ?_, fun h' c => ?_⟩
    · by_cases hh : h' = s.bucket b
      · subst hh
        have hlist := hchain.list (s.bucket b)
        rw [hsplit] at hlist
        have hrem := hlist.remove (fun a _ => hnext a) fun a _ => hprev a
        rw [htable, Function.update_self]
        split at hrem <;> rename_i hhead
        · simpa [hhead] using hrem
        · simpa [hhead] using hrem
      · -- another chain: a neighbour of `b` is in the chain of `b`, so no cell here is written
        have hother : ∀ a ∈ chain h', a ∉ chain (s.bucket b) := by
          intro a ha ha'
          exact hh (((hchain.mem _ a).mp ha).2.symm.trans ((hchain.mem _ a).mp ha').2)
        have htable' : (removeFromHash b s).hashTable h' = s.hashTable h' := by
          rw [htable]
          split
          · rw [Function.update_of_ne hh]
          · rfl
        rw [htable', Function.update_of_ne hh]
        refine (hchain.list h').congr (fun a ha => ?_) fun a ha => ?_
        · rw [hnext, if_neg fun heq => hother a ha (hchain.prev_mem hb heq).1]
        · rw [hprev, if_neg fun heq => hother a ha (hchain.next_mem hb heq).1]
    · rw [hbucket]
      by_cases hh : h' = s.bucket b
      · subst hh
        have hc := hchain.mem (s.bucket b) c
        rw [hsplit] at hc hnodup
        have hne : c ∈ l₁ ++ l₂ → c ≠ b := by
          rintro hc' rfl
          have := List.nodup_middle.mp hnodup
          exact (List.nodup_cons.mp this).1 hc'
        rw [Function.update_self, and_right_comm, ← hc]
        constructor
        · exact fun hc' => ⟨by simp only [List.mem_append, List.mem_cons] at hc' ⊢; tauto, hne hc'⟩
        · rintro ⟨hc', hcb⟩
          simp only [List.mem_append, List.mem_cons] at hc' ⊢
          tauto
      · rw [Function.update_of_ne hh, hchain.mem, and_right_comm]
        refine (and_iff_left_of_imp ?_).symm
        rintro ⟨_, hc⟩ rfl
        exact hh hc.symm

/-! ## The free list -/

/-- The free list without the header `b`, which may have been its only one. -/
def FreeWithout (s : Sys n) (b : Fin n) : Prop :=
  (∃ l, FreeCircle s l ∧ ∀ c, c ∈ l ↔ c ≠ b) ∨
    (s.freeList = b ∧ (s.buf b).bPrevFree = some b ∧ ∀ c, c = b)

theorem removeFromFree_spec (b prev next : Fin n) (s : Sys n) :
    (∀ c, ((removeFromFree b prev next s).buf c).bNextFree =
      if prev = c then some next else (s.buf c).bNextFree) ∧
    (∀ c, ((removeFromFree b prev next s).buf c).bPrevFree =
      if next = c then some prev else (s.buf c).bPrevFree) ∧
    (removeFromFree b prev next s).freeList = if s.freeList = b then next else s.freeList := by
  unfold removeFromFree
  dsimp only
  refine ⟨fun c => ?_, fun c => ?_, ?_⟩
  · split <;> simp only [Sys.setBuf_at fun bh => bh.bNextFree, ite_self]
  · split <;> simp only [Sys.setBuf_at fun bh => bh.bPrevFree, ite_self]
  · rw [Sys.setBuf_freeList, Sys.setBuf_freeList]
    split <;> rfl

/-- Off the free list. -/
theorem FreeCircle.remove {l : List (Fin n)} (h : FreeCircle s l) (hall : ∀ c, c ∈ l) (b : Fin n) :
    ∃ prev next, (s.buf b).bPrevFree = some prev ∧ (s.buf b).bNextFree = some next ∧
      FreeWithout (removeFromFree b prev next s) b := by
  obtain ⟨l₁, l₂, rfl⟩ := List.append_of_mem (hall b)
  obtain ⟨hnodup, hb⟩ : (l₁ ++ l₂).Nodup ∧ b ∉ l₁ ++ l₂ := by
    have := List.nodup_cons.mp (List.nodup_middle.mp h.nodup)
    exact ⟨this.2, this.1⟩
  have hcircle : DCircle (fun b => (s.buf b).bNextFree) (fun b => (s.buf b).bPrevFree)
      (b :: (l₂ ++ l₁)) := h.ring.rotate
  obtain ⟨next, hnext⟩ := hcircle.next_some
  obtain ⟨prev, hprev⟩ := hcircle.prev_some
  refine ⟨prev, next, hprev, hnext, ?_⟩
  obtain ⟨hnextFree, hprevFree, hfree⟩ := removeFromFree_spec b prev next s
  have hmem : ∀ c, c ∈ l₁ ++ l₂ ↔ c ≠ b := by
    intro c
    refine ⟨?_, fun hcb => ?_⟩
    · rintro hc rfl
      exact hb hc
    · have hc := hall c
      simp only [List.mem_append, List.mem_cons] at hc ⊢
      tauto
  -- `b` may be the only header, which then still points at itself
  by_cases hne : l₁ ++ l₂ = []
  · obtain ⟨rfl, rfl⟩ := List.append_eq_nil_iff.mp hne
    have hone : ∀ c, c = b := fun c => by simpa using hall c
    refine .inr ⟨?_, ?_, hone⟩
    · rw [hfree, hone next, hone s.freeList]
      simp
    · rw [hprevFree, hone next, hone prev]
      simp
  · refine .inl ⟨l₁ ++ l₂, ⟨?_, hnodup, ?_⟩, hmem⟩
    · refine DCircle.rotate (hcircle.remove (List.nodup_append_comm.mp hnodup) ?_ ?_ ?_)
      · exact fun h => hne (by simpa [and_comm] using h)
      · exact fun a _ => by rw [hnextFree, hprev, hnext]; simp
      · exact fun a _ => by rw [hprevFree, hprev, hnext]; simp
    · rw [hfree]
      have hhead := h.head
      -- `free_list` moves on if it was `b`
      cases l₁ with
      | nil =>
          obtain rfl : b = s.freeList := by simpa using hhead
          rw [if_pos rfl]
          have := hcircle.next_head (by simpa using hne)
          rw [hnext] at this
          simpa using this.symm
      | cons a l₁ =>
          obtain rfl : a = s.freeList := by simpa using hhead
          have hab : s.freeList ≠ b := fun heq => hb (heq ▸ List.mem_cons_self ..)
          rw [if_neg hab]
          rfl

/-- To the end of the free list. -/
theorem FreeWithout.insert (h : FreeWithout s b) :
    ∃ l, FreeCircle (insertIntoFree b s) (l ++ [b]) ∧ ∀ c, c ∈ l ++ [b] := by
  have hhead : (insertIntoFree b s).freeList = s.freeList := by
    simp [insertIntoFree]
  rcases h with ⟨l, hfree, hmem⟩ | ⟨hb, hprev, hone⟩
  · -- there are other headers, and `b` goes between the last one and the first
    have hf : s.freeList ∈ l := List.mem_of_mem_head? hfree.head
    have hfb : s.freeList ≠ b := (hmem _).mp hf
    have hbl : b ∉ l := fun hb => (hmem b).mp hb rfl
    have hnext : ∀ c, ((insertIntoFree b s).buf c).bNextFree =
        if (s.buf s.freeList).bPrevFree = some c then some b
        else if b = c then some s.freeList else (s.buf c).bNextFree := by
      intro c
      unfold insertIntoFree
      dsimp only
      simp only [Sys.setBuf_at fun bh => bh.bNextFree, Sys.setLinked_at fun bh => bh.bNextFree,
        Sys.setBuf_at fun bh => bh.bPrevFree, Sys.setBuf_freeList, ite_self]
    have hprev : ∀ c, ((insertIntoFree b s).buf c).bPrevFree =
        if s.freeList = c then some b
        else if b = c then (s.buf s.freeList).bPrevFree else (s.buf c).bPrevFree := by
      intro c
      unfold insertIntoFree
      dsimp only
      simp only [Sys.setBuf_at fun bh => bh.bPrevFree, Sys.setLinked_at fun bh => bh.bPrevFree,
        Sys.setBuf_freeList, Sys.setLinked_freeList, ite_self]
    obtain ⟨l', rfl⟩ : ∃ l', l = s.freeList :: l' := by
      cases l with
      | nil => simp at hf
      | cons a l' => exact ⟨l', by rw [Option.some.inj hfree.head]⟩
    -- `b_prev_free` of the first header names the last one, which `insert_into_free` links to `b`
    obtain ⟨last, hlast⟩ := hfree.ring.prev_some
    have hlb : last ≠ b := (hmem last).mp (hfree.ring.prev_mem hlast)
    refine ⟨s.freeList :: l', ⟨?_, ?_, ?_⟩, fun c => ?_⟩
    · refine hfree.ring.push hfree.nodup rfl ?_ ?_ (fun a ha => ?_) fun a ha => ?_
      · rw [hnext, hlast, if_neg (by simpa using hlb), if_pos rfl]
      · rw [hprev, if_neg hfb, if_pos rfl]
      · have hab : b ≠ a := fun heq => hbl (heq ▸ ha)
        rw [hnext, if_neg hab]
      · have hab : b ≠ a := fun heq => hbl (heq ▸ ha)
        rw [hprev, if_neg hab]
        simp only [eq_comm]
    · exact List.nodup_append.mpr ⟨hfree.nodup, by simp, by
        rintro x hx y hy rfl
        exact hbl (List.mem_singleton.mp hy ▸ hx)⟩
    · rw [hhead]
      rfl
    · by_cases hc : c = b
      · simp [hc]
      · exact List.mem_append_left _ ((hmem c).mpr hc)
  · -- `b` is the only header, and its links still name itself
    have hself : ((insertIntoFree b s).buf b).bNextFree = some b ∧
        ((insertIntoFree b s).buf b).bPrevFree = some b := by
      unfold insertIntoFree
      dsimp only
      simp only [Sys.setBuf_at fun bh => bh.bNextFree, Sys.setLinked_at fun bh => bh.bNextFree,
        Sys.setBuf_at fun bh => bh.bPrevFree, Sys.setLinked_at fun bh => bh.bPrevFree,
        Sys.setBuf_freeList, Sys.setLinked_freeList, hb, hprev, ite_self, if_true]
      exact ⟨trivial, trivial⟩
    refine ⟨[], ⟨⟨some b, some b, rfl, hself.2, rfl, hself.1.symm⟩, List.nodup_singleton b, ?_⟩,
      fun c => by simp [hone c]⟩
    rw [hhead, hb]
    rfl

/-! ## The hash chain of the new key -/

theorem insertIntoHash_free (b : Fin n) (s : Sys n) :
    (∀ c, ((insertIntoHash b s).buf c).bNextFree = (s.buf c).bNextFree) ∧
    (∀ c, ((insertIntoHash b s).buf c).bPrevFree = (s.buf c).bPrevFree) ∧
    (insertIntoHash b s).freeList = s.freeList := by
  unfold insertIntoHash
  dsimp only
  refine ⟨fun c => ?_, fun c => ?_, ?_⟩
  · split <;> simp only [Sys.setLinked_at fun bh => bh.bNextFree,
      Sys.setBuf_at fun bh => bh.bNextFree, ite_self]
  · split <;> simp only [Sys.setLinked_at fun bh => bh.bPrevFree,
      Sys.setBuf_at fun bh => bh.bPrevFree, ite_self]
  · split <;> simp

theorem insertIntoFree_hash (b : Fin n) (s : Sys n) :
    (∀ c, ((insertIntoFree b s).buf c).bNext = (s.buf c).bNext) ∧
    (∀ c, ((insertIntoFree b s).buf c).bPrev = (s.buf c).bPrev) ∧
    (insertIntoFree b s).hashTable = s.hashTable := by
  unfold insertIntoFree
  dsimp only
  refine ⟨fun c => ?_, fun c => ?_, ?_⟩
  · simp only [Sys.setLinked_at fun bh => bh.bNext, Sys.setBuf_at fun bh => bh.bNext, ite_self]
  · simp only [Sys.setLinked_at fun bh => bh.bPrev, Sys.setBuf_at fun bh => bh.bPrev, ite_self]
  · exact (Sys.setLinked_hashTable _ _ _).trans rfl

theorem removeFromFree_hash (b prev next : Fin n) (s : Sys n) :
    (∀ c, ((removeFromFree b prev next s).buf c).bNext = (s.buf c).bNext) ∧
    (∀ c, ((removeFromFree b prev next s).buf c).bPrev = (s.buf c).bPrev) ∧
    (removeFromFree b prev next s).hashTable = s.hashTable := by
  unfold removeFromFree
  dsimp only
  refine ⟨fun c => ?_, fun c => ?_, ?_⟩
  · split <;> simp only [Sys.setBuf_at fun bh => bh.bNext, ite_self]
  · split <;> simp only [Sys.setBuf_at fun bh => bh.bPrev, ite_self]
  · split <;> rfl

/-- What `insert_into_queues` does to the chains, for a header with a device. -/
theorem insertIntoHash_spec (hdev : (s.buf b).bDev ≠ 0) :
    (∀ c, ((insertIntoHash b s).buf c).bNext =
      if b = c then s.hashTable (s.bucket b) else (s.buf c).bNext) ∧
    (∀ c, ((insertIntoHash b s).buf c).bPrev =
      if s.hashTable (s.bucket b) = some c then some b
      else if b = c then none else (s.buf c).bPrev) ∧
    (insertIntoHash b s).hashTable = Function.update s.hashTable (s.bucket b) (some b) := by
  have hd : ((s.setBuf b fun bh => { bh with bPrev := none, bNext := none }).buf b).bDev =
      (s.buf b).bDev := by simp
  have hr : ((s.setBuf b fun bh => { bh with bPrev := none, bNext := none }).buf b).bBlocknr =
      (s.buf b).bBlocknr := by simp
  unfold insertIntoHash
  dsimp only
  simp only [hd, hr, if_neg hdev]
  refine ⟨fun c => ?_, fun c => ?_, ?_⟩
  · simp only [Sys.setLinked_at fun bh => bh.bNext, Sys.setBuf_at fun bh => bh.bNext, ite_self,
      Sys.setBuf_hashTable, Sys.bucket]
    split <;> rfl
  · simp only [Sys.setLinked_at fun bh => bh.bPrev, Sys.setBuf_at fun bh => bh.bPrev,
      Sys.setBuf_at fun bh => bh.bNext, ite_self, Sys.setBuf_hashTable, Sys.bucket, if_true]
    rfl
  · exact (Sys.setLinked_hashTable _ _ _).trans rfl

/-- To the front of the chain of the key. -/
theorem Hashed.insert {on : Fin n → Prop} {chain : Fin nrHash → List (Fin n)}
    (h : Hashed s (fun c => on c ∧ c ≠ b) chain) (hon : on b) (hdev : (s.buf b).bDev ≠ 0) :
    ∃ chain, Hashed (insertIntoHash b s) on chain := by
  obtain ⟨hnext, hprev, htable⟩ := insertIntoHash_spec hdev
  have hbucket := (insertIntoHash_relinked b s).bucket
  have hfresh : ∀ h', b ∉ chain h' := fun h' hb => ((h.mem h' b).mp hb).1.2 rfl
  have hne : ∀ h' a, a ∈ chain h' → b ≠ a := fun h' a ha heq => hfresh h' (heq ▸ ha)
  refine ⟨Function.update chain (s.bucket b) (b :: chain (s.bucket b)), fun h' => ?_, fun h' c =>
    ?_⟩
  · by_cases hh : h' = s.bucket b
    · subst hh
      rw [htable, Function.update_self, Function.update_self]
      -- its own chain gets `b` in front
      refine (h.list (s.bucket b)).push ?_ ?_ (fun a ha => ?_) fun a ha => ?_
      · rw [hnext, if_pos rfl]
      · rw [hprev, if_neg, if_pos rfl]
        exact fun hhead => hfresh _ ((h.list (s.bucket b)).head_mem hhead)
      · rw [hnext, if_neg (hne _ a ha)]
      · rw [hprev, if_neg (hne _ a ha)]
    · rw [htable, Function.update_of_ne hh, Function.update_of_ne hh]
      -- the other chains have no cell that is written
      refine (h.list h').congr (fun a ha => ?_) fun a ha => ?_
      · rw [hnext, if_neg (hne _ a ha)]
      · rw [hprev, if_neg, if_neg (hne _ a ha)]
        intro hhead
        have hmem := (h.list (s.bucket b)).head_mem hhead
        exact hh (((h.mem h' a).mp ha).2.symm.trans ((h.mem _ a).mp hmem).2)
  · rw [hbucket]
    by_cases hcb : c = b
    · subst hcb
      by_cases hh : h' = s.bucket c
      · subst hh
        simp [hon]
      · rw [Function.update_of_ne hh]
        exact iff_of_false (hfresh h') fun hc => hh hc.2.symm
    · have hmem : c ∈ Function.update chain (s.bucket b) (b :: chain (s.bucket b)) h' ↔
          c ∈ chain h' := by
        by_cases hh : h' = s.bucket b
        · subst hh
          simp [hcb]
        · rw [Function.update_of_ne hh]
      rw [hmem, h.mem]
      simp [hcb]

/-! ## Looking up -/

instance (s : Sys n) (b : Fin n) (dev block : ℕ) : Decidable (s.Keyed b dev block) :=
  inferInstanceAs (Decidable (_ ∧ _))

/-- With fuel for the chain, `find_buff` finds the first header with the key. -/
theorem findBuff_run {l : List (Fin n)}
    (hchain : Chain (fun b => (s.buf b).bNext) (s.hashTable (hashfn dev block)) l)
    (hk : l.length < k) :
    findBuff dev block env k s = .ok (l.find? fun b => s.Keyed b dev block) s := by
  unfold findBuff
  rw [read_bind]
  generalize s.hashTable (hashfn dev block) = p at hchain
  change rounds _ k p env k s = _
  -- the rounds left, apart from the fuel of the body, which it does not use
  obtain ⟨j, hj⟩ : ∃ j, j = k := ⟨k, rfl⟩
  rw [← hj] at hk
  nth_rewrite 1 [← hj]
  clear hj
  induction l generalizing p j with
  | nil =>
      obtain ⟨j, rfl⟩ : ∃ i, j = i + 1 := ⟨j - 1, by simp at hk; omega⟩
      rw [chain_nil] at hchain
      subst hchain
      rfl
  | cons b l ih =>
      obtain ⟨j, rfl⟩ : ∃ i, j = i + 1 := ⟨j - 1, by simp at hk; omega⟩
      obtain ⟨rfl, hrest⟩ := hchain
      rw [List.length_cons, Nat.add_lt_add_iff_right] at hk
      by_cases hkey : s.Keyed b dev block
      · have hkey' : (s.buf b).bDev = dev ∧ (s.buf b).bBlocknr = block := hkey
        rw [List.find?_cons_of_pos (by simpa using hkey)]
        simp only [rounds, bind_run, read_run, ite_run, pure_run]
        rw [if_pos hkey']
        rfl
      · have hkey' : ¬ ((s.buf b).bDev = dev ∧ (s.buf b).bBlocknr = block) := hkey
        rw [List.find?_cons_of_neg (by simpa using hkey), ← ih _ hrest j hk]
        simp only [rounds, bind_run, read_run, ite_run, pure_run]
        rw [if_neg hkey']

/-- **`find_buff` is exact.**  With enough fuel it returns the header of the block,
or `NULL` if there is none. -/
theorem Links.findBuff_exact (h : Links s) (hdev : dev ≠ 0) (hk : n < k) :
    (∀ b, s.Keyed b dev block → findBuff dev block env k s = .ok (some b) s) ∧
    ((∀ b, ¬ s.Keyed b dev block) → findBuff dev block env k s = .ok none s) := by
  obtain ⟨chain, hchain⟩ := h.hashed
  have hlist := hchain.list (hashfn dev block)
  have hlen : (chain (hashfn dev block)).length < k := by
    have := List.Nodup.length_le_card hlist.nodup
    rw [Fintype.card_fin] at this
    omega
  rw [findBuff_run hlist.chain hlen]
  refine ⟨fun b hb => ?_, fun hnone => ?_⟩
  · have hmem : b ∈ chain (hashfn dev block) := by
      refine (hchain.mem _ b).mpr ⟨by rwa [hb.1], ?_⟩
      rw [Sys.bucket, hb.1, hb.2]
    cases hfind : (chain (hashfn dev block)).find? fun b => s.Keyed b dev block with
    | none => exact absurd hb (by simpa using List.find?_eq_none.mp hfind b hmem)
    | some c =>
        have hc : s.Keyed c dev block := by simpa using List.find?_some hfind
        rw [h.unique b c (by rwa [hb.1]) (hc.1.trans hb.1.symm) (hc.2.trans hb.2.symm)]
  · rw [List.find?_eq_none.mpr fun b _ => by simpa using hnone b]

/-- If `find_buff` finds nothing, no header has the key. -/
theorem Links.missing (h : Links s) (hdev : dev ≠ 0)
    (hfind : findBuff dev block env k s = .ok none s) : ∀ b, ¬ s.Keyed b dev block := by
  obtain ⟨chain, hchain⟩ := h.hashed
  have hlist := hchain.list (hashfn dev block)
  unfold findBuff at hfind
  rw [read_bind] at hfind
  have hnone : ∀ b ∈ chain (hashfn dev block), ¬ s.Keyed b dev block := by
    -- the search walks down the chain, and every header of the block is still ahead of it
    refine iterate_ensures
      (I := fun p t => t = s ∧ ∃ l, Chain (fun b => (s.buf b).bNext) p l ∧
        ∀ b ∈ chain (hashfn dev block), s.Keyed b dev block → b ∈ l)
      (Q := fun found _ => found = none → ∀ b ∈ chain (hashfn dev block), ¬ s.Keyed b dev block)
      ?_ ?_ ⟨rfl, _, hlist.chain, fun b hb _ => hb⟩ hfind rfl
    · rintro p t p' t' ⟨rfl, l, hl, hkeyed⟩ hround
      rw [read_bind] at hround
      cases l with
      | nil =>
          rw [chain_nil] at hl
          subst hl
          simp at hround
      | cons b l =>
          obtain ⟨rfl, hrest⟩ := hl
          simp only [ite_run, pure_run] at hround
          split at hround <;> rename_i hkey
          · simp at hround
          · simp only [Res.ok.injEq, Sum.inl.injEq] at hround
            obtain ⟨rfl, rfl⟩ := hround
            refine ⟨rfl, l, hrest, fun c hc hkeyc => ?_⟩
            refine (List.mem_cons.mp (hkeyed c hc hkeyc)).resolve_left ?_
            rintro rfl
            exact hkey hkeyc
    · rintro p t found t' ⟨rfl, l, hl, hkeyed⟩ hround rfl
      rw [read_bind] at hround
      cases l with
      -- the end of the chain: none is ahead any more
      | nil => exact fun b hb hkey => absurd (hkeyed b hb hkey) (by simp)
      | cons b l =>
          obtain ⟨rfl, hrest⟩ := hl
          simp only [ite_run, pure_run] at hround
          split at hround <;> simp at hround
  intro b hb
  refine hnone b ((hchain.mem _ b).mpr ⟨by rwa [hb.1], ?_⟩) hb
  rw [Sys.bucket, hb.1, hb.2]

/-! ## Recycling -/

theorem Relinked.bDev (h : Relinked s s') (c : Fin n) : (s'.buf c).bDev = (s.buf c).bDev :=
  congrArg BufferCore.bDev (h.core c)

theorem Relinked.bBlocknr (h : Relinked s s') (c : Fin n) :
    (s'.buf c).bBlocknr = (s.buf c).bBlocknr :=
  congrArg BufferCore.bBlocknr (h.core c)

/-- The lists without the header `b`, between `remove_from_queues` and
`insert_into_queues`. -/
structure Detached (s : Sys n) (b : Fin n) : Prop where
  free : FreeWithout s b
  hashed : ∃ chain, Hashed s (fun c => (s.buf c).bDev ≠ 0 ∧ c ≠ b) chain
  unhashed : ∀ c ≠ b, (s.buf c).bDev = 0 → (s.buf c).bPrev = none ∧ (s.buf c).bNext = none
  unique : ∀ c ≠ b, ∀ d ≠ b, (s.buf c).bDev ≠ 0 → (s.buf d).bDev = (s.buf c).bDev →
    (s.buf d).bBlocknr = (s.buf c).bBlocknr → d = c

/-- `remove_from_queues` takes a header off both lists. -/
theorem Links.detach (h : Links s) (b : Fin n) :
    ∃ t, (∀ env k, removeFromQueues b env k s = .ok () t) ∧ Detached t b ∧ Relinked s t := by
  obtain ⟨chain, hchain⟩ := h.hashed_remove b
  obtain ⟨l, hfree, hall⟩ := h.free
  obtain ⟨hnextFree, hprevFree, hfreeList⟩ := removeFromHash_free b s
  obtain ⟨prev, next, hprev, hnext, hwithout⟩ :=
    (hfree.congr hnextFree hprevFree hfreeList).remove hall b
  obtain ⟨hnext₁, hprev₁, htable₁⟩ := removeFromFree_hash b prev next (removeFromHash b s)
  have hrelinked := removeFromFree_relinked b prev next (removeFromHash b s)
  have hall' := (removeFromHash_relinked b s).trans hrelinked
  refine ⟨_, fun env k => ?_, ⟨hwithout, ⟨chain, hchain.congr (fun c _ => hnext₁ c)
    (fun c _ => hprev₁ c) htable₁ ?_ ?_⟩, ?_, ?_⟩, hall'⟩
  · simp only [removeFromQueues, bind_run, update_run, read_run, hprev, hnext]
  · exact fun c => by rw [hall'.bDev]
  · exact fun c _ => hrelinked.bucket c
  · intro c _ hc
    rw [hall'.bDev] at hc
    obtain ⟨hnextb, hprevb⟩ := h.apart b
    obtain ⟨hnext₂, hprev₂, -⟩ := removeFromHash_spec hnextb hprevb
    obtain ⟨chain₀, hchain₀⟩ := h.hashed
    -- a header without a device is nobody's neighbour
    have halone : (s.buf b).bPrev ≠ some c ∧ (s.buf b).bNext ≠ some c := by
      by_cases hb : (s.buf b).bDev = 0
      · obtain ⟨hp, hn⟩ := h.unhashed b hb
        simp [hp, hn]
      · exact ⟨fun hp => ((hchain₀.mem _ c).mp (hchain₀.prev_mem hb hp).1).1 hc,
          fun hn => ((hchain₀.mem _ c).mp (hchain₀.next_mem hb hn).1).1 hc⟩
    rw [hnext₁, hprev₁, hnext₂, hprev₂, if_neg halone.1, if_neg halone.2]
    exact h.unhashed c hc
  · intro c _ d _ hc hdev hnr
    simp only [hall'.bDev, hall'.bBlocknr] at hc hdev hnr
    exact h.unique c d hc hdev hnr

theorem Detached.rename (h : Detached s b) (dev block : ℕ) : Detached (s.rename b dev block) b := by
  have hkey : ∀ c ≠ b, ((s.rename b dev block).buf c) = s.buf c := fun c hc => by
    simp [Sys.rename, hc]
  have hfield : ∀ {γ : Type} (g : BufferHead n → γ),
      (∀ bh, g { bh with bDev := dev % 65536, bBlocknr := block } = g bh) →
      ∀ c, g ((s.rename b dev block).buf c) = g (s.buf c) := by
    intro γ g hg c
    rw [Sys.rename, Sys.setBuf_at g, hg, ite_self]
  have hfree : FreeWithout (s.rename b dev block) b := by
    have hnextFree := hfield (fun bh => bh.bNextFree) fun _ => rfl
    have hprevFree := hfield (fun bh => bh.bPrevFree) fun _ => rfl
    rcases h.free with ⟨l, hl, hmem⟩ | ⟨hb, hp, hone⟩
    · exact .inl ⟨l, hl.congr hnextFree hprevFree rfl, hmem⟩
    · exact .inr ⟨hb, (hprevFree b).trans hp, hone⟩
  obtain ⟨chain, hchain⟩ := h.hashed
  refine ⟨hfree, ⟨chain, hchain.congr (fun c hc => ?_) (fun c hc => ?_) rfl ?_ fun c hc => ?_⟩,
    fun c hc => ?_, fun c hc d hd => ?_⟩
  · rw [hkey c hc.2]
  · rw [hkey c hc.2]
  · exact fun c => and_congr_left fun hc => by rw [hkey c hc]
  · rw [Sys.bucket, Sys.bucket, hkey c hc.2]
  · rw [hkey c hc]
    exact h.unhashed c hc
  · rw [hkey c hc, hkey d hd]
    exact h.unique c hc d hd

theorem insertIntoHash_none (hdev : (s.buf b).bDev = 0) :
    insertIntoHash b s = s.setBuf b fun bh => { bh with bPrev := none, bNext := none } := by
  unfold insertIntoHash
  dsimp only
  rw [if_pos]
  simpa using hdev

/-- `insert_into_queues` puts a header back, if no other has its key. -/
theorem Detached.attach (h : Detached s b)
    (hfresh : (s.buf b).bDev ≠ 0 → ∀ c ≠ b, ¬ s.Keyed c (s.buf b).bDev (s.buf b).bBlocknr) :
    Links (insertIntoQueues b s) := by
  obtain ⟨l, hcircle, hall⟩ := h.free.insert
  obtain ⟨chain, hchain⟩ := h.hashed
  obtain ⟨hnext, hprev, htable⟩ := insertIntoFree_hash b s
  obtain ⟨hnextFree, hprevFree, hfreeList⟩ := insertIntoHash_free b (insertIntoFree b s)
  have hfree := insertIntoFree_relinked b s
  have hhash := insertIntoHash_relinked b (insertIntoFree b s)
  have hboth : Relinked s (insertIntoQueues b s) := hfree.trans hhash
  replace hchain : Hashed (insertIntoFree b s) (fun c => (s.buf c).bDev ≠ 0 ∧ c ≠ b) chain :=
    hchain.congr (fun c _ => hnext c) (fun c _ => hprev c) htable (fun _ => Iff.rfl)
      fun c _ => hfree.bucket c
  have hunique : ∀ c d, (s.buf c).bDev ≠ 0 → (s.buf d).bDev = (s.buf c).bDev →
      (s.buf d).bBlocknr = (s.buf c).bBlocknr → d = c := by
    intro c d hc hdev hnr
    by_cases hcb : c = b
    · subst hcb
      by_contra hd
      exact hfresh hc d hd ⟨hdev, hnr⟩
    · by_cases hdb : d = b
      · subst hdb
        exact absurd ⟨hdev.symm, hnr.symm⟩ (hfresh (hdev ▸ hc) c hcb)
      · exact h.unique c hcb d hdb hc hdev hnr
  -- the circle, the chains, the headers without a device and the keys
  refine ⟨⟨l ++ [b], hcircle.congr hnextFree hprevFree hfreeList, hall⟩, ?_, fun c hc => ?_, ?_⟩
  · by_cases hb : (s.buf b).bDev = 0
    · -- without a device `b` gets on no chain
      have hsame := insertIntoHash_none (s := insertIntoFree b s) (b := b) (by rwa [hfree.bDev])
      refine ⟨chain, hchain.congr (fun c hc => ?_) (fun c hc => ?_) ?_ (fun c => ?_) fun c _ =>
        hhash.bucket c⟩
      · rw [insertIntoQueues, hsame, Sys.setBuf_buf, Function.update_of_ne hc.2]
      · rw [insertIntoQueues, hsame, Sys.setBuf_buf, Function.update_of_ne hc.2]
      · rw [insertIntoQueues, hsame]
        rfl
      · rw [hboth.bDev]
        refine (and_iff_left_of_imp ?_).symm
        rintro hc rfl
        exact hc hb
    · -- else it is put in front of the chain of its key
      obtain ⟨chain', hchain'⟩ := hchain.insert hb (by rwa [hfree.bDev])
      refine ⟨chain', hchain'.congr (fun _ _ => rfl) (fun _ _ => rfl) rfl (fun c => ?_)
        fun _ _ => rfl⟩
      rw [hboth.bDev]
  · rw [hboth.bDev] at hc
    by_cases hb : (s.buf b).bDev = 0
    · rw [insertIntoQueues, insertIntoHash_none (by rwa [hfree.bDev])]
      by_cases hcb : c = b
      · subst hcb
        simp
      · rw [Sys.setBuf_buf, Function.update_of_ne hcb, hnext, hprev]
        exact h.unhashed c hcb hc
    · -- the head of the chain gets a new `b_prev`, and `c` is on no chain
      have hcb : b ≠ c := fun heq => hb (heq ▸ hc)
      obtain ⟨hnext₁, hprev₁, -⟩ := insertIntoHash_spec (s := insertIntoFree b s) (b := b)
        (by rwa [hfree.bDev])
      have hhead : (insertIntoFree b s).hashTable ((insertIntoFree b s).bucket b) ≠ some c :=
        fun hhead => ((hchain.mem _ c).mp ((hchain.list _).head_mem hhead)).1.1 hc
      rw [insertIntoQueues, hnext₁, hprev₁, if_neg hhead, if_neg hcb, if_neg hcb, hnext, hprev]
      exact h.unhashed c hcb.symm hc
  · intro c d
    rw [hboth.bDev, hboth.bDev, hboth.bBlocknr, hboth.bBlocknr]
    exact hunique c d

/-- **Recycling moves the header to the chain of its new key.** -/
theorem Links.reuse_links (h : Links s) (hdev : dev < 65536)
    (hmissing : dev ≠ 0 → ∀ c, ¬ s.Keyed c dev block) (b : Fin n) :
    ∃ s', (∀ env k, reuse b dev block env k s = .ok () s') ∧ Links s' := by
  have hsame : SameThreads s (s.setBuf b fun bh =>
      { bh with bCount := 1, bDirt := false, bUptodate := false }) := .setBuf fun _ => rfl
  have hclaim : Links (s.claim b) := h.congr ⟨hsame.thread, rfl, rfl⟩
  obtain ⟨t, hrun, hdetached, hrelinked⟩ := hclaim.detach b
  refine ⟨insertIntoQueues b (t.rename b dev block), fun env k => ?_,
    (hdetached.rename dev block).attach ?_⟩
  · simp only [reuse, bind_run, update_run, hrun]
  · have hb : ((t.rename b dev block).buf b).bDev = dev ∧
        ((t.rename b dev block).buf b).bBlocknr = block := by
      simp [Sys.rename, Nat.mod_eq_of_lt hdev]
    rw [hb.1, hb.2]
    rintro hne c hc ⟨hcdev, hcnr⟩
    refine hmissing hne c ⟨?_, ?_⟩
    · simpa [Sys.rename, hc, hrelinked.bDev, Sys.claim] using hcdev
    · simpa [Sys.rename, hc, hrelinked.bBlocknr, Sys.claim] using hcnr

/-- **The recycled header is the last one of the free list.** -/
theorem Links.reuse_tail (h : Links s) (hrun : reuse b dev block env k s = .ok () s') :
    ∃ l, FreeCircle s' (l ++ [b]) ∧ ∀ c, c ∈ l ++ [b] := by
  have hsame : SameThreads s (s.setBuf b fun bh =>
      { bh with bCount := 1, bDirt := false, bUptodate := false }) := .setBuf fun _ => rfl
  have hclaim : Links (s.claim b) := h.congr ⟨hsame.thread, rfl, rfl⟩
  obtain ⟨t, hremove, hdetached, -⟩ := hclaim.detach b
  simp only [reuse, bind_run, update_run, hremove, Res.ok.injEq, true_and] at hrun
  obtain ⟨l, hcircle, hall⟩ := (hdetached.rename dev block).free.insert
  obtain ⟨hnextFree, hprevFree, hfreeList⟩ :=
    insertIntoHash_free b (insertIntoFree b (t.rename b dev block))
  exact ⟨l, hrun ▸ hcircle.congr hnextFree hprevFree hfreeList, hall⟩

/-! ## All steps -/

/-- `init_buff` makes the free list one circle, and leaves the chains empty. -/
theorem Links.init [NeZero n] (s : Sys n) : Links (initBuff s) := by
  have hcell : ∀ i, Fin.ofNat n i + 1 = Fin.ofNat n (i + 1) := fun i => by
    ext; simp [Fin.ofNat, Fin.val_add, Nat.add_mod]
  refine ⟨⟨(List.range n).map (Fin.ofNat n),
    ⟨DCircle.of_periodic (Nat.pos_of_ne_zero (NeZero.ne n)) ?_ ?_ ?_, ?_, ?_⟩, fun b => ?_⟩,
    ⟨fun _ => [], fun h => ⟨none, rfl, rfl⟩, fun h b => by simp [initBuff]⟩,
    fun _ _ => ⟨rfl, rfl⟩, fun _ _ hb => absurd rfl hb⟩
  · intro i
    ext
    simp [Fin.ofNat]
  · exact fun i => congrArg some (hcell i)
  · exact fun i => congrArg some (by rw [← hcell, add_sub_cancel_right])
  · refine List.Nodup.map_on (fun i hi j hj heq => ?_) List.nodup_range
    have hval := congrArg Fin.val heq
    simpa [Fin.ofNat, Nat.mod_eq_of_lt (List.mem_range.mp hi),
      Nat.mod_eq_of_lt (List.mem_range.mp hj)] using hval
  · obtain ⟨m, rfl⟩ : ∃ m, n = m + 1 := ⟨n - 1, by have := NeZero.ne n; omega⟩
    rw [List.head?_map, List.head?_range]
    rfl
  · refine List.mem_map.mpr ⟨b.val, List.mem_range.mpr b.isLt, ?_⟩
    ext
    simp [Fin.ofNat, Nat.mod_eq_of_lt b.isLt]

/-- Every step keeps the lists well formed, as long as device numbers fit into `b_dev`. -/
theorem Links.step {asked : ℕ → ℕ → Prop} {may : Sys n → Change n → Prop}
    (hasked : ∀ dev block, asked dev block → dev < 65536)
    (h : Links s) (hstep : CacheStep env asked may s s') : Links s' := by
  cases hstep with
  | block hpath => exact h.congr (.of_rest hpath.rest)
  | up b => exact h.congr (.setBuf fun _ => rfl)
  | down b => exact h.congr (.setBuf fun _ => rfl)
  | @reuse _ b dev block k hask hrec hreuse =>
      obtain ⟨k', hfind⟩ := hrec.missing
      obtain ⟨t, hrun, hlinks⟩ :=
        h.reuse_links (hasked dev block hask) (fun hdev => h.missing hdev hfind) b
      rw [hrun] at hreuse
      simp only [Res.ok.injEq, true_and] at hreuse
      exact hreuse ▸ hlinks
  | copy mem => exact h.congr ⟨fun _ => rfl, rfl, rfl⟩
  | @store b data _ =>
      have hsame : SameThreads s (s.setBuf b fun bh => { bh with bData := data, bDirt := true }) :=
        .setBuf fun _ => rfl
      exact h.congr ⟨hsame.thread, rfl, rfl⟩
  | @zero b _ _ =>
      have hsame : SameThreads s (s.setBuf b fun bh =>
          { bh with bData := zeroBlock, bUptodate := true, bDirt := true }) := .setBuf fun _ => rfl
      exact h.congr ⟨hsame.thread, rfl, rfl⟩
  | @invalidate b _ _ =>
      have hsame : SameThreads s (s.setBuf b fun bh =>
          { bh with bUptodate := false, bDirt := false }) := .setBuf fun _ => rfl
      exact h.congr ⟨hsame.thread, rfl, rfl⟩

theorem Links.steps {asked : ℕ → ℕ → Prop} {may : Sys n → Change n → Prop}
    (hasked : ∀ dev block, asked dev block → dev < 65536)
    (h : Links s) (hpath : CacheSteps env asked may s s') : Links s' :=
  hpath.invariant (fun h hstep => h.step hasked hstep) h

end EgGS
