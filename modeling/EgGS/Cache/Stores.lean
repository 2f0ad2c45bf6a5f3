import EgGS.Cache.Runs

/-!
# The stores of the list functions

The pointers through which `remove_from_queues` and `insert_into_queues` store, in the order
of the stores.  `remove_from_queues` looks at `b_next` and `b_prev` before it stores through
them; `insert_into_queues` stores through the `b_next` it has just taken from the hash table,
which is `NULL` if the chain was empty.

* `queue_stores`: this is the only store through `NULL`, and it happens exactly if no other
  header is on the chain of the new block.
-/

namespace EgGS

open Lib Prog

variable {n : ℕ} {env : Env n} {k : ℕ} {s s' s₀ t : Sys n} {b : Fin n} {dev block : ℕ}
variable {refs : Refs n}

/-! ## The pointers -/

/-- The pointers through which `remove_from_queues` stores. -/
def removeStores (b : Fin n) (s : Sys n) : List (Option (Fin n)) :=
  let s₁ := s.setLinked (s.buf b).bNext fun c => { c with bPrev := (s.buf b).bPrev }
  let s₂ := removeFromHash b s
  -- the neighbours on the chain are tested before the stores
  (s.buf b).bNext.toList.map some ++ (s₁.buf b).bPrev.toList.map some ++
    [(s₂.buf b).bPrevFree, (s₂.buf b).bNextFree]

/-- The pointers through which `insert_into_queues` stores. -/
def insertStores (b : Fin n) (s : Sys n) : List (Option (Fin n)) :=
  let s₁ := s.setBuf b fun bh => { bh with bNextFree := some s.freeList }
  let s₂ := s₁.setBuf b fun bh => { bh with bPrevFree := (s₁.buf s₁.freeList).bPrevFree }
  let s₃ := insertIntoFree b s
  [some b, some b, (s₂.buf s₂.freeList).bPrevFree, some s₂.freeList, some b, some b] ++
    if (s₃.buf b).bDev = 0 then []
    else [some b, s₃.hashTable (hashfn (s₃.buf b).bDev (s₃.buf b).bBlocknr)]

/-- The header `b` is recycled for the block, and every store goes to a header. -/
def StoresToHeaders (b : Fin n) (dev block : ℕ) (s : Sys n) : Prop :=
  ∃ t, (∀ env k, removeFromQueues b env k (s.claim b) = .ok () t) ∧
    ∀ p ∈ removeStores b (s.claim b) ++ insertStores b (t.rename b dev block), p ≠ none

/-! ## The free list -/

theorem FreeCircle.neighbours {l : List (Fin n)} (h : FreeCircle s l) (hb : b ∈ l) :
    (s.buf b).bPrevFree ≠ none ∧ (s.buf b).bNextFree ≠ none := by
  obtain ⟨l₁, l₂, rfl⟩ := List.append_of_mem hb
  have hring := h.ring.rotate
  obtain ⟨a, ha⟩ := hring.prev_some
  obtain ⟨c, hc⟩ := hring.next_some
  simp [ha, hc]

/-- The stores of `remove_from_queues` go to headers. -/
theorem Links.removeStores (h : Links s) (b : Fin n) : ∀ p ∈ removeStores b s, p ≠ none := by
  obtain ⟨l, hfree, hall⟩ := h.free
  obtain ⟨hnextFree, hprevFree, hhead⟩ := removeFromHash_free b s
  have hring := (hfree.congr hnextFree hprevFree hhead).neighbours (hall b)
  intro p hp
  simp only [EgGS.removeStores, List.mem_append, List.mem_map, List.mem_cons, List.not_mem_nil,
    or_false] at hp
  rcases hp with (⟨c, -, rfl⟩ | ⟨c, -, rfl⟩) | rfl | rfl
  · simp
  · simp
  · exact hring.1
  · exact hring.2

/-- The header in front of the head of the free list. -/
theorem FreeWithout.last (h : FreeWithout s b) :
    (s.freeList = b ∧ (s.buf b).bPrevFree ≠ none) ∨
      s.freeList ≠ b ∧ (s.buf s.freeList).bPrevFree ≠ none := by
  rcases h with ⟨l, hl, hmem⟩ | ⟨hb, hprev, -⟩
  · have hf : s.freeList ∈ l := List.mem_of_mem_head? hl.head
    exact .inr ⟨(hmem _).mp hf, (hl.neighbours hf).1⟩
  · exact .inl ⟨hb, by simp [hprev]⟩

/-! ## The hash chain -/

/-- The chain of `h` is empty exactly if no header in `on` belongs on it. -/
theorem Hashed.head_ne_none {on : Fin n → Prop} {chain : Fin nrHash → List (Fin n)}
    (h : Hashed s on chain) (i : Fin nrHash) :
    s.hashTable i ≠ none ↔ ∃ c, on c ∧ s.bucket c = i := by
  have hlist := h.list i
  constructor
  · intro hne
    obtain ⟨c, hc⟩ := Option.ne_none_iff_exists'.mp hne
    exact ⟨c, (h.mem i c).mp (hlist.head_mem hc)⟩
  · rintro ⟨c, hc⟩ hnone
    have hmem : c ∈ chain i := (h.mem i c).mpr hc
    have hne : chain i ≠ [] := List.ne_nil_of_mem hmem
    obtain ⟨q, hseg⟩ := hlist
    exact hne (List.head?_eq_none_iff.mp ((hseg.entry_eq hne).symm.trans hnone))

/-- The stores of `insert_into_queues` go to headers, unless the chain is empty. -/
theorem Detached.insertStores (h : Detached s b) (hdev : (s.buf b).bDev ≠ 0) :
    (∀ p ∈ insertStores b s, p ≠ none) ↔ s.hashTable (s.bucket b) ≠ none := by
  obtain ⟨-, -, htable⟩ := insertIntoFree_hash b s
  have hrelinked := insertIntoFree_relinked b s
  have hlast : (((s.setBuf b fun bh => { bh with bNextFree := some s.freeList }).setBuf b fun bh =>
      { bh with bPrevFree := ((s.setBuf b fun bh =>
        { bh with bNextFree := some s.freeList }).buf s.freeList).bPrevFree }).buf
      s.freeList).bPrevFree ≠ none := by
    rcases h.free.last with ⟨hb, hprev⟩ | ⟨hb, hprev⟩
    · simpa [hb] using hprev
    · simpa [hb] using hprev
  have hhead : (insertIntoFree b s).hashTable (hashfn ((insertIntoFree b s).buf b).bDev
      ((insertIntoFree b s).buf b).bBlocknr) = s.hashTable (s.bucket b) := by
    rw [htable, hrelinked.bDev, hrelinked.bBlocknr, Sys.bucket]
  have hdev' : ((insertIntoFree b s).buf b).bDev ≠ 0 := by rwa [hrelinked.bDev]
  constructor
  · intro hall
    rw [← hhead]
    refine hall _ ?_
    simp [EgGS.insertStores, hdev']
  · intro hne p hp
    simp only [EgGS.insertStores, if_neg hdev', hhead, List.cons_append, List.nil_append,
      List.mem_cons, List.not_mem_nil, or_false] at hp
    rcases hp with rfl | rfl | rfl | rfl | rfl | rfl | rfl | rfl
    · simp
    · simp
    · exact hlast
    · simp
    · simp
    · simp
    · simp
    · exact hne

/-- Some header other than `b` is on the hash chain of the block. -/
def Sys.Chained (s : Sys n) (b : Fin n) (dev block : ℕ) : Prop :=
  ∃ c, ((s.buf c).bDev ≠ 0 ∧ c ≠ b) ∧ s.bucket c = hashfn dev block

theorem Links.storesToHeaders (h : Links s) (hdev : 1 ≤ dev ∧ dev < 65536) (b : Fin n) :
    StoresToHeaders b dev block s ↔ s.Chained b dev block := by
  have hclaim : Links (s.claim b) := by
    have hsame : SameThreads s (s.setBuf b fun bh =>
        { bh with bCount := 1, bDirt := false, bUptodate := false }) := .setBuf fun _ => rfl
    exact h.congr ⟨hsame.thread, rfl, rfl⟩
  obtain ⟨t, hrun, hdetached, hrelinked⟩ := hclaim.detach b
  have hkey : ((t.rename b dev block).buf b).bDev = dev ∧
      ((t.rename b dev block).buf b).bBlocknr = block := by
    simp [Sys.rename, Nat.mod_eq_of_lt hdev.2]
  have hinsert := (hdetached.rename dev block).insertStores (by rw [hkey.1]; omega)
  obtain ⟨chain, hchain⟩ := hdetached.hashed
  have hdevs : ∀ c, (t.buf c).bDev = (s.buf c).bDev := by
    intro c
    rw [hrelinked.bDev, Sys.claim, Sys.note_buf, Sys.setBuf_at (·.bDev), ite_self]
  have hblocks : ∀ c, (t.buf c).bBlocknr = (s.buf c).bBlocknr := by
    intro c
    rw [hrelinked.bBlocknr, Sys.claim, Sys.note_buf, Sys.setBuf_at (·.bBlocknr), ite_self]
  have hhead : (t.rename b dev block).hashTable ((t.rename b dev block).bucket b) ≠ none ↔
      s.Chained b dev block := by
    rw [Sys.bucket, hkey.1, hkey.2]
    refine (hchain.head_ne_none (hashfn dev block)).trans (exists_congr fun c => ?_)
    rw [hdevs, Sys.bucket, hdevs, hblocks, Sys.bucket]
  constructor
  · rintro ⟨t', hrun', hall⟩
    have heq := (hrun' (Env.diligent 0x50) 0).symm.trans (hrun _ 0)
    simp only [Res.ok.injEq, true_and] at heq
    subst heq
    exact hhead.mp (hinsert.mp fun p hp => hall p (List.mem_append_right _ hp))
  · intro hchained
    refine ⟨t, hrun, fun p hp => ?_⟩
    rcases List.mem_append.mp hp with hp | hp
    · exact hclaim.removeStores b p hp
    · exact hinsert.mpr (hhead.mpr hchained) p hp

/-- **Stores through `NULL`.**  When a run of `get_buff` recycles a header, all stores of the
list functions go to headers exactly if some other header is on the hash chain of the block. -/
theorem queue_stores [NeZero n] (h : CacheReach env (Named env) s₀ refs s)
    (hdev : 1 ≤ dev ∧ dev < 65536) :
    (∀ k b s', getBuff dev block env k s = .ok b s' → Taken env s dev block b s') ∧
    ∀ t b, Submits env (.idle, s) (.idle, t) → Recyclable env t dev block b →
      (StoresToHeaders b dev block t ↔ t.Chained b dev block) := by
  obtain ⟨hlinks, -⟩ := cache_links h
  refine ⟨fun k b s' => getBuff_taken, fun t b hpath _ => ?_⟩
  exact (hlinks.congr (.of_rest hpath.rest)).storesToHeaders hdev b

theorem oneHeader_recyclable :
    Recyclable (Env.diligent 0x50) (initBuff oneHeader) 0x300 0 (0 : Fin 1) :=
  ⟨rfl, rfl, rfl, 2, rfl⟩

/-- The first block that is ever asked for is put on an empty chain. -/
theorem queue_stores_null : CacheReach (Env.diligent 0x50) (Named (Env.diligent 0x50)) oneHeader
      (fun _ => 0) (initBuff oneHeader) ∧
    Recyclable (Env.diligent 0x50) (initBuff oneHeader) 0x300 0 (0 : Fin 1) ∧
    ¬ StoresToHeaders (0 : Fin 1) 0x300 0 (initBuff oneHeader) := by
  refine ⟨.init, oneHeader_recyclable, fun hstores => ?_⟩
  obtain ⟨c, ⟨hdev, -⟩, -⟩ := ((Links.init oneHeader).storesToHeaders (by decide) 0).mp hstores
  exact hdev rfl

theorem queue_stores_first :
    StoresToHeaders (0 : Fin 1) 0x300 0 (initBuff oneHeader) ↔
      (initBuff oneHeader).Chained 0 0x300 0 :=
  (queue_stores (.init : CacheReach (Env.diligent 0x50) (Named (Env.diligent 0x50)) oneHeader
    (fun _ => 0) (initBuff oneHeader)) (by decide)).2 _ 0 .refl oneHeader_recyclable

end EgGS
