import EgGS.Block.Waiting
import EgGS.Cache.Hits
import EgGS.Cache.Loss
import EgGS.Fs.Bitmaps

/-!
# A full device

When no zone is free, `add_zone_bitmap` returns 0, and `create_block` goes on: 0 is a block
of the device too, and its buffer is filled with zeros and marked dirty.

`createBlock_cached` says what `create_block` does then when block 0 is in the cache, and
`createBlock_harmless` when that is no harm.  `Unmapped` lists the six places where
`locate_by_inode` comes to `create_block`: three names in the inode, one word of the index block
for small files and one in each of the two for large files.  `Unmapped.locate` reduces them all to
one `create_block` with at most one index block in hand, which `put_buff` has to give back
afterwards.

* `full_device`: this does no harm exactly if the buffer of block 0 is cached, dirty and
  all zeros already, and nobody has it.
-/

namespace EgGS

open Lib Prog Relation

variable {n : ℕ} {env : Env n} {k : ℕ} {s s' t : Sys n} {dev block : ℕ} {b c : Fin n}

/-! ## Nothing is free -/

/-- `add_zone_bitmap` finds no free zone. -/
def FindsNone (env : Env n) (k dev : ℕ) (s : Sys n) : Prop :=
  addZoneBitmap dev env k s = .ok 0 (s.setIntr false)

/-- With enough fuel, that is when all bits of the zone bitmap are set up to the zone behind
the last one. -/
theorem Mounted.findsNone {sb : Fin nrSuper} (env : Env n) (h : Mounted s dev sb)
    (hzero : s.zmap sb 0 = some true)
    (hfull : ∀ m, s.FreeZoneBit sb m → (s.superBlock sb).sNzones < (s.superBlock sb).bitZone m) :
    ∃ N, ∀ k ≥ N, FindsNone env k dev s := by
  obtain ⟨z, s', hrun, hadded, -⟩ := h.addZoneBitmap env hzero
  cases hadded with
  | full _ => exact hrun
  | behind _ _ => exact hrun
  | added hfree hle _ => exact absurd (hfull _ hfree) (not_lt.mpr hle)

/-! ## Harm -/

/-- The buffer in the header `c` has the block, the contents and the flags that it had. -/
structure SameBuffer (s s' : Sys n) (c : Fin n) : Prop where
  key : s'.Keyed c (s.buf c).bDev (s.buf c).bBlocknr
  data : (s'.buf c).bData = (s.buf c).bData
  uptodate : (s'.buf c).bUptodate = (s.buf c).bUptodate
  dirt : (s'.buf c).bDirt = (s.buf c).bDirt

/-- Inodes, super blocks and buffers are as they were, but for the buffers that the controller
is at work on; the buffer of block 0 is among those that are as they were. -/
structure Harmless (dev : ℕ) (s s' : Sys n) : Prop where
  inode : s'.inode = s.inode
  superBlock : s'.superBlock = s.superBlock
  cached : ∀ c, (s.buf c).bLock = false → SameBuffer s s' c
  zero : ∀ c, s.Keyed c dev 0 ∨ s'.Keyed c dev 0 → SameBuffer s s' c

/-- The buffer of block 0 is cached, dirty and all zeros, and nobody has it.  If it is locked,
its request comes to an end. -/
structure ZeroBlock (env : Env n) (k dev : ℕ) (s : Sys n) (b : Fin n) : Prop where
  key : s.Keyed b dev 0
  count : (s.buf b).bCount % 256 = 0
  data : (s.buf b).bData = zeroBlock
  uptodate : (s.buf b).bUptodate = true
  dirt : (s.buf b).bDirt = true
  unlocks : ∃ t, waitOnBuff b env k (s.setIntr false).tick = .ok () t

/-! ## Getting a block that is cached -/

/-- Without interrupts, a block that is cached is waited for and handed out. -/
theorem getBuff_cached (env : Env n) (hlinks : Links s) (hdev : dev ≠ 0) (hk : n < k)
    (hintr : s.intr = false) (hb : s.Keyed b dev block) :
    getBuff dev block env k s =
      match waitOnBuff b env k s.tick with
      | .ok _ u => .ok b (u.countUp b)
      | .stop why u => .stop why u := by
  have hpoll : poll env k s = .ok () s.tick := by
    simp [poll, hintr]
  have htick : Links s.tick := hlinks.congr ⟨fun _ => rfl, rfl, rfl⟩
  have hfind : findBuff dev block env k s.tick = .ok (some b) s.tick :=
    (htick.findBuff_exact hdev hk).1 b hb
  have hkey : ∀ u, waitOnBuff b env k s.tick = .ok () u → u.Keyed b dev block := fun u hu =>
    Submits.keyed (waitOnBuff_submits .idle hu).1 hb
  have hk0 : 0 < k := by omega
  cases hwait : waitOnBuff b env k s.tick with
  | stop why u =>
      have hretain : retainBuff dev block env k s = .stop why u := by
        refine iterate_stop hk0 ?_
        rw [bind_of_ok hpoll, bind_of_ok hfind]
        simp only [bind_run, hwait]
      refine iterate_stop hk0 ?_
      rw [bind_run, hretain]
  | ok x u =>
      obtain ⟨hdev', hnr⟩ := hkey u hwait
      have hretain : retainBuff dev block env k s = .ok (some b) (u.countUp b) := by
        refine iterate_done hk0 ?_
        rw [bind_of_ok hpoll, bind_of_ok hfind]
        simp only [bind_of_ok hwait, read_bind, ite_run]
        rw [if_neg (by simp [hdev', hnr])]
        rfl
      refine iterate_done hk0 ?_
      rw [bind_of_ok hretain]
      rfl

theorem waitOnBuff_free (hk : 0 < k) (hclear : (s.buf b).bLock = false) :
    waitOnBuff b env k s = .ok () (s.setIntr false) := by
  have hround : ∀ x, (do
      let s ← Prog.read
      if (s.buf b).bLock then do
        sti
        poll
        pure (.inl ())
      else
        pure (.inr ()) : P n (Unit ⊕ Unit)) env k (s.setIntr false) = x ↔
      .ok (.inr ()) (s.setIntr false) = x := by
    intro x
    simp [hclear]
  exact iterate_done hk ((hround _).mpr rfl)

theorem putBuff_free (hk : 0 < k) (hclear : (s.buf b).bLock = false)
    (hcount : (s.buf b).bCount ≠ 0) :
    putBuff (some b) env k s = .ok () ((s.setIntr false).countDown b) := by
  rw [putBuff, bind_of_ok (waitOnBuff_free hk hclear)]
  simp [hcount]

/-! ## The block that is no block -/

theorem FindsNone.dev_ne_zero (h : FindsNone env k dev s) : dev ≠ 0 := by
  rintro rfl
  have hpanic : addZoneBitmap 0 env k s =
      .stop (.panic "trying to get new block from nonexistant device") s := rfl
  rw [FindsNone, hpanic] at h
  exact absurd h (by simp)

/-- The buffer `b` is filled with zeros and given back. -/
def Sys.zeroed (u : Sys n) (b : Fin n) : Sys n :=
  (((u.countUp b).zero b).setIntr false).countDown b

/-- The end of `create_block`, with the buffer `b` in hand. -/
theorem createBlock_end (hk : 0 < k) (hnone : FindsNone env k dev s) {u : Sys n}
    (hget : getBuff dev 0 env k (s.setIntr false) = .ok b u) (hclear : (u.buf b).bLock = false) :
    createBlock dev env k s =
      if (u.buf b).bCount ≠ 1 then .stop (.panic "new block: count is != 1") u
      else .ok 0 (((u.zero b).setIntr false).countDown b) := by
  rw [createBlock, bind_of_ok hnone, bind_of_ok hget, read_bind, ite_run]
  split
  · rfl
  · rename_i hone
    have hone : (u.buf b).bCount = 1 := not_not.mp hone
    rw [update_bind, bind_of_ok (putBuff_free hk (by simpa [Sys.zero] using hclear)
      (by simp [Sys.zero, hone]))]
    rfl

/-- `create_block` with the buffer of block 0 in the cache. -/
theorem createBlock_cached (hlinks : Links s) (hk : n < k) (hnone : FindsNone env k dev s)
    (hb : s.Keyed b dev 0) :
    createBlock dev env k s =
      match waitOnBuff b env k (s.setIntr false).tick with
      | .stop why u => .stop why u
      | .ok _ u =>
        if ((u.buf b).bCount + 1) % 256 ≠ 1 then
          .stop (.panic "new block: count is != 1") (u.countUp b)
        else .ok 0 (u.zeroed b) := by
  have hdev := hnone.dev_ne_zero
  have hopen : Links (s.setIntr false) := hlinks.congr ⟨fun _ => rfl, rfl, rfl⟩
  have hget := getBuff_cached env hopen hdev hk rfl hb
  cases hwait : waitOnBuff b env k (s.setIntr false).tick with
  | stop why u =>
      rw [hwait] at hget
      rw [createBlock, bind_of_ok hnone, bind_run, hget]
  | ok x u =>
      rw [hwait] at hget
      have hfree := (waitOnBuff_submits .idle hwait).2
      rw [createBlock_end (by omega) hnone hget (by simpa [Sys.countUp] using hfree)]
      simp [Sys.countUp, Sys.zeroed]

/-- Filling a buffer with zeros leaves the other buffers and all tables alone. -/
theorem Sys.zeroed_other (u : Sys n) (hc : c ≠ b) : (u.zeroed b).buf c = u.buf c := by
  simp [Sys.zeroed, Sys.countDown, Sys.countUp, Sys.zero, hc]

theorem Sys.zeroed_rest (u : Sys n) : (u.zeroed b).inode = u.inode ∧
    (u.zeroed b).superBlock = u.superBlock := ⟨rfl, rfl⟩

theorem Sys.zeroed_self (u : Sys n) : (u.zeroed b).Keyed b (u.buf b).bDev (u.buf b).bBlocknr ∧
    ((u.zeroed b).buf b).bData = zeroBlock ∧ ((u.zeroed b).buf b).bUptodate = true ∧
    ((u.zeroed b).buf b).bDirt = true := by
  simp [Sys.zeroed, Sys.countDown, Sys.countUp, Sys.zero, Sys.Keyed]

theorem Sys.zeroed_keyed (u : Sys n) {d r : ℕ} : (u.zeroed b).Keyed c d r ↔ u.Keyed c d r := by
  by_cases hc : c = b
  · subst hc
    simp [Sys.zeroed, Sys.countDown, Sys.countUp, Sys.zero, Sys.Keyed]
  · rw [Sys.Keyed, Sys.zeroed_other u hc, Sys.Keyed]

/-- If the buffer of block 0 is dirty and all zeros, nothing happens to it. -/
theorem ZeroBlock.harmless (henv : env.Answers) (hlinks : Links s) (hserving : Serving .idle s)
    (hk : n < k) (hnone : FindsNone env k dev s) (h : ZeroBlock env k dev s b) :
    ∃ s', createBlock dev env k s = .ok 0 s' ∧ Harmless dev s s' ∧
      ∀ c, c ≠ b → (s.buf c).bLock = false → s'.buf c = s.buf c := by
  obtain ⟨u, hwait⟩ := h.unlocks
  have hrun := createBlock_cached hlinks hk hnone h.key
  rw [hwait] at hrun
  have hopen : Serving .idle (s.setIntr false).tick := (hserving.time (s.clock + 1) false).serving
  obtain ⟨hpassed, -⟩ := hopen.waitOnBuff henv hwait
  have hrest : u.rest = s.rest := hpassed.effects.rest
  have hlink : ∀ c, u.links c = s.links c := fun c => congrFun (congrArg Rest.links hrest) c
  have hkeyed : ∀ c d r, u.Keyed c d r ↔ s.Keyed c d r := fun c d r => by
    have hc := hlink c
    simp only [Sys.links] at hc
    rw [Sys.Keyed, Sys.Keyed, hc]
  -- nobody held it, so `create_block` zeroes the buffer that it found
  have hcount : ((u.buf b).bCount + 1) % 256 = 1 := by
    have hsame : (u.buf b).bCount = (s.buf b).bCount := congrArg BufferLinks.bCount (hlink b)
    have hzero := h.count
    omega
  have hself : SameBuffer s (u.zeroed b) b := by
    obtain ⟨-, hdata, hup, hdirt⟩ := u.zeroed_self (b := b)
    exact ⟨u.zeroed_keyed.mpr ((hkeyed b _ _).mpr ⟨rfl, rfl⟩), hdata.trans h.data.symm,
      hup.trans h.uptodate.symm, hdirt.trans h.dirt.symm⟩
  -- waiting changes only buffers of requests
  have hothers : ∀ c, c ≠ b → (s.buf c).bLock = false → (u.zeroed b).buf c = s.buf c := by
    intro c hcb hc
    have hfree : ∀ cmd, ¬ (s.setIntr false).tick.Queued c cmd := fun cmd hq =>
      absurd ((Pooled.queued_locked hopen.pooled hq).symm.trans hc) (by decide)
    exact (u.zeroed_other hcb).trans (hpassed.effects.unqueued hfree)
  refine ⟨u.zeroed b, by simpa [hcount] using hrun, ⟨?_, ?_, fun c hc => ?_, fun c hc => ?_⟩,
    hothers⟩
  · exact (u.zeroed_rest).1.trans (congrArg Rest.inode hrest)
  · exact (u.zeroed_rest).2.trans (congrArg Rest.superBlock hrest)
  · by_cases hcb : c = b
    · exact hcb ▸ hself
    · have hsame := hothers c hcb hc
      exact ⟨⟨by rw [hsame], by rw [hsame]⟩, by rw [hsame], by rw [hsame], by rw [hsame]⟩
  · have hc : s.Keyed c dev 0 :=
      hc.elim id fun hc => (hkeyed c dev 0).mp (u.zeroed_keyed.mp hc)
    obtain rfl : c = b := hlinks.unique b c (h.key.1 ▸ hnone.dev_ne_zero)
      (hc.1.trans h.key.1.symm) (hc.2.trans h.key.2.symm)
    exact hself

/-- **`create_block` without a zone** does no harm exactly if block 0 is dirty and all zeros in
the cache. -/
theorem createBlock_harmless (henv : env.Answers) (hlinks : Links s) (hserving : Serving .idle s)
    (hk : n < k) (hshort : dev < 65536) (hnone : FindsNone env k dev s) :
    (∃ s', createBlock dev env k s = .ok 0 s' ∧ Harmless dev s s') ↔
      ∃ b, ZeroBlock env k dev s b := by
  refine ⟨fun ⟨s', hrun, hharmless⟩ => ?_, fun ⟨b, h⟩ => ?_⟩
  swap
  · obtain ⟨s', hrun, hharmless, -⟩ := h.harmless henv hlinks hserving hk hnone
    exact ⟨s', hrun, hharmless⟩
  obtain ⟨b, u, hget⟩ : ∃ b u, getBuff dev 0 env k (s.setIntr false) = .ok b u := by
    have hrun' := hrun
    rw [createBlock, bind_of_ok hnone] at hrun'
    obtain ⟨b, u, hget, -⟩ := bind_eq_ok.mp hrun'
    exact ⟨b, u, hget⟩
  have htaken := getBuff_taken hget
  have hend := hrun
  rw [createBlock_end (by omega) hnone hget htaken.unlocked] at hend
  split at hend
  · exact absurd hend (by simp)
  simp only [Res.ok.injEq, true_and] at hend
  -- the buffer of block 0 is dirty and all zeros now, so it was
  have hnow : s'.Keyed b dev 0 ∧ (s'.buf b).bData = zeroBlock ∧ (s'.buf b).bUptodate = true ∧
      (s'.buf b).bDirt = true := by
    subst hend
    simpa [Sys.countDown, Sys.zero, Sys.Keyed] using htaken.keyed hshort
  obtain ⟨⟨hdev, hnr⟩, hdata, hup, hdirt⟩ := hharmless.zero b (.inr hnow.1)
  have hb : s.Keyed b dev 0 := ⟨hdev.symm.trans hnow.1.1, hnr.symm.trans hnow.1.2⟩
  rw [createBlock_cached hlinks hk hnone hb] at hrun
  cases hwait : waitOnBuff b env k (s.setIntr false).tick with
  | stop why u => simp [hwait] at hrun
  | ok x v =>
      simp only [hwait] at hrun
      split at hrun
      · exact absurd hrun (by simp)
      rename_i hone
      have hcount : (v.buf b).bCount = (s.buf b).bCount :=
        congrArg BufferLinks.bCount (Submits.links (waitOnBuff_submits .idle hwait).1 b)
      refine ⟨b, hb, ?_, hdata.symm.trans hnow.2.1, hup.symm.trans hnow.2.2.1,
        hdirt.symm.trans hnow.2.2.2, v, hwait⟩
      rw [hcount] at hone
      omega

/-! ## A position that is not mapped -/

section Locate

variable {i : Fin nrInode} {held : Option (Fin n)}

/-- The position `block` of the inode `i` is not mapped: on its way to it, `locate_by_inode`
comes to a place without a zone.  It has read the index blocks up to there, the state is `t`,
and the buffer `held` is that of the last one. -/
inductive Unmapped (env : Env n) (k : ℕ) (i : Fin nrInode) (s : Sys n) :
    ℕ → Sys n → Option (Fin n) → Prop
  | direct {block : ℕ} (h : block < 7) : (s.inode i).iZone ⟨block, by omega⟩ = 0 →
      Unmapped env k i s block s none
  | noIndex {block : ℕ} : 7 ≤ block → block - 7 < 512 → (s.inode i).iZone 7 = 0 →
      Unmapped env k i s block s none
  | entry {block : ℕ} {t : Sys n} {bh : Fin n} : 7 ≤ block → block - 7 < 512 →
      (s.inode i).iZone 7 ≠ 0 →
      readBuff (s.inode i).iDev ((s.inode i).iZone 7).toNat env k s = .ok (some bh) t →
      (t.buf bh).bData.word (block - 7) = 0 → Unmapped env k i s block t (some bh)
  | noDouble {block : ℕ} : 7 + 512 ≤ block → block < 7 + 512 + 512 * 512 →
      (s.inode i).iZone 8 = 0 → Unmapped env k i s block s none
  | first {block : ℕ} {t : Sys n} {bh : Fin n} : 7 + 512 ≤ block → block < 7 + 512 + 512 * 512 →
      (s.inode i).iZone 8 ≠ 0 →
      readBuff (s.inode i).iDev ((s.inode i).iZone 8).toNat env k s = .ok (some bh) t →
      (t.buf bh).bData.word ((block - 7 - 512) / 512) = 0 → Unmapped env k i s block t (some bh)
  | second {block : ℕ} {t t' u : Sys n} {bh bh' : Fin n} : 7 + 512 ≤ block →
      block < 7 + 512 + 512 * 512 → (s.inode i).iZone 8 ≠ 0 →
      readBuff (s.inode i).iDev ((s.inode i).iZone 8).toNat env k s = .ok (some bh) t →
      (t.buf bh).bData.word ((block - 7 - 512) / 512) ≠ 0 →
      putBuff (some bh) env k t = .ok () t' →
      readBuff (s.inode i).iDev ((t.buf bh).bData.word ((block - 7 - 512) / 512)).toNat env k t' =
        .ok (some bh') u →
      (u.buf bh').bData.word ((block - 7 - 512) % 512) = 0 → Unmapped env k i s block u (some bh')

/-- What is left of `locate_by_inode` when `create_block` has no zone to give. -/
def emptyHanded (dev : ℕ) (held : Option (Fin n)) : P n ℕ := do
  let _ ← createBlock dev
  putBuff held
  pure 0

theorem createBlock_zero {z : ℕ} (hnone : FindsNone env k dev s)
    (h : createBlock dev env k s = .ok z s') : z = 0 ∧ s'.inode = s.inode := by
  refine ⟨?_, (CachePath.tables (createBlock_steps h (fun _ _ _ _ _ => trivial)
    (fun _ _ _ _ _ => trivial) fun _ _ _ _ _ _ => trivial)).1⟩
  rw [createBlock, bind_of_ok hnone] at h
  obtain ⟨b, t, -, h⟩ := bind_eq_ok.mp h
  rw [read_bind, ite_run] at h
  split at h
  · simp [panic] at h
  · simp only [update_bind, bind_eq_ok, pure_run, Res.ok.injEq] at h
    obtain ⟨_, _, _, hz, -⟩ := h
    exact hz.symm

theorem emptyHanded_zero {z : ℕ} (h : emptyHanded dev held env k s = .ok z s') : z = 0 := by
  simp only [emptyHanded, bind_eq_ok, pure_run, Res.ok.injEq] at h
  obtain ⟨_, _, _, _, _, _, hz, _⟩ := h
  exact hz.symm

theorem readBuff_inode {found : Option (Fin n)} (h : readBuff dev block env k s = .ok found s') :
    s'.inode = s.inode := (CachePath.tables (readBuff_steps trivial h)).1

theorem putBuff_inode {u : Unit} (h : putBuff (some b) env k s = .ok u s') : s'.inode = s.inode :=
  (CachePath.tables (putBuff_steps h)).1

/-- The inode gets zone 0 where it had none. -/
theorem createZone_none {z : Fin 9} (hnone : FindsNone env k (s.inode i).iDev s)
    (hz : (s.inode i).iZone z = 0) :
    createZone i z true env k s =
      match createBlock (s.inode i).iDev env k s with
      | .ok _ t => .ok () t
      | .stop why t => .stop why t := by
  rw [createZone, read_bind, if_pos ⟨rfl, hz⟩, bind_run]
  cases hrun : createBlock (s.inode i).iDev env k s with
  | stop why t => rfl
  | ok zone t =>
      obtain ⟨rfl, hinode⟩ := createBlock_zero hnone hrun
      have hsame : t.setInode i (fun x =>
          { x with iZone := Function.update x.iZone z (UInt16.ofNat 0) }) = t := by
        refine Sys.setInode_self ?_
        have hzero : UInt16.ofNat 0 = (t.inode i).iZone z := by rw [hinode, hz]; rfl
        rw [hzero, Function.update_eq_self]
      simp only [update_bind, hsame]
      rfl

/-- The index block keeps its zero. -/
theorem indexedZone_none {w : ℕ} (hnone : FindsNone env k (s.inode i).iDev s)
    (hz : (s.buf b).bData.word w = 0) :
    indexedZone i b w true env k s = emptyHanded (s.inode i).iDev (some b) env k s := by
  have hzero : ((s.buf b).bData.word w).toNat = 0 := by rw [hz]; rfl
  rw [indexedZone, read_bind]
  dsimp only
  rw [if_pos ⟨rfl, hzero⟩, emptyHanded, bind_run, bind_run]
  cases hrun : createBlock (s.inode i).iDev env k s with
  | stop why t => rfl
  | ok zone t =>
      obtain ⟨rfl, -⟩ := createBlock_zero hnone hrun
      rfl

/-- **`locate_by_inode` without a zone** is `create_block` without a zone, after the index blocks
have been read. -/
theorem Unmapped.locate (h : Unmapped env k i s block t held)
    (hnone : FindsNone env k (s.inode i).iDev t) :
    locateByInode i block true env k s = emptyHanded (s.inode i).iDev held env k t := by
  have hlow : ¬ (block : ℤ) < 0 := by omega
  have htoNat : (block : ℤ).toNat = block := Int.toNat_natCast block
  -- a zone that the inode itself should name
  have hown : ∀ (z : Fin 9) (m : P n ℕ), (s.inode i).iZone z = 0 →
      FindsNone env k (s.inode i).iDev s →
      (∀ t', t'.inode = s.inode → m env k t' = .ok 0 t') →
      (createZone i z true >>= fun _ => m) env k s = emptyHanded (s.inode i).iDev none env k s := by
    intro z m hz hnone hm
    rw [bind_run, createZone_none hnone hz, emptyHanded, bind_run]
    cases hrun : createBlock (s.inode i).iDev env k s with
    | stop why t => rfl
    | ok zone t' =>
        obtain ⟨rfl, hinode⟩ := createBlock_zero hnone hrun
        exact hm t' hinode
  have hkept : ∀ (z : Fin 9) (m : P n ℕ), (s.inode i).iZone z ≠ 0 →
      (createZone i z true >>= fun _ => m) env k s = m env k s := by
    intro z m hz
    rw [createZone, bind_run, read_bind, if_neg (fun hc => hz hc.2)]
    rfl
  unfold locateByInode
  -- by the place on the way to the block where the first 0 is found
  cases h with
  | direct hblock hz =>
      rw [if_neg hlow, if_neg (by omega), dif_pos (by omega)]
      simp only [htoNat]
      refine hown _ _ hz hnone fun t' hinode => ?_
      rw [read_bind, hinode, hz]
      rfl
  | noIndex hge hlt hz =>
      rw [if_neg hlow, if_neg (by omega), dif_neg (by omega), if_pos (by omega)]
      refine hown 7 _ hz hnone fun t' hinode => ?_
      rw [read_bind, hinode, if_pos hz]
      rfl
  | @entry _ bh hge hlt hz hread hword =>
      rw [if_neg hlow, if_neg (by omega), dif_neg (by omega), if_pos (by omega), hkept 7 _ hz,
        read_bind, if_neg hz, bind_of_ok hread]
      -- the word of the index block is 0: no zone is found, and the buffer is given back
      have hinode := readBuff_inode hread
      rw [← hinode] at hnone ⊢
      simpa only [htoNat] using indexedZone_none hnone hword
  | noDouble hge hlt hz =>
      rw [if_neg hlow, if_neg (by omega), dif_neg (by omega), if_neg (by omega)]
      refine hown 8 _ hz hnone fun t' hinode => ?_
      rw [read_bind, hinode, if_pos hz]
      rfl
  | @first _ bh hge hlt hz hread hword =>
      rw [if_neg hlow, if_neg (by omega), dif_neg (by omega), if_neg (by omega), hkept 8 _ hz,
        read_bind, if_neg hz, bind_of_ok hread]
      have hinode := readBuff_inode hread
      have hnone' : FindsNone env k (t.inode i).iDev t := hinode ▸ hnone
      simp only [htoNat]
      rw [bind_run, indexedZone_none hnone' hword, hinode]
      cases hrun : emptyHanded (s.inode i).iDev (some bh) env k t with
      | stop why u => rfl
      | ok zone u =>
          obtain rfl := emptyHanded_zero hrun
          rfl
  | @second t₁ t₂ _ bh bh' hge hlt hz hread hword hput hread' hword' =>
      rw [if_neg hlow, if_neg (by omega), dif_neg (by omega), if_neg (by omega), hkept 8 _ hz,
        read_bind, if_neg hz, bind_of_ok hread]
      have hne : ((t₁.buf bh).bData.word ((block - 7 - 512) / 512)).toNat ≠ 0 := fun hzero =>
        hword (UInt16.toNat_inj.mp hzero)
      have hfirst : indexedZone i bh ((block - 7 - 512) / 512) true env k t₁ =
          .ok ((t₁.buf bh).bData.word ((block - 7 - 512) / 512)).toNat t₂ := by
        rw [indexedZone, read_bind]
        dsimp only
        rw [if_neg (fun hc => hne hc.2), bind_of_ok hput]
        rfl
      have hinode : t₂.inode = s.inode := (putBuff_inode hput).trans (readBuff_inode hread)
      have hinode' : t.inode = s.inode := (readBuff_inode hread').trans hinode
      have hnone' : FindsNone env k (t.inode i).iDev t := hinode' ▸ hnone
      simp only [htoNat]
      rw [bind_of_ok hfirst, if_neg hne, read_bind, hinode, bind_of_ok hread']
      dsimp only
      rw [indexedZone_none hnone' hword', hinode']

/-- `locate_by_inode` harms nothing: it returns 0, and apart from reading the index blocks, the
last of which it gives back, it leaves everything as it was. -/
def LocateHarmless (env : Env n) (k : ℕ) (i : Fin nrInode) (block : ℕ) (s t : Sys n)
    (held : Option (Fin n)) : Prop :=
  ∃ t' s', Harmless (s.inode i).iDev t t' ∧ putBuff held env k t' = .ok () s' ∧
    createBlock (s.inode i).iDev env k t = .ok 0 t' ∧ locateByInode i block true env k s = .ok 0 s'

/-- The way to the position: index blocks of the device are read, and of the last one the
buffer is still there. -/
theorem Unmapped.came (h : Unmapped env k i s block t held) (hshort : (s.inode i).iDev < 65536) :
    CacheSteps env (fun d _ => d = (s.inode i).iDev) (fun _ _ => False) s t ∧
      ∀ bh, held = some bh → (t.buf bh).bLock = false ∧
        ∃ zone, zone ≠ 0 ∧ t.Keyed bh (s.inode i).iDev zone := by
  have hnonzero : ∀ w : UInt16, w ≠ 0 → w.toNat ≠ 0 := fun w hw hzero =>
    hw (UInt16.toNat_inj.mp hzero)
  have hgood : ∀ {u v : Sys n} {bh : Fin n} {zone : UInt16}, zone ≠ 0 →
      readBuff (s.inode i).iDev zone.toNat env k u = .ok (some bh) v →
      ∀ b, some bh = some b → (v.buf b).bLock = false ∧
        ∃ zone, zone ≠ 0 ∧ v.Keyed b (s.inode i).iDev zone := by
    intro u v bh zone hzone hread b hb
    obtain rfl := Option.some.inj hb
    obtain ⟨-, -, hlock, hkey⟩ := readBuff_good hread
    exact ⟨hlock, zone.toNat, hnonzero zone hzone, hkey hshort⟩
  have hsteps : ∀ {u v : Sys n} {zone : ℕ} {found : Option (Fin n)},
      readBuff (s.inode i).iDev zone env k u = .ok found v →
      CacheSteps env (fun d _ => d = (s.inode i).iDev) (fun _ _ => False) u v :=
    fun hread => readBuff_steps (Eq.refl (s.inode i).iDev) hread
  cases h with
  | direct _ _ => exact ⟨.refl, fun bh hb => absurd hb (by simp)⟩
  | noIndex _ _ _ => exact ⟨.refl, fun bh hb => absurd hb (by simp)⟩
  | noDouble _ _ _ => exact ⟨.refl, fun bh hb => absurd hb (by simp)⟩
  | entry _ _ hz hread _ => exact ⟨hsteps hread, hgood hz hread⟩
  | first _ _ hz hread _ => exact ⟨hsteps hread, hgood hz hread⟩
  | second _ _ _ hread hword hput hread' _ =>
      exact ⟨((hsteps hread).trans (putBuff_steps hput)).trans (hsteps hread'), hgood hword hread'⟩

/-- The driver serves on along a path of the buffer cache. -/
theorem Serving.cacheSteps {asked : ℕ → ℕ → Prop} {may : Sys n → Change n → Prop}
    (henv : env.Answers) (h : Serving .idle s) (hpath : CacheSteps env asked may s t) :
    Serving .idle t :=
  hpath.invariant (fun h hstep => hstep.touched.elim (fun hp => (Serving.submits henv h hp).1)
    h.touched) h

theorem locate_harmless (henv : env.Answers) (hlinks : Links s) (hserving : Serving .idle s)
    (hk : n < k) (hshort : (s.inode i).iDev < 65536) (h : Unmapped env k i s block t held)
    (hnone : FindsNone env k (s.inode i).iDev t) :
    LocateHarmless env k i block s t held ↔ (∃ b, ZeroBlock env k (s.inode i).iDev t b) ∧
      ∀ bh, held = some bh → (t.buf bh).bCount ≠ 0 := by
  obtain ⟨hpath, hheld⟩ := h.came hshort
  have hlinks' : Links t := hlinks.steps (fun d _ (hd : d = _) => hd ▸ hshort) hpath
  have hserving' := hserving.cacheSteps henv hpath
  have hcreate := createBlock_harmless henv hlinks' hserving' hk hshort hnone
  constructor
  · rintro ⟨t', s', hharmless, hput, hrun, -⟩
    obtain ⟨b, hzero⟩ := hcreate.mp ⟨t', hrun, hharmless⟩
    refine ⟨⟨b, hzero⟩, fun bh hbh => ?_⟩
    subst hbh
    -- the index block that is held is no block 0, so not the buffer that gets zeroed
    obtain ⟨hlock, zone, hzone, hkey⟩ := hheld bh rfl
    have hne : bh ≠ b := by
      rintro rfl
      exact hzone (hkey.2.symm.trans hzero.key.2)
    obtain ⟨t'', hrun', -, hothers⟩ := hzero.harmless henv hlinks' hserving' hk hnone
    obtain ⟨-, rfl⟩ : (0 : ℕ) = 0 ∧ t' = t'' := by simpa using hrun.symm.trans hrun'
    obtain ⟨u, hsubmits, hcount, -⟩ := putBuff_eq_ok hput
    have hsame : (u.buf bh).bCount = (t.buf bh).bCount := by
      rw [← hothers bh hne hlock]
      exact congrArg BufferLinks.bCount (Submits.links hsubmits bh)
    rwa [hsame] at hcount
  · rintro ⟨⟨b, hzero⟩, hcount⟩
    obtain ⟨t', hrun, hharmless, hothers⟩ := hzero.harmless henv hlinks' hserving' hk hnone
    obtain ⟨s', hput⟩ : ∃ s', putBuff held env k t' = .ok () s' := by
      cases held with
      | none => exact ⟨t', rfl⟩
      | some bh =>
          obtain ⟨hlock, zone, hzone, hkey⟩ := hheld bh rfl
          have hne : bh ≠ b := by
            rintro rfl
            exact hzone (hkey.2.symm.trans hzero.key.2)
          have hsame := hothers bh hne hlock
          exact ⟨_, putBuff_free (by omega) (by rwa [hsame]) (by rw [hsame]; exact hcount bh rfl)⟩
    refine ⟨t', s', hharmless, hput, hrun, ?_⟩
    rw [h.locate hnone, emptyHanded, bind_of_ok hrun, bind_of_ok hput]
    rfl

end Locate

/-- **Running out of space.**  When no zone is free, `create_block` and `locate_by_inode` do no
harm exactly if the buffer of block 0 is cached, dirty and all zeros already, and nobody
has it; `locate_by_inode` must also be able to give its index block back. -/
theorem full_device (henv : env.Answers) (hlinks : Links s) (hserving : Serving .idle s)
    (hk : n < k) :
    (∀ dev, dev < 65536 → FindsNone env k dev s →
      ((∃ s', createBlock dev env k s = .ok 0 s' ∧ Harmless dev s s') ↔
        ∃ b, ZeroBlock env k dev s b)) ∧
    ∀ i block t held, (s.inode i).iDev < 65536 → Unmapped env k i s block t held →
      FindsNone env k (s.inode i).iDev t →
      (LocateHarmless env k i block s t held ↔ (∃ b, ZeroBlock env k (s.inode i).iDev t b) ∧
        ∀ bh, held = some bh → (t.buf bh).bCount ≠ 0) :=
  ⟨fun _ hshort hnone => createBlock_harmless henv hlinks hserving hk hshort hnone,
    fun _ _ _ _ hshort h hnone => locate_harmless henv hlinks hserving hk hshort h hnone⟩

/-! ## A full device, and its block 0 in the cache -/

/-- Two headers, and a disk on which all bits are set. -/
def allSet : Sys 2 := { (Sys.load fun _ _ _ => 0xFF) with geo := smallDrive, hdEnabled := true }

/-- Block 3 of the disk has been read and is held, and block 0 has been read and given back. -/
def twoRead : Sys 2 :=
  CacheCall.after (.put 1) (Env.diligent 0x50) (CacheCall.after (.read 0x300 0) (Env.diligent 0x50)
    (CacheCall.after (.read 0x300 3) (Env.diligent 0x50) (initBuff (initRequestQueue allSet))))

/-- Block 3 is the zone bitmap of the mounted disk. -/
def fullDisk : Sys 2 :=
  twoRead.setSuper 0 fun p =>
    { p with
      sDev := 0x300, sZmapBlocks := 1, sZmap := fun i => if i = 0 then some 0 else none
      sFirstdatazone := 5, sNzones := 800 }

theorem twoRead_reach : ∃ refs, CacheReach (Env.diligent 0x50) (Named (Env.diligent 0x50))
    (initRequestQueue allSet) refs twoRead := by
  have hnamed : ∀ (refs : Refs 2) (s : Sys 2) block,
      Named (Env.diligent 0x50) refs s (.read 0x300 block) := by
    rintro refs s block dev r ⟨rfl, -⟩
    decide
  have hfirst : CacheReach (Env.diligent 0x50) (Named (Env.diligent 0x50))
      (initRequestQueue allSet) _ _ :=
    .after (.read 0x300 3) .init (hnamed _ _ _) (show _ = some (some 0) by decide +kernel)
  have hsecond : CacheReach (Env.diligent 0x50) (Named (Env.diligent 0x50))
      (initRequestQueue allSet) _ _ :=
    .after (.read 0x300 0) hfirst (hnamed _ _ _) (show _ = some (some 1) by decide +kernel)
  exact ⟨_, .after (.put 1) hsecond (fun _ _ h => h.elim) (show _ = some none by decide +kernel)⟩

theorem allSet_quiet : allSet.Quiet := ⟨rfl, fun _ => rfl, rfl, rfl⟩

theorem CacheReach.serving [NeZero n] {legal : Refs n → Sys n → CacheCall n → Prop} {s₀ : Sys n}
    {refs : Refs n} (hquiet : s₀.Quiet) (henv : env.Answers)
    (h : CacheReach env legal (initRequestQueue s₀) refs s) : Serving .idle s := by
  induction h with
  | init => exact (Secure.init hquiet).serving
  | call c _ _ hexec ih =>
      exact ih.cacheSteps henv (c.steps (fun _ _ => id) (c.changes_any _) hexec)

theorem Links.setSuper {sb : Fin nrSuper} {f : SuperBlock n → SuperBlock n} (h : Links s) :
    Links (s.setSuper sb f) := h.congr ⟨fun _ => rfl, rfl, rfl⟩

theorem Serving.setSuper {sb : Fin nrSuper} {f : SuperBlock n → SuperBlock n}
    (h : Serving .idle s) : Serving .idle (s.setSuper sb f) :=
  h.touched ⟨rfl, rfl, rfl, rfl, rfl, rfl, fun _ => rfl, fun _ _ => .of_eq rfl, [], rfl, by simp⟩

theorem fullDisk_links : Links fullDisk := by
  obtain ⟨refs, hreach⟩ := twoRead_reach
  exact (cache_links hreach).1.setSuper

theorem fullDisk_serving : Serving .idle fullDisk := by
  obtain ⟨refs, hreach⟩ := twoRead_reach
  exact (hreach.serving allSet_quiet (diligent_answers 0x50)).setSuper

theorem fullDisk_mounted : Mounted fullDisk 0x300 0 where
  device := by decide
  super := ⟨by decide +kernel, fun p hp => absurd hp (Fin.not_lt_zero p)⟩
  lock := by decide +kernel
  imapBlocks := by decide +kernel
  zmapBlocks := by decide +kernel
  imapOwn := by decide +kernel
  zmapOwn := by decide +kernel
  short := by decide +kernel

theorem fullDisk_full (m : ℕ) : fullDisk.zmap 0 m ≠ some false := by
  intro hzero
  obtain ⟨hi, hblocks, bh, hmap, hbit⟩ := Sys.bitmap_some hzero
  have hnone : ∀ i bh, (fullDisk.superBlock 0).sZmap i = some bh →
      findFirstZero (fullDisk.buf bh).bData = 8192 := by decide +kernel
  have hset := findFirstZero_none (i := m % 8192) (not_lt.mpr (hnone _ bh hmap).ge)
    (Nat.mod_lt m (by decide))
  exact absurd (hset.symm.trans hbit) (by decide)

theorem fullDisk_findsNone : ∃ k, 2 < k ∧ FindsNone (Env.diligent 0x50) k 0x300 fullDisk := by
  obtain ⟨N, hN⟩ := fullDisk_mounted.findsNone (Env.diligent 0x50) (by decide +kernel)
    fun m hfree => absurd hfree.1 (fullDisk_full m)
  exact ⟨max N 3, lt_of_lt_of_le (by decide) (le_max_right N 3), hN _ (le_max_left N 3)⟩

/-- No zone is free on the full disk. -/
theorem full_device_disk : ∃ k, FindsNone (Env.diligent 0x50) k 0x300 fullDisk ∧
    ((∃ s', createBlock 0x300 (Env.diligent 0x50) k fullDisk = .ok 0 s' ∧
      Harmless 0x300 fullDisk s') ↔ ∃ b, ZeroBlock (Env.diligent 0x50) k 0x300 fullDisk b) := by
  obtain ⟨k, hk, hnone⟩ := fullDisk_findsNone
  exact ⟨k, hnone, (full_device (diligent_answers 0x50) fullDisk_links fullDisk_serving hk).1 0x300
    (by decide) hnone⟩

/-- The buffer of block 0 is all ones, and would be filled with zeros. -/
theorem full_device_zeroed :
    ¬ ∀ (env : Env 2) (s : Sys 2) (k dev : ℕ), env.Answers → Links s → Serving .idle s → 2 < k →
      dev < 65536 → FindsNone env k dev s →
      ∃ s', createBlock dev env k s = .ok 0 s' ∧ Harmless dev s s' := by
  intro h
  obtain ⟨k, hk, hnone⟩ := fullDisk_findsNone
  obtain ⟨b, hzero⟩ := (createBlock_harmless (diligent_answers 0x50) fullDisk_links
    fullDisk_serving hk (by decide) hnone).mp
    (h _ _ _ _ (diligent_answers 0x50) fullDisk_links fullDisk_serving hk (by decide) hnone)
  have hones : ∀ c, (fullDisk.buf c).bData 0 = 0xFF := by decide +kernel
  have hdata := congrFun hzero.data 0
  rw [hones b] at hdata
  exact absurd hdata (by decide)

end EgGS
