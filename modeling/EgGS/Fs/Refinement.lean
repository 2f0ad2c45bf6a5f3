import EgGS.Cache.Confined
import EgGS.Fs.Table

/-!
# The cache refines a map

The buffer cache over the disk is used like a map from blocks to contents: buffers are taken
with `read_buff`, changed in place, marked dirty and put back, `create_block` gives a block
zeros, and meanwhile requests are queued, done and waited for.  `invalidate_buff` gives a block
what is on the disk.  `MapRun` are these runs, with the contents that were given to blocks.

* `cache_refines_map`: `read_buff` returns what was last given to the block, or else what was
  on the disk at the start, if no two of the blocks that are used share a sector.
-/

namespace EgGS

open Lib Prog

variable {n : ℕ} {env : Env n} {k : ℕ} {s s' s₀ : Sys n} {dev block z m : ℕ} {sb : Fin nrSuper}
variable {which : Rw → Prop} {used loose : ℕ × ℕ → Prop} {M : Contents} {refs : Refs n} {b : Fin n}

/-! ## What blocks were given -/

/-- Contents were given to a block. -/
abbrev Given := (ℕ × ℕ) × Block

/-- The contents of the blocks when `given` were given to them, the last first. -/
def lastGiven (disk : Contents) : List Given → Contents
  | [] => disk
  | (x, data) :: given => Function.update (lastGiven disk given) x data

/-- `create_block` finds a free zone: the bit of the zone is the first zero of the bitmap, and
the buffer `b` has it. -/
structure FreeZone (used : ℕ × ℕ → Prop) (refs : Refs n) (s : Sys n) (dev : ℕ) (sb : Fin nrSuper)
    (m : ℕ) (b : Fin n) : Prop where
  mounted : Mounted s dev sb
  held : s.MapHeld refs (s.superBlock sb).sZmap
  zero : s.zmap sb 0 = some true
  first : s.FreeZoneBit sb m
  last : (s.superBlock sb).bitZone m ≤ (s.superBlock sb).sNzones
  buffer : ∃ h : m / 8192 < mapSlots, (s.superBlock sb).sZmap ⟨m / 8192, h⟩ = some b
  used : used (dev, (s.superBlock sb).bitZone m)
  header : s.Reachable refs dev ((s.superBlock sb).bitZone m)

/-! ## Runs -/

/-- The runs of the cache from the start, with the contents given to blocks, the last first, and
the references that are outstanding.  The tables of the file system may change in any way. -/
inductive MapRun (env : Env n) [NeZero n] (used : ℕ × ℕ → Prop) (s₀ : Sys n) :
    List Given → Refs n → Sys n → Prop
  | start : MapRun env used s₀ [] (fun _ => 0) (initBuff (initRequestQueue s₀))
  | read {given : List Given} {refs : Refs n} {s s' : Sys n} {dev block k : ℕ} {b : Fin n} :
      MapRun env used s₀ given refs s → used (dev, block) → s.Roomy refs dev block →
      s.Reachable refs dev block → readBuff dev block env k s = .ok (some b) s' →
      MapRun env used s₀ given (refs.add b) s'
  | get {given : List Given} {refs : Refs n} {s s' : Sys n} {dev block k : ℕ} {b : Fin n} :
      MapRun env used s₀ given refs s → used (dev, block) → s.Roomy refs dev block →
      s.Reachable refs dev block → getBuff dev block env k s = .ok b s' →
      MapRun env used s₀ given (refs.add b) s'
  | modify {given : List Given} {refs : Refs n} {s : Sys n} {b : Fin n} (data : Block) :
      MapRun env used s₀ given refs s → 0 < refs b → (s.buf b).bUptodate = true →
      MapRun env used s₀ ((s.key b, data) :: given) refs (store b data s)
  | put {given : List Given} {refs : Refs n} {s s' : Sys n} {k : ℕ} {b : Fin n} :
      MapRun env used s₀ given refs s → 0 < refs b → putBuff (some b) env k s = .ok () s' →
      MapRun env used s₀ given (refs.sub b) s'
  | create {given : List Given} {refs : Refs n} {s s' : Sys n} {dev m z k : ℕ} {sb : Fin nrSuper}
      {b : Fin n} :
      MapRun env used s₀ given refs s → FreeZone used refs s dev sb m b →
      createBlock dev env k s = .ok z s' →
      MapRun env used s₀
        (((dev, z), zeroBlock) :: (s.key b, (s.buf b).bData.putBit (m % 8192) true) ::
        given) refs s'
  | sync {given : List Given} {refs : Refs n} {s s' : Sys n} {dev k : ℕ} :
      MapRun env used s₀ given refs s → syncDev dev env k s = .ok () s' →
      MapRun env used s₀ given refs s'
  | idle {given : List Given} {refs : Refs n} {s s' : Sys n} {k : ℕ} :
      MapRun env used s₀ given refs s → idle env k s = .ok () s' → MapRun env used s₀ given refs s'
  | invalidate {given : List Given} {refs : Refs n} {s s' : Sys n} {dev block k : ℕ} :
      MapRun env used s₀ given refs s → used (dev, block) → s.Unheld refs dev block →
      invalidateBuff dev block env k s = .ok () s' →
      MapRun env used s₀ (((dev, block), s'.diskBlock dev block) :: given) refs s'
  | super {given : List Given} {refs : Refs n} {s : Sys n} (sb : Fin nrSuper)
      (f : SuperBlock n → SuperBlock n) :
      MapRun env used s₀ given refs s → MapRun env used s₀ given refs (s.setSuper sb f)
  | inode {given : List Given} {refs : Refs n} {s : Sys n} (i : Fin nrInode) (f : MInode → MInode) :
      MapRun env used s₀ given refs s → MapRun env used s₀ given refs (s.setInode i f)

/-- A set bit is given to the block of the bitmap. -/
theorem FreeZone.marked (hzone : FreeZone used refs s dev sb m b)
    (h : Mapped which used loose M refs s) :
    s.marked (s.superBlock sb).sZmap m true M =
      Function.update M (s.key b) ((s.buf b).bData.putBit (m % 8192) true) := by
  obtain ⟨hi, hmap⟩ := hzone.buffer
  have hfirm := hzone.held _ b hmap
  have hdata : (s.buf b).bData = M (s.key b) := h.coherent.cached b hfirm.dev hfirm.uptodate
  rw [Sys.marked, dif_pos hi, hmap, hdata]

/-- The buffers that somebody holds have blocks that are used. -/
def Sys.HeldUsed (used : ℕ × ℕ → Prop) (refs : Refs n) (s : Sys n) : Prop :=
  ∀ b, 0 < refs b → used (s.key b)

theorem Sys.HeldUsed.beside (h : s.HeldUsed used refs) (hbeside : Beside refs s s') :
    s'.HeldUsed used refs := fun b hb => (hbeside.key b hb).symm ▸ h b hb

theorem Sys.HeldUsed.add (h : s.HeldUsed used refs) (hb : used (s.key b)) :
    s.HeldUsed used (refs.add b) := by
  intro c hc
  by_cases heq : c = b
  · exact heq ▸ hb
  · rw [Refs.add, Function.update_of_ne heq] at hc
    exact h c hc

/-! ## Buffers that are invalidated -/

/-- A block without a dirty buffer and without a queued write is on the disk. -/
theorem Mapped.on_disk {sub : Sys n} (h : Mapped which used loose M refs s)
    (hused : used (dev, block))
    (hfirm : ¬ loose (dev, block)) (hconf : Confined (· ≠ (dev, block)) sub (.idle, s)) :
    s.diskBlock dev block = M (dev, block) := by
  refine h.coherent.stored _ hused hfirm fun b hb => ⟨?_, fun hq => hconf.queued b hq hb⟩
  exact Bool.eq_false_iff.mpr fun hd => hconf.dirty b hd hb

/-- **`invalidate_buff`** of a block that nobody holds leaves its contents to the disk. -/
theorem invalidateBuff_disk (henv : env.Works which) (hwhich : which .write)
    (h : Mapped which used loose M refs s) (hused : used (dev, block))
    (hfirm : ¬ loose (dev, block))
    (hfree : s.Unheld refs dev block) (hrun : invalidateBuff dev block env k s = .ok () s') :
    Mapped which used loose (Function.update M (dev, block) (s'.diskBlock dev block)) refs s' ∧
      Beside refs s s' := by
  obtain ⟨value, hmapped, hbeside⟩ := (invalidateBuff_stable dev block).ensures
    (h.invalidateBuff henv hwhich hused hfree hfirm) _ _ _ hrun
  refine ⟨?_, hbeside⟩
  suffices hconf : ∃ t, Confined (· ≠ (dev, block)) t (.idle, s') by
    obtain ⟨t, hconf⟩ := hconf
    have hdisk := hmapped.on_disk hused hfirm hconf
    rw [Function.update_self] at hdisk
    rwa [hdisk]
  have hdev := h.dev_ne_zero hused
  unfold invalidateBuff at hrun
  obtain ⟨found, t, hretain, hrun⟩ := bind_eq_ok.mp hrun
  obtain ⟨hretained, hmissing⟩ := (retainBuff_stable dev block).ensures
    (h.ready.retainBuff henv hdev) _ _ _ hretain
  cases found with
  | none =>
      -- no header belongs to the block
      simp only [pure_run, Res.ok.injEq, true_and] at hrun
      subst hrun
      have hpath : Submits env (.idle, s) (.idle, t) := hretained
      have hne : ∀ b, t.key b ≠ (dev, block) := fun b hb =>
        hmissing rfl b ((Sys.key_eq (dev, block)).mp ((Sys.key_of_rest hpath.rest b).symm.trans hb))
      exact ⟨t, .start (fun b _ => hne b) fun b _ => hne b⟩
  | some b =>
      obtain ⟨ht, hbeside', hkey, hlock, -⟩ := h.taken henv hwhich hused
        hfree.roomy hretained.handed
      obtain ⟨u, hpath, hfound, heq⟩ := id hretained
      have hzero : refs b = 0 := hfree b ((Submits.keyed_iff hpath b).mp hfound.key)
      have hone : (t.buf b).bCount = 1 := by
        rw [ht.counted.count, Refs.add_apply, hzero]
        simp
      simp only [read_bind, ite_run, if_neg (not_not.mpr hone), update_bind] at hrun
      obtain ⟨v, hwait, -, rfl⟩ := putBuff_eq_ok hrun
      have hinvalid := ht.invalidate (ht.dev_of_key hused hkey) hlock (hkey ▸ hfirm)
      have hkeys := Sys.key_of_rest (t.invalidate_rest b)
      have hstart : Confined (· ≠ (dev, block)) (t.invalidate b) (.idle, t.invalidate b) := by
        have hother : ∀ c, (t.invalidate b).key c = (dev, block) → c = b := fun c hc =>
          ht.links.key_unique b c (ht.dev_of_key hused hkey)
          ((hkeys c).symm.trans hc |>.trans hkey.symm)
        refine .start (fun c hc heq => ?_) fun c hc heq => ?_
        · obtain rfl := hother c heq
          simp [Sys.invalidate] at hc
        · obtain rfl := hother c heq
          exact hinvalid.unqueued (by simpa [Sys.invalidate] using hlock) .write hc
      exact ⟨_, (hstart.submits henv.answers hinvalid.working.serving hwait).count b _⟩

/-- **Every run keeps the map.** -/
theorem MapRun.mapped [NeZero n] {given : List Given} (henv : env.Works fun _ => True)
    (hquiet : s₀.Quiet) (hdrives : s₀.geo.Drives) (hen : s₀.hdEnabled = true)
    (htiled : s₀.geo.Tiled used) (hmajor : ∀ x, used x → EgGS.major x.1 = 3)
    (hrun : MapRun env used s₀ given refs s) :
    Mapped (fun _ => True) used (fun _ => False)
      (lastGiven (fun x => s₀.diskBlock x.1 x.2) given) refs s ∧ s.HeldUsed used refs := by
  -- on the run: each call keeps `Mapped`, and what is held is a block that is used
  induction hrun with
  | start => exact ⟨Mapped.init hquiet hdrives hen htiled hmajor, fun b hb => absurd hb (by simp)⟩
  | @read given refs s s' dev block k b _ hused hroom hreach hread ih =>
      have hspec := ih.1.readBuff henv trivial hused hroom hreach
      obtain ⟨hholds, hbeside, -⟩ := (readBuff_stable _ _).ensures hspec _ _ _ hread
      exact ⟨hholds.mapped, (ih.2.beside hbeside).add (hholds.key ▸ hused)⟩
  | @get given refs s s' dev block k b _ hused hroom hreach hget ih =>
      obtain ⟨hmapped, hbeside, hkey, -, -⟩ := ih.1.taken henv trivial hused hroom
        (getBuff_taken hget)
      exact ⟨hmapped, (ih.2.beside hbeside).add (hkey ▸ hused)⟩
  | @modify given refs s b data _ hpos hup ih =>
      have hdev : (s.buf b).bDev ≠ 0 := Nat.ne_of_gt (htiled.dev _ (ih.2 b hpos)).1
      refine ⟨ih.1.store data hdev hup, fun c hc => ?_⟩
      rw [Sys.key_of_rest (store_rest b data s)]
      exact ih.2 c hc
  | @put given refs s s' k b _ hpos hput ih =>
      have hspec := ih.1.putBuff henv trivial hpos not_false
      obtain ⟨hmapped, hbeside⟩ := (putBuff_stable _).ensures hspec _ _ _ hput
      refine ⟨hmapped, fun c hc => ih.2.beside hbeside c ?_⟩
      by_cases heq : c = b
      · rwa [heq]
      · rwa [Refs.sub, Function.update_of_ne heq] at hc
  | create _ hzone hcreate ih =>
      have hspec := ih.1.blockCreated henv trivial hzone.mounted hzone.held hzone.zero hzone.first
        hzone.last hzone.used hzone.header not_false
      obtain ⟨rfl, -, hmapped, hbeside, -⟩ := hspec _ _ _ hcreate
      rw [hzone.marked ih.1] at hmapped
      exact ⟨hmapped, ih.2.beside hbeside⟩
  | sync _ hsync ih =>
      have hpath := syncDev_submits hsync
      exact ⟨ih.1.submits henv trivial hpath, ih.2.beside (ih.1.beside henv trivial hpath)⟩
  | @idle given refs s s' k _ hidle ih =>
      have hpath : Submits env (.idle, s) (.idle, s') := idle_submits hidle
      exact ⟨ih.1.submits henv trivial hpath, ih.2.beside (ih.1.beside henv trivial hpath)⟩
  | invalidate _ hused hfree hrun ih =>
      obtain ⟨hmapped, hbeside⟩ := invalidateBuff_disk henv trivial ih.1 hused not_false hfree hrun
      exact ⟨hmapped, ih.2.beside hbeside⟩
  | super sb f _ ih => exact ⟨ih.1.setSuper sb f, ih.2⟩
  | inode i f _ ih => exact ⟨ih.1.setInode i f, ih.2⟩

/-- **The cache refines a map** from blocks to contents, on a disk that works.  If no two of
the blocks that are used share a sector, `read_buff` returns a buffer of the block with the
contents that were last given to it, or else with those of the disk at the start. -/
theorem cache_refines_map [NeZero n] {given : List Given} (henv : env.Works fun _ => True)
    (hquiet : s₀.Quiet) (hdrives : s₀.geo.Drives) (hen : s₀.hdEnabled = true)
    (htiled : s₀.geo.Tiled used) (hmajor : ∀ x, used x → EgGS.major x.1 = 3)
    (hrun : MapRun env used s₀ given refs s) (hused : used (dev, block))
    (hroom : s.Roomy refs dev block) (hreach : s.Reachable refs dev block) :
    Does (readBuff dev block) env s fun found s' => ∃ b, found = some b ∧
      s'.Keyed b dev block ∧ (s'.buf b).bUptodate = true ∧
      (s'.buf b).bData = lastGiven (fun x => s₀.diskBlock x.1 x.2) given (dev, block) := by
  obtain ⟨hmapped, -⟩ := hrun.mapped henv hquiet hdrives hen htiled hmajor
  refine (hmapped.readBuff henv trivial hused hroom hreach).mono fun found t hread => ?_
  cases found with
  | none => exact absurd (fun _ => trivial) hread.2.2
  | some b =>
      have hholds := hread.1
      exact ⟨b, rfl, (Sys.key_eq _).mp hholds.key, hholds.uptodate, hholds.data hused⟩

/-! ## Blocks that share a sector -/

/-- A kernel with one header and a disk of sevens. -/
def sevens : Sys 1 := { (Sys.load fun _ _ _ => 7) with geo := smallDrive, hdEnabled := true }

/-- The state after block 5 of the drive was read. -/
def wholeRead : Sys 1 :=
  (readBuff 0x300 5 (Env.diligent 0x50) 40 (initBuff (initRequestQueue sevens))).state

/-- The state after its buffer was filled with zeros and put back. -/
def wholeZeroed : Sys 1 :=
  (putBuff (some 0) (Env.diligent 0x50) 40 (store 0 zeroBlock wholeRead)).state

/-- Zeros are given to block 5 of the drive. -/
theorem wholeZeroed_run {used : ℕ × ℕ → Prop} (hused : used (0x300, 5)) :
    MapRun (Env.diligent 0x50) used sevens [((0x300, 5), zeroBlock)] (fun _ => 0) wholeZeroed := by
  have hread : MapRun (Env.diligent 0x50) used sevens [] (Refs.add (fun _ => 0) 0) wholeRead :=
    .read .start hused (fun _ _ => by decide) (.inr ⟨0, rfl⟩)
      (Res.eq_ok (show _ = some (some 0) by decide +kernel))
  have hkey : wholeRead.key 0 = (0x300, 5) := by decide +kernel
  have hmodify := hread.modify (b := 0) zeroBlock (by simp [Refs.add]) (by decide +kernel)
  rw [hkey] at hmodify
  have hreturns : putBuff (some 0) (Env.diligent 0x50) 40 (store 0 zeroBlock wholeRead) =
      .ok () wholeZeroed := Res.eq_ok (by decide +kernel)
  have hput := hmodify.put (b := 0) (by simp [Refs.add]) hreturns
  rwa [Refs.sub_add] at hput

/-- The block of the drive is read again. -/
theorem cache_refines_map_zeroed : Does (readBuff 0x300 5) (Env.diligent 0x50) wholeZeroed
    fun found s' => ∃ b, found = some b ∧ s'.Keyed b 0x300 5 ∧ (s'.buf b).bUptodate = true ∧
      (s'.buf b).bData =
        lastGiven (fun x => sevens.diskBlock x.1 x.2) [((0x300, 5), zeroBlock)] (0x300, 5) := by
  have htiled : sevens.geo.Tiled tableUsed := smallDrive_tableUsed
  have hmajor : ∀ x, tableUsed x → major x.1 = 3 := by
    rintro x (rfl | rfl) <;> decide
  exact cache_refines_map (diligent_works_all _) oneHeader_quiet smallDrive_drives rfl htiled hmajor
    (wholeZeroed_run (.inr rfl)) (.inr rfl) (fun _ _ => by decide) (.inr ⟨0, rfl⟩)

/-- Block 5 of the whole drive and of a partition that begins where the drive does. -/
def sharedBlocks (x : ℕ × ℕ) : Prop := x = (0x300, 5) ∨ x = (0x301, 5)

/-- The state after block 5 of the partition was read. -/
def partRead : Sys 1 := (readBuff 0x301 5 (Env.diligent 0x50) 40 wholeZeroed).state

/-- **A shared sector.**  What was given to block 5 of the drive is read from block 5 of the
partition, to which nothing was given. -/
theorem shared_sector_read :
    (∀ x, sharedBlocks x → (1 ≤ x.1 ∧ x.1 < 65536) ∧ sevens.geo.Inside x.1 x.2 ∧ major x.1 = 3) ∧
    MapRun (Env.diligent 0x50) sharedBlocks sevens [((0x300, 5), zeroBlock)]
    (fun _ => 0) wholeZeroed ∧
    ¬ Does (readBuff 0x301 5) (Env.diligent 0x50) wholeZeroed fun found s' => ∃ b, found = some b ∧
      s'.Keyed b 0x301 5 ∧ (s'.buf b).bUptodate = true ∧ (s'.buf b).bData =
        lastGiven (fun x => sevens.diskBlock x.1 x.2) [((0x300, 5), zeroBlock)] (0x301, 5) := by
  refine ⟨?_, wholeZeroed_run (.inl rfl), ?_⟩
  · rintro x (rfl | rfl) <;> exact ⟨by decide, by unfold Geometry.Inside; decide, by decide⟩
  · rintro ⟨found, s', heval, b, rfl, -, -, hdata⟩
    have hrun : readBuff 0x301 5 (Env.diligent 0x50) 40 wholeZeroed = .ok (some 0) partRead :=
      Res.eq_ok (by decide +kernel)
    have hread : Evals (readBuff 0x301 5) (Env.diligent 0x50) wholeZeroed (some 0) partRead :=
      (readBuff_stable 0x301 5).evals hrun
    obtain ⟨hb, hstate⟩ := heval.unique hread
    rw [hstate, Option.some.inj hb] at hdata
    have hbyte := congrFun hdata 0
    have hzero : (partRead.buf 0).bData 0 = 0 := by decide +kernel
    have hseven : lastGiven (fun x => sevens.diskBlock x.1 x.2) [((0x300, 5), zeroBlock)]
      (0x301, 5) 0 =
        7 := by decide +kernel
    exact absurd ((hzero.symm.trans hbyte).trans hseven) (by decide)

end EgGS
