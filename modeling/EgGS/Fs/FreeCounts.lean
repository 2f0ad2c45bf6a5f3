import EgGS.Fs.Bitmaps
import EgGS.Lib.Drain
import EgGS.Model.Setup

/-!
# The numbers of free blocks and inodes

`sys_setup` counts the zeros of the bitmaps of the root device.  It looks at bit `i` of the
zone bitmap for every `i` below `s_nzones`, but the bit of zone `z` is
`z - s_firstdatazone + 1`: the last bits it looks at may lie in a block that the bitmap does
not have.

* `free_counts`: exactly when both loops return, with the numbers of calls of
  `add_zone_bitmap` and `add_inode_bitmap` that succeed.
-/

namespace EgGS

open Lib Prog

variable {n : ℕ} {env : Env n} {k : ℕ} {s s' t : Sys n} {dev : ℕ} {sb : Fin nrSuper}
variable {i m blocks free : ℕ} {map : Fin mapSlots → Option (Fin n)} {f : ℕ → Option Bool}

/-! ## Counting zeros -/

/-- The zeros of a bitmap below `top`. -/
def zerosBelow (f : ℕ → Option Bool) (top : ℕ) : Finset ℕ :=
  (Finset.range top).filter fun m => f m = some false

theorem mem_zerosBelow {top : ℕ} : m ∈ zerosBelow f top ↔ m < top ∧ f m = some false := by
  simp [zerosBelow]

theorem zerosBelow_succ (f : ℕ → Option Bool) (top : ℕ) : (zerosBelow f (top + 1)).card =
    (zerosBelow f top).card + if f top = some false then 1 else 0 := by
  rw [zerosBelow, Finset.range_add_one, Finset.filter_insert]
  split
  · rw [Finset.card_insert_of_notMem (by simp)]
    rfl
  · rfl

/-- A zero that is set is none any more. -/
theorem zerosBelow_update (f : ℕ → Option Bool) (top m : ℕ) :
    zerosBelow (Function.update f m (some true)) top = (zerosBelow f top).erase m := by
  ext x
  by_cases hx : x = m
  · subst hx
    simp [mem_zerosBelow]
  · simp [mem_zerosBelow, hx]

theorem testMap_evals {v : Bool} (h : s.bitmap map blocks i = some v) :
    Evals (testMap map i) env s v s := by
  obtain ⟨hi, -, bh, hmap, hbit⟩ := Sys.bitmap_some h
  refine .of_eq fun _ => ?_
  simp [testMap, hi, hmap, hbit]

/-- **The loop** counts the zeros, if every bit it looks at is there. -/
theorem countFree_evals (h : ∀ j < i, (s.bitmap map blocks j).isSome = true) :
    Evals (countFree map i free) env s (free + (zerosBelow (s.bitmap map blocks) i).card) s := by
  induction i generalizing free with
  | zero => exact .of_eq fun _ => rfl
  | succ i ih =>
      obtain ⟨v, hv⟩ := Option.isSome_iff_exists.mp (h i (Nat.lt_succ_self i))
      have hrest : Evals (countFree map i (if v then free else free + 1)) env s
          ((if v then free else free + 1) + (zerosBelow (s.bitmap map blocks) i).card) s :=
        ih fun j hj => h j (by omega)
      have hcount : (if v then free else free + 1) + (zerosBelow (s.bitmap map blocks) i).card =
          free + (zerosBelow (s.bitmap map blocks) (i + 1)).card := by
        rw [zerosBelow_succ, hv]
        cases v <;> simp; omega
      exact (testMap_evals hv).bind (hcount ▸ hrest)

/-- The loop starts at the last bit, and does not return if that is missing. -/
theorem countFree_stuck (hi : i / 8192 < mapSlots) (hmap : map ⟨i / 8192, hi⟩ = none) {v : ℕ} :
    ¬ Evals (countFree map (i + 1) free) env s v s' := by
  intro h
  obtain ⟨k, hk⟩ := h.exists_run
  simp [countFree, testMap, hi, hmap, bind_run] at hk

/-! ## Mounted devices -/

/-- A super block that `read_super` has accepted: every block of the bitmaps has a buffer, and
no other slot has one. -/
structure Accepted (s : Sys n) (dev : ℕ) (sb : Fin nrSuper) : Prop where
  mounted : Mounted s dev sb
  slots : ∀ kind (i : Fin mapSlots), ((s.superBlock sb).map kind i).isSome = true ↔
    i.val < (s.superBlock sb).blocks kind

theorem Accepted.zslots (h : Accepted s dev sb) (i : Fin mapSlots) :
    ((s.superBlock sb).sZmap i).isSome = true ↔ i.val < (s.superBlock sb).sZmapBlocks :=
  h.slots .zones i

theorem Accepted.islots (h : Accepted s dev sb) (i : Fin mapSlots) :
    ((s.superBlock sb).sImap i).isSome = true ↔ i.val < (s.superBlock sb).sImapBlocks :=
  h.slots .inodes i

theorem bitmap_isSome (hslots : ∀ i : Fin mapSlots, (map i).isSome = true ↔ i.val < blocks)
    (hfits : blocks ≤ mapSlots) : (s.bitmap map blocks m).isSome = true ↔ m < 8192 * blocks := by
  unfold Sys.bitmap
  split
  · rename_i hin
    rw [Option.isSome_map, hslots]
    dsimp only
    omega
  · rename_i hout
    have hge : ¬ m < 8192 * blocks := fun hlt => hout ⟨by omega, by omega⟩
    simp [hge]

/-! ## Blocks -/

/-- Bit 0 is set, and all bits above that of the last zone are. -/
structure ZonesMarked (s : Sys n) (sb : Fin nrSuper) : Prop where
  first : s.zmap sb 0 = some true
  above : ∀ m, (s.superBlock sb).sNzones < m + (s.superBlock sb).sFirstdatazone →
    s.zmap sb m ≠ some false

/-- No zero is the bit of zone 0. -/
def Sys.NoZoneZero (s : Sys n) (sb : Fin nrSuper) : Prop :=
  ∀ m, s.zmap sb m = some false → (s.superBlock sb).bitZone m ≠ 0

/-- The zeros of the zone bitmap. -/
def Sys.freeZones (s : Sys n) (sb : Fin nrSuper) : Finset ℕ :=
  zerosBelow (s.zmap sb) ((s.superBlock sb).sNzones + 1)

theorem ZonesMarked.bounds (h : ZonesMarked s sb) (hm : s.zmap sb m = some false) :
    1 ≤ m ∧ m + (s.superBlock sb).sFirstdatazone ≤ (s.superBlock sb).sNzones := by
  refine ⟨Nat.one_le_iff_ne_zero.mpr fun hzero => ?_, not_lt.mp fun hlt => h.above m hlt hm⟩
  subst hzero
  exact absurd (h.first.symm.trans hm) (by simp)

theorem ZonesMarked.mem_freeZones (h : ZonesMarked s sb) :
    m ∈ s.freeZones sb ↔ s.zmap sb m = some false := by
  rw [Sys.freeZones, mem_zerosBelow]
  refine ⟨And.right, fun hm => ⟨?_, hm⟩⟩
  have hbounds := h.bounds hm
  omega

theorem ZoneMarked.zonesMarked (h : ZonesMarked s sb) (hmarked : ZoneMarked s sb m true s') :
    ZonesMarked s' sb := by
  have hclear : ∀ x, s'.zmap sb x = some false → s.zmap sb x = some false := by
    intro x hx
    rw [hmarked.zmap] at hx
    by_cases hxm : x = m
    · subst hxm
      simp at hx
    · simpa [hxm] using hx
  constructor
  · rw [hmarked.zmap]
    by_cases hm : m = 0
    · subst hm
      simp
    · rw [Function.update_of_ne (Ne.symm hm), h.first]
  · intro x hx hzero
    rw [hmarked.super] at hx
    exact h.above x hx (hclear x hzero)

/-- `add_zone_bitmap` succeeds once for each zero. -/
theorem addZoneBitmap_consecutive (env : Env n) (h : Mounted s dev sb) (hmarked : ZonesMarked s sb)
    (hpos : s.NoZoneZero sb) :
    Consecutive (addZoneBitmap dev) env s (s.freeZones sb).card := by
  refine .of_drain (I := fun t => Mounted t dev sb ∧ ZonesMarked t sb ∧ t.NoZoneZero sb)
    (fun t => t.freeZones sb) ?_ ⟨h, hmarked, hpos⟩
  rintro t ⟨h, hmarked, hpos⟩
  obtain ⟨z, t', hrun, hadded, -⟩ := h.addZoneBitmap env hmarked.first
  cases hadded with
  | full hfull =>
      refine .inl ⟨Finset.eq_empty_of_forall_notMem fun m hm => ?_, _, hrun⟩
      exact hfull m (hmarked.mem_freeZones.mp hm)
  | @behind m hfree hbehind =>
      have hbounds := hmarked.bounds hfree.1
      unfold SuperBlock.bitZone at hbehind
      omega
  | @added m t' hfree hle hset =>
      have hzero : t.zmap sb m = some false := hfree.1
      have hleft : t'.freeZones sb = (t.freeZones sb).erase m := by
        rw [Sys.freeZones, hset.zmap, zerosBelow_update, hset.super]
        rfl
      refine .inr ⟨m, hmarked.mem_freeZones.mpr hzero, _, t', hrun, hpos m hzero,
        ⟨h.congr hset.super, hset.zonesMarked hmarked, fun x hx => ?_⟩, hleft⟩
      have hx' := (hset.zonesMarked hmarked).mem_freeZones.mpr hx
      rw [hleft] at hx'
      rw [hset.super]
      exact hpos x (hmarked.mem_freeZones.mp (Finset.mem_of_mem_erase hx'))

/-- With zone 0 free `add_zone_bitmap` takes it and returns 0. -/
theorem addZoneBitmap_fails (env : Env n) (h : Mounted s dev sb) (hmarked : ZonesMarked s sb)
    (hm : s.zmap sb m = some false) (hzone : (s.superBlock sb).bitZone m = 0) :
    Consecutive (addZoneBitmap dev) env s 0 := by
  have hpos := (hmarked.bounds hm).1
  have hfree : s.FreeZoneBit sb m := by
    refine ⟨hm, fun x hx => ?_⟩
    have hx' := (hmarked.bounds hx).1
    unfold SuperBlock.bitZone at hzone
    omega
  obtain ⟨z, t', hrun, hadded, -⟩ := h.addZoneBitmap env hmarked.first
  cases hadded with
  | full hfull => exact .zero hrun
  | behind _ _ => exact .zero hrun
  | @added m' t' hfree' _ _ =>
      obtain rfl : m = m' := hfree.unique hfree'
      rw [hzone] at hrun
      exact .zero hrun

/-- The counting loop for blocks returns with the number of calls that succeed. -/
def BlocksAgree (env : Env n) (dev : ℕ) (sb : Fin nrSuper) (s : Sys n) : Prop :=
  ∃ c, Evals (countFreeBlocks sb) env s c s ∧ Consecutive (addZoneBitmap dev) env s c

/-- The loop looks only at bits that are there. -/
theorem countFreeBlocks_evals (h : Accepted s dev sb)
    (hfits : (s.superBlock sb).sNzones ≤ 8192 * (s.superBlock sb).sZmapBlocks) :
    Evals (countFreeBlocks sb) env s (zerosBelow (s.zmap sb) (s.superBlock sb).sNzones).card s := by
  have hcount : Evals (countFreeBlocks sb) env s
      (0 + (zerosBelow (s.zmap sb) (s.superBlock sb).sNzones).card) s :=
      countFree_evals fun j hj => (bitmap_isSome h.zslots h.mounted.zmapBlocks).mpr (by omega)
  rw [Nat.zero_add] at hcount
  exact hcount

theorem countFreeBlocks_stuck (h : Accepted s dev sb) {c : ℕ}
    (hfits : 8192 * (s.superBlock sb).sZmapBlocks < (s.superBlock sb).sNzones) :
    ¬ Evals (countFreeBlocks sb) env s c s := by
  have hshort := h.mounted.short
  obtain ⟨i, hi⟩ : ∃ i, (s.superBlock sb).sNzones = i + 1 :=
    ⟨(s.superBlock sb).sNzones - 1, by omega⟩
  have hslot : i / 8192 < mapSlots := by
    unfold mapSlots
    omega
  have hnone : (s.superBlock sb).sZmap ⟨i / 8192, hslot⟩ = none := by
    rw [← Option.not_isSome_iff_eq_none, h.zslots]
    dsimp only
    omega
  intro hrun
  have hstuck : Evals (countFree (s.superBlock sb).sZmap (s.superBlock sb).sNzones 0) env s c s :=
    hrun
  rw [hi] at hstuck
  exact countFree_stuck hslot hnone hstuck

/-- **Blocks.**  The loop stays inside the bitmap, and if the data zones start at zone 0, then
zone 0 and the last zone are in use, or are the same. -/
theorem blocksAgree_iff (h : Accepted s dev sb) (hmarked : ZonesMarked s sb) :
    BlocksAgree env dev sb s ↔
      (s.superBlock sb).sNzones ≤ 8192 * (s.superBlock sb).sZmapBlocks ∧
        (0 < (s.superBlock sb).sFirstdatazone ∨ (s.superBlock sb).sNzones = 1 ∨
          s.zmap sb 1 ≠ some false ∧ s.zmap sb (s.superBlock sb).sNzones ≠ some false) := by
  -- with too few blocks of the bitmap the count does not return
  by_cases hfits : (s.superBlock sb).sNzones ≤ 8192 * (s.superBlock sb).sZmapBlocks
  swap
  · exact ⟨fun ⟨c, hrun, _⟩ => absurd hrun (countFreeBlocks_stuck h (not_le.mp hfits)),
      fun hc => absurd hc.1 hfits⟩
  have hcount : Evals (countFreeBlocks sb) env s _ s := countFreeBlocks_evals h hfits
  have hagree : BlocksAgree env dev sb s ↔ Consecutive (addZoneBitmap dev) env s
      (zerosBelow (s.zmap sb) (s.superBlock sb).sNzones).card := by
    refine ⟨fun ⟨c, hrun, hcalls⟩ => ?_, fun hcalls => ⟨_, hcount, hcalls⟩⟩
    rwa [(hrun.unique hcount).1] at hcalls
  -- the loop misses the bit of the last zone if zone 0 is a data zone
  have hsucc : (s.freeZones sb).card = (zerosBelow (s.zmap sb) (s.superBlock sb).sNzones).card +
      if s.zmap sb (s.superBlock sb).sNzones = some false then 1 else 0 := zerosBelow_succ ..
  rw [hagree]
  -- bit 1 stands for zone 0 if the first data zone is 0, and that looks like a full device
  by_cases hone : s.NoZoneZero sb
  · have hcalls := addZoneBitmap_consecutive env h.mounted hmarked hone
    have hlast : Consecutive (addZoneBitmap dev) env s
        (zerosBelow (s.zmap sb) (s.superBlock sb).sNzones).card ↔
        s.zmap sb (s.superBlock sb).sNzones ≠ some false := by
      constructor
      · intro hcalls' hzero
        have heq := hcalls'.unique hcalls
        rw [if_pos hzero] at hsucc
        omega
      · intro hset
        rw [if_neg hset, Nat.add_zero] at hsucc
        exact hsucc ▸ hcalls
    rw [hlast]
    have hfirst : s.zmap sb 1 = some false → 0 < (s.superBlock sb).sFirstdatazone := by
      intro hzero
      have hne := hone 1 hzero
      unfold SuperBlock.bitZone at hne
      omega
    constructor
    · intro hset
      refine ⟨hfits, ?_⟩
      by_cases hzero : s.zmap sb 1 = some false
      · exact .inl (hfirst hzero)
      · exact .inr (.inr ⟨hzero, hset⟩)
    · -- if the last bit is clear, each of the three alternatives is impossible
      rintro ⟨-, hpos | hnzones | ⟨-, hset⟩⟩ hzero
      · have hbounds := hmarked.bounds hzero
        omega
      · rw [hnzones] at hzero
        have hpos := hfirst hzero
        have hbounds := hmarked.bounds hzero
        omega
      · exact hset hzero
  · simp only [Sys.NoZoneZero, not_forall, not_not] at hone
    obtain ⟨m, hzero, hzone⟩ := hone
    have hcalls := addZoneBitmap_fails env h.mounted hmarked hzero hzone
    have hbounds := hmarked.bounds hzero
    unfold SuperBlock.bitZone at hzone
    obtain rfl : m = 1 := by omega
    have hnone : Consecutive (addZoneBitmap dev) env s
        (zerosBelow (s.zmap sb) (s.superBlock sb).sNzones).card ↔
        (s.superBlock sb).sNzones = 1 := by
      constructor
      · intro hcalls'
        have hempty := Finset.card_eq_zero.mp (hcalls'.unique hcalls)
        by_contra hne
        exact Finset.notMem_empty 1 (hempty ▸ mem_zerosBelow.mpr ⟨by omega, hzero⟩)
      · intro hnzones
        have hempty : zerosBelow (s.zmap sb) (s.superBlock sb).sNzones = ∅ := by
          refine Finset.eq_empty_of_forall_notMem fun x hx => ?_
          obtain ⟨hlt, hx⟩ := mem_zerosBelow.mp hx
          have hx' := (hmarked.bounds hx).1
          omega
        rw [hempty]
        exact hcalls
    rw [hnone]
    refine ⟨fun hnzones => ⟨hfits, .inr (.inl hnzones)⟩, ?_⟩
    rintro ⟨-, hpos | hnzones | ⟨hset, -⟩⟩
    · omega
    · exact hnzones
    · exact absurd hzero hset

/-! ## Inodes -/

/-- `add_inode_bitmap` succeeds once for each zero that is the bit of an inode. -/
theorem addInodeBitmap_consecutive (env : Env n) (h : Mounted s dev sb)
    (hfirst : s.imap sb 0 = some true) : Consecutive (addInodeBitmap dev) env s
      (zerosBelow (s.imap sb) ((s.superBlock sb).sNinodes + 1)).card := by
  refine .of_drain (I := fun t => Mounted t dev sb ∧ t.imap sb 0 = some true)
    (fun t => zerosBelow (t.imap sb) ((t.superBlock sb).sNinodes + 1)) ?_ ⟨h, hfirst⟩
  rintro t ⟨h, hfirst⟩
  have hfree : ∀ m, m ∈ zerosBelow (t.imap sb) ((t.superBlock sb).sNinodes + 1) ↔
      m ∈ t.freeInodes sb := by
    intro m
    rw [mem_zerosBelow]
    constructor
    · rintro ⟨hlt, hzero⟩
      refine ⟨Nat.one_le_iff_ne_zero.mpr fun hm => ?_, by omega, hzero⟩
      subst hm
      exact absurd (hfirst.symm.trans hzero) (by simp)
    · rintro ⟨-, hle, hzero⟩
      exact ⟨by omega, hzero⟩
  obtain ⟨m, t', hrun, hadded, -⟩ := h.addInodeBitmap env hfirst
  cases hadded with
  | full hempty =>
      refine .inl ⟨Finset.eq_empty_of_forall_notMem fun m hm => ?_, _, hrun⟩
      have hm := (hfree m).mp hm
      rw [hempty] at hm
      exact hm
  | @added m t' hleast hset =>
      refine .inr ⟨m, (hfree m).mpr hleast.1, m, t', hrun, Nat.one_le_iff_ne_zero.mp hleast.1.1,
        ⟨h.congr hset.super, ?_⟩, ?_⟩
      · rw [hset.imap, Function.update_of_ne (Ne.symm (Nat.one_le_iff_ne_zero.mp hleast.1.1)),
          hfirst]
      · rw [hset.imap, zerosBelow_update, hset.super]

/-- The counting loop for inodes returns with the number of calls that succeed. -/
def InodesAgree (env : Env n) (dev : ℕ) (sb : Fin nrSuper) (s : Sys n) : Prop :=
  ∃ c, Evals (countFreeInodes sb) env s c s ∧ Consecutive (addInodeBitmap dev) env s c

/-- **Inodes.** -/
theorem inodesAgree (env : Env n) (h : Accepted s dev sb) (hfirst : s.imap sb 0 = some true)
    (hcover : (s.superBlock sb).sNinodes < 8192 * (s.superBlock sb).sImapBlocks) :
    InodesAgree env dev sb s := by
  have hcount : Evals (countFreeInodes sb) env s
      (0 + (zerosBelow (s.imap sb) ((s.superBlock sb).sNinodes + 1)).card) s :=
      countFree_evals fun j hj => (bitmap_isSome h.islots h.mounted.imapBlocks).mpr (by omega)
  rw [Nat.zero_add] at hcount
  exact ⟨_, hcount, addInodeBitmap_consecutive env h.mounted hfirst⟩

/-! ## Both counts -/

/-- **Free counts.**  On a super block that `read_super` accepted, with its first bits and the
bits above the last zone set and a bit for every inode, the two loops of `sys_setup` stay inside
the bitmaps and count the calls of the allocators that succeed exactly if the zone bitmap has a
bit `s_nzones - 1` and, where zone 0 is a data zone, zone 0 and the last zone are in use or the
same. -/
theorem free_counts (env : Env n) (h : Accepted s dev sb) (hmarked : ZonesMarked s sb)
    (hfirst : s.imap sb 0 = some true)
    (hcover : (s.superBlock sb).sNinodes < 8192 * (s.superBlock sb).sImapBlocks) :
    BlocksAgree env dev sb s ∧ InodesAgree env dev sb s ↔
      (s.superBlock sb).sNzones ≤ 8192 * (s.superBlock sb).sZmapBlocks ∧
        (0 < (s.superBlock sb).sFirstdatazone ∨ (s.superBlock sb).sNzones = 1 ∨
          s.zmap sb 1 ≠ some false ∧ s.zmap sb (s.superBlock sb).sNzones ≠ some false) := by
  have hblocks : BlocksAgree env dev sb s ↔ _ := blocksAgree_iff h hmarked
  rw [← hblocks]
  exact and_iff_left (inodesAgree env h hfirst hcover)

/-! ## A device with one block of bits for its zones -/

/-- A mounted device with 63 inodes, whose zones start at 10 and end before `nzones`. -/
def oneZmap (nzones : ℕ) : Sys 2 :=
  (((Sys.load fun _ _ _ => 0).setBuf 0 fun bh => { bh with bData := secondClear }).setBuf 1
    fun bh => { bh with bData := secondClear }).setSuper 0 fun p =>
    { p with
      sDev := 0x300
      sImapBlocks := 1
      sImap := fun i => if i = 0 then some 1 else none
      sNinodes := 63
      sZmapBlocks := 1
      sZmap := fun i => if i = 0 then some 0 else none
      sFirstdatazone := 10
      sNzones := nzones }

theorem oneZmap_accepted {nzones : ℕ} (hshort : nzones < 65536) :
    Accepted (oneZmap nzones) 0x300 0 where
  mounted :=
    { device := by decide
      super := ⟨rfl, fun p hp => absurd hp (by simp)⟩
      lock := rfl
      imapBlocks := by simp [oneZmap, mapSlots]
      zmapBlocks := by simp [oneZmap, mapSlots]
      imapOwn := fun i j b hi hj => by
        by_cases h : i = 0 <;> by_cases h' : j = 0 <;> simp_all [oneZmap]
      zmapOwn := fun i j b hi hj => by
        by_cases h : i = 0 <;> by_cases h' : j = 0 <;> simp_all [oneZmap]
      short := hshort }
  slots kind i := by
    by_cases h : i = 0
    · subst h
      cases kind <;> simp [oneZmap, SuperBlock.map, SuperBlock.blocks]
    · have hi : ¬ i.val < 1 := fun hlt => h (Fin.ext (by rw [Fin.val_zero]; omega))
      cases kind <;> simp [oneZmap, SuperBlock.map, SuperBlock.blocks, h, hi]

theorem secondClear_bit (hm : m < 8192) (hne : m ≠ 2) : secondClear.bit m = true := by
  have hlow : ∀ x : Fin 8, x.val ≠ 2 → (0xFB : UInt8).toNat.testBit x.val = true := by decide
  have hhigh : ∀ x : Fin 8, (0xFF : UInt8).toNat.testBit x.val = true := by decide
  have hmod : m % 8 < 8 := Nat.mod_lt m (by decide)
  by_cases hbyte : m / 8 = 0
  · have hbit := hlow ⟨m % 8, hmod⟩ (by dsimp only; omega)
    simpa [Block.bit, secondClear, hbyte] using hbit
  · have hbit := hhigh ⟨m % 8, hmod⟩
    have hne : ¬ m / 8 % 1024 = 0 := by omega
    simpa [Block.bit, secondClear, Fin.ext_iff, hne] using hbit

theorem oneZmap_zmap (nzones : ℕ) (hm : m < 8192) :
    (oneZmap nzones).zmap 0 m = some (secondClear.bit m) := by
  have hslot : ((oneZmap nzones).superBlock 0).sZmap ⟨0, by decide⟩ = some 0 := rfl
  have hbit := Sys.bitmap_slot (s := oneZmap nzones) _ Nat.one_pos hslot hm
  rwa [Nat.mul_zero, Nat.zero_add] at hbit

/-- Only zone 11 is free. -/
theorem oneZmap_marked {nzones : ℕ} (hnzones : 12 ≤ nzones) : ZonesMarked (oneZmap nzones) 0 where
  first := (oneZmap_zmap nzones (by decide)).trans
    (congrArg some (secondClear_bit (by decide) (by decide)))
  above m hm hzero := by
    have hlt : m < 8192 := by
      by_contra hge
      have hnone : (oneZmap nzones).zmap 0 m = none := by
        have hblocks : ¬ (m / 8192 < 1 ∧ m / 8192 < mapSlots) := by omega
        exact dif_neg hblocks
      exact absurd (hnone.symm.trans hzero) (by simp)
    have hm : nzones < m + 10 := hm
    rw [oneZmap_zmap nzones hlt, secondClear_bit hlt (by omega)] at hzero
    exact absurd hzero (by simp)

/-- One block has the bits of 8192 zones. -/
theorem free_counts_one : BlocksAgree (Env.diligent 0x50) 0x300 0 (oneZmap 8192) ∧
    InodesAgree (Env.diligent 0x50) 0x300 0 (oneZmap 8192) ↔
      8192 ≤ 8192 * ((oneZmap 8192).superBlock 0).sZmapBlocks ∧
        (0 < 10 ∨ 8192 = 1 ∨ (oneZmap 8192).zmap 0 1 ≠ some false ∧
          (oneZmap 8192).zmap 0 8192 ≠ some false) :=
  free_counts (Env.diligent 0x50) (oneZmap_accepted (by decide)) (oneZmap_marked (by decide)) rfl
    (by decide)

/-- Of 8200 zones the bitmap covers all data zones, but the loop looks for a second block. -/
theorem missing_slot :
    (Accepted (oneZmap 8200) 0x300 0 ∧ ZonesMarked (oneZmap 8200) 0 ∧
      (oneZmap 8200).imap 0 0 = some true ∧
      ((oneZmap 8200).superBlock 0).sNinodes < 8192 * ((oneZmap 8200).superBlock 0).sImapBlocks ∧
      ((oneZmap 8200).superBlock 0).sNzones - ((oneZmap 8200).superBlock 0).sFirstdatazone <
        8192 * ((oneZmap 8200).superBlock 0).sZmapBlocks) ∧
    ¬ (BlocksAgree (Env.diligent 0x50) 0x300 0 (oneZmap 8200) ∧
      InodesAgree (Env.diligent 0x50) 0x300 0 (oneZmap 8200)) := by
  refine ⟨⟨oneZmap_accepted (by decide), oneZmap_marked (by decide), rfl, by decide, by decide⟩, ?_⟩
  rintro ⟨⟨c, hrun, -⟩, -⟩
  exact countFreeBlocks_stuck (oneZmap_accepted (by decide)) (by decide) hrun

end EgGS
