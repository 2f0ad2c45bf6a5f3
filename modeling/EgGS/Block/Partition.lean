import EgGS.Block.Runs

/-!
# Partitions

`do_hd_request` tests the sector of a request against the size of its partition and adds
the start of the partition to it, all in 32-bit arithmetic that wraps.  So the test lets
the last of the `2^31` blocks through and takes two block numbers that differ by `2^31`
for the same block, and a partition that ends behind sector `2^32` is continued at sector 0.
Then `hd_out` sends two bytes of the cylinder, so a partition that goes on behind cylinder
65535 is continued at cylinder 0.

* `Programming` says which commands the driver sends in a run, and `Geometry.Programs`
  which sectors they cover, as the controller reads its ports.
* `partition_isolated`: if its cylinders fit into two bytes, exactly which blocks stay inside
  their partition, and exactly which pairs of blocks stay apart.
-/

namespace EgGS

open Lib Prog

variable {n : ℕ} {env : Env n} {k : ℕ} {s s' s₀ : Sys n}
variable {sub : Submission n} {r : Fin nrRequest} {geo : Geometry} {dev block block' : ℕ}

/-! ## Sectors of a request -/

/-- The sector that the controller goes to for the address `lba`: of the cylinder, it gets
two bytes. -/
def HdInfo.reached (info : HdInfo) (lba : ℕ) : ℕ :=
  (lba / info.sect / info.head % 65536 * info.head + lba / info.sect % info.head) * info.sect +
    lba % info.sect

/-- The first sector of a read or write command, by what `hd_out` sends. -/
def Command.reached (c : Command) (info : HdInfo) : ℕ :=
  (c.cyl % 65536 * info.head + c.head) * info.sect + (c.sec - 1)

/-- The sectors of a read or write command to a disk with the geometry `info`. -/
def Command.Covers (c : Command) (info : HdInfo) (sector : ℕ) : Prop :=
  c.reached info ≤ sector ∧ sector < c.reached info + c.nsect

/-- Where the controller goes for sector `sector` of the device. -/
def Geometry.reached (geo : Geometry) (dev sector : ℕ) : ℕ :=
  (geo.hdInfo (minor dev / 5)).reached (geo.lba dev sector)

/-- A command for the block covers the sector, at the first attempt or when its second
sector is tried again. -/
def Geometry.Programs (geo : Geometry) (dev block sector : ℕ) : Prop :=
  ∃ j < 2, outOfPartition geo dev ((block * 2 + j) % 4294967296) = false ∧
    geo.reached dev ((block * 2 + j) % 4294967296) ≤ sector ∧
    sector < geo.reached dev ((block * 2 + j) % 4294967296) + (2 - j)

/-- The cylinders of the two sectors of the block fit into two bytes. -/
def Geometry.Fits (geo : Geometry) (dev block : ℕ) : Prop :=
  ∀ j < 2, geo.lba dev ((block * 2 + j) % 4294967296) / (geo.hdInfo (minor dev / 5)).sect /
    (geo.hdInfo (minor dev / 5)).head < 65536

/-- The sector belongs to the partition of the device. -/
def Geometry.InPartition (geo : Geometry) (dev sector : ℕ) : Prop :=
  (geo.partitionInfo (minor dev)).startSect ≤ sector ∧
    sector < (geo.partitionInfo (minor dev)).startSect + (geo.partitionInfo (minor dev)).nrSects

/-- The partition table holds 32-bit words. -/
def Geometry.Words (geo : Geometry) : Prop :=
  ∀ i, (geo.partitionInfo i).startSect < 4294967296 ∧ (geo.partitionInfo i).nrSects < 4294967296

/-- The test of `do_hd_request` rejects the block. -/
def Geometry.Rejects (geo : Geometry) (dev block : ℕ) : Prop :=
  outOfPartition geo dev (block * 2 % 4294967296) = true

/-- No sum of the block wraps: neither the end of the block nor its place on the disk.  (The
last block of a partition may end at sector `2^32`.) -/
def Geometry.Contained (geo : Geometry) (dev block : ℕ) : Prop :=
  geo.Rejects dev block ∨ block * 2 % 4294967296 + 2 < 4294967296 ∧
    ((geo.partitionInfo (minor dev)).startSect + block * 2 % 4294967296 + 1 < 4294967296 ∨
      (geo.partitionInfo (minor dev)).startSect + block * 2 % 4294967296 + 1 = 4294967296 ∧
        (geo.partitionInfo (minor dev)).nrSects = block * 2 % 4294967296 + 2)

/-- The two block numbers are different in their last 31 bits, or one of them is rejected. -/
def Geometry.Apart (geo : Geometry) (dev block block' : ℕ) : Prop :=
  geo.Rejects dev block ∨ geo.Rejects dev block' ∨ block % 2147483648 ≠ block' % 2147483648

theorem outOfPartition_eq_false {sector : ℕ} : outOfPartition geo dev sector = false ↔
    minor dev < geo.nrHd * 5 ∧
      (sector + 2) % 4294967296 ≤ (geo.partitionInfo (minor dev)).nrSects := by
  simp [outOfPartition]

/-! ### Cylinders -/

/-- The two divisions, and back. -/
theorem HdInfo.undivide (info : HdInfo) (lba : ℕ) :
    (lba / info.sect / info.head * info.head + lba / info.sect % info.head) * info.sect +
      lba % info.sect = lba := by
  rw [Nat.div_add_mod', Nat.div_add_mod']

theorem HdInfo.reached_eq {info : HdInfo} {lba : ℕ} (h : lba / info.sect / info.head < 65536) :
    info.reached lba = lba := by
  rw [HdInfo.reached, Nat.mod_eq_of_lt h, info.undivide]

/-- A cylinder that does not fit is taken for another one. -/
theorem HdInfo.reached_iff {info : HdInfo} {lba : ℕ} (hhead : 0 < info.head)
    (hsect : 0 < info.sect) :
    info.reached lba = lba ↔ lba / info.sect / info.head < 65536 := by
  refine ⟨fun h => ?_, HdInfo.reached_eq⟩
  have hsame := h.trans (info.undivide lba).symm
  rw [HdInfo.reached, Nat.add_right_cancel_iff] at hsame
  have htrack := Nat.eq_of_mul_eq_mul_right hsect hsame
  rw [Nat.add_right_cancel_iff] at htrack
  rw [← Nat.eq_of_mul_eq_mul_right hhead htrack]
  exact Nat.mod_lt _ (by decide)

/-- The ports lose nothing of the address exactly if the cylinders fit. -/
theorem fits_iff (hhead : 0 < (geo.hdInfo (minor dev / 5)).head)
    (hsect : 0 < (geo.hdInfo (minor dev / 5)).sect) :
    (∀ j < 2, geo.reached dev ((block * 2 + j) % 4294967296) =
      geo.lba dev ((block * 2 + j) % 4294967296)) ↔ geo.Fits dev block :=
  forall₂_congr fun _ _ => HdInfo.reached_iff hhead hsect

theorem Geometry.Fits.programs (h : geo.Fits dev block) {sector : ℕ} :
    geo.Programs dev block sector ↔
      ∃ j < 2, outOfPartition geo dev ((block * 2 + j) % 4294967296) = false ∧
        geo.lba dev ((block * 2 + j) % 4294967296) ≤ sector ∧
        sector < geo.lba dev ((block * 2 + j) % 4294967296) + (2 - j) := by
  refine exists_congr fun j => and_congr_right fun hj => ?_
  rw [Geometry.reached, HdInfo.reached_eq (h j hj)]

/-! ### Partitions -/

/-- A block that the test lets through, by the numbers. -/
theorem programs_iff (hfits : geo.Fits dev block) (hpass : ¬ geo.Rejects dev block) {sector : ℕ} :
    geo.Programs dev block sector ↔
      (geo.lba dev (block * 2 % 4294967296) ≤ sector ∧
        sector < geo.lba dev (block * 2 % 4294967296) + 2) ∨
      ((block * 2 % 4294967296 + 3) % 4294967296 ≤ (geo.partitionInfo (minor dev)).nrSects ∧
        geo.lba dev (block * 2 % 4294967296 + 1) = sector) := by
  rw [Geometry.Rejects, Bool.not_eq_true, outOfPartition_eq_false] at hpass
  have hone : (block * 2 + 1) % 4294967296 = block * 2 % 4294967296 + 1 := by omega
  rw [hfits.programs]
  constructor
  · rintro ⟨j, hj, hout, hle, hlt⟩
    obtain rfl | rfl : j = 0 ∨ j = 1 := by omega
    · exact .inl ⟨hle, hlt⟩
    · rw [hone] at hout hle hlt
      exact .inr ⟨(outOfPartition_eq_false.mp hout).2, by omega⟩
  · rintro (⟨hle, hlt⟩ | ⟨hnr, heq⟩)
    · exact ⟨0, by omega, outOfPartition_eq_false.mpr hpass, hle, hlt⟩
    · refine ⟨1, by omega, outOfPartition_eq_false.mpr ⟨hpass.1, ?_⟩, ?_, ?_⟩ <;> rw [hone]
      · exact hnr
      · exact heq.le
      · omega

theorem Geometry.Programs.passes {sector : ℕ} (h : geo.Programs dev block sector) :
    ¬ geo.Rejects dev block := by
  obtain ⟨j, hj, hout, -, -⟩ := h
  rw [outOfPartition_eq_false] at hout
  rw [Geometry.Rejects, Bool.not_eq_true, outOfPartition_eq_false]
  exact ⟨hout.1, by omega⟩

/-- **Inside the partition.** -/
theorem inPartition_iff (hwords : geo.Words) (hfits : geo.Fits dev block) :
    (∀ sector, geo.Programs dev block sector → geo.InPartition dev sector) ↔
      geo.Contained dev block := by
  obtain ⟨hstart, hnr⟩ := hwords (minor dev)
  by_cases hrej : geo.Rejects dev block
  · exact ⟨fun _ => .inl hrej, fun _ sector h => absurd hrej h.passes⟩
  have hpass := hrej
  rw [Geometry.Rejects, Bool.not_eq_true, outOfPartition_eq_false] at hpass
  simp only [programs_iff hfits hrej, Geometry.Contained, hrej, false_or, Geometry.InPartition,
    Geometry.lba]
  generalize (geo.partitionInfo (minor dev)).startSect = start at *
  generalize (geo.partitionInfo (minor dev)).nrSects = nr at *
  constructor
  · intro h
    -- the two sectors of the first attempt, and the one of the second
    have hlow := h ((block * 2 % 4294967296 + start) % 4294967296) (.inl ⟨by omega, by omega⟩)
    have hhigh := h ((block * 2 % 4294967296 + start) % 4294967296 + 1) (.inl ⟨by omega, by omega⟩)
    have hagain := h ((block * 2 % 4294967296 + 1 + start) % 4294967296)
    omega
  · rintro h sector hsector
    omega

/-- **Different blocks.** -/
theorem apart_iff (hfits : geo.Fits dev block) (hfits' : geo.Fits dev block') :
    (∀ sector, ¬ (geo.Programs dev block sector ∧ geo.Programs dev block' sector)) ↔
      geo.Apart dev block block' := by
  by_cases hrej : geo.Rejects dev block
  · exact ⟨fun _ => .inl hrej, fun _ sector h => h.1.passes hrej⟩
  by_cases hrej' : geo.Rejects dev block'
  · exact ⟨fun _ => .inr (.inl hrej'), fun _ sector h => h.2.passes hrej'⟩
  simp only [programs_iff hfits hrej, programs_iff hfits' hrej', Geometry.Apart, hrej, hrej',
    false_or, Geometry.lba]
  constructor
  · intro h hsame
    have heq : block' * 2 % 4294967296 = block * 2 % 4294967296 := by omega
    rw [heq] at h
    exact h _ ⟨.inl ⟨le_rfl, by omega⟩, .inl ⟨le_rfl, by omega⟩⟩
  · rintro hne sector ⟨h, h'⟩
    omega

/-! ## The commands of a run -/

/-- The states of a run in which `do_hd_request` is at its label `repeat`. -/
inductive Repeating (env : Env n) (s₀ : Sys n) : Submission n × Sys n → Prop
  | start {s : Sys n} {b : Option (Fin n)} {cmd : Option Rw} {r : Fin nrRequest} :
      Reached env (fun _ _ => True) s₀ (⟨b, cmd, some r⟩, s) → s.current = none →
      Repeating env s₀ (.idle, ((s.offer r).start r).setIntr true)
  | interrupt {sub : Submission n} {s s' : Sys n} {i : Irq} :
      Reached env (fun _ _ => True) s₀ (sub, s) → env.irq s = some i →
      Handled env (winResult i.status) s true s' → Repeating env s₀ (sub, s')
  | again {sub : Submission n} {s s' : Sys n} : Repeating env s₀ (sub, s) →
      Pass env s (.inl ()) s' → Repeating env s₀ (sub, s')

/-- In the state `x` of a run `do_hd_request` programs the command `c` for the request in
slot `r`. -/
structure Programming (env : Env n) (s₀ : Sys n) (x : Submission n × Sys n) (r : Fin nrRequest)
    (c : Command) : Prop where
  state : Repeating env s₀ x
  served : Served x.2 r
  reset : x.2.reset = false
  recalibrate : x.2.recalibrate = false
  command : (x.2.request r).cmd = .read ∧ c = x.2.transferCommand r .read ∨
    (x.2.request r).cmd = .write ∧ c = x.2.transferCommand r .write

variable {x : Submission n × Sys n}

theorem Reached.pooled {may : Submission n × Sys n → Submission n × Sys n → Prop}
    (hquiet : s₀.Quiet) (h : Reached env may s₀ x) : Pooled x.1 x.2 ∧ x.2.geo = s₀.geo := by
  induction h with
  | init => exact ⟨⟨[], Pool.init hquiet.current hquiet.unlocked⟩, rfl⟩
  | step _ hstep _ ih =>
      exact ⟨ih.1.submit hstep, (congrArg Rest.geo hstep.rest).trans ih.2⟩
  | elsewhere _ helse _ ih => exact ⟨ih.1.congr helse.samePool, helse.geo.trans ih.2⟩
  | flags _ _ _ ih => exact ⟨ih.1.congr (.of_buf rfl rfl rfl), ih.2⟩

theorem Repeating.pooled (hquiet : s₀.Quiet) (h : Repeating env s₀ x) :
    Pooled x.1 x.2 ∧ x.2.geo = s₀.geo := by
  induction h with
  | @start s b cmd r hreached hcur =>
      obtain ⟨⟨q, hq⟩, hgeo⟩ := hreached.pooled hquiet
      exact ⟨⟨_, hq.startQueue hcur⟩, (congrArg Rest.geo (s.offer_rest r)).trans hgeo⟩
  | interrupt hreached _ hh =>
      obtain ⟨hpooled, hgeo⟩ := hreached.pooled hquiet
      exact ⟨hpooled.handled hh, (congrArg Rest.geo hh.rest).trans hgeo⟩
  | again _ hp ih => exact ⟨ih.1.pass hp, (congrArg Rest.geo hp.rest).trans ih.2⟩

/-- Whatever the retries, a command covers sectors of the block of its buffer. -/
theorem Programming.programs {c : Command} {sector : ℕ} (hquiet : s₀.Quiet)
    (h : Programming env s₀ x r c) (hcovers : c.Covers (s₀.geo.hdInfo c.drive) sector) :
    ∃ b, (x.2.request r).bh = some b ∧
      s₀.geo.Programs (x.2.buf b).bDev (x.2.buf b).bBlocknr sector := by
  obtain ⟨⟨q, hq⟩, hgeo⟩ := h.state.pooled hquiet
  obtain ⟨q, rfl⟩ := hq.eq_cons h.served.current
  obtain ⟨b, hb⟩ := hq.goodMem (List.mem_cons_self ..)
  refine ⟨b, hb.bh, 2 - (x.2.request r).nrSectors, ?_, ?_, ?_⟩
  · have hleft := hb.left
    omega
  · have hin := h.served.inRange
    rwa [hb.unsigned_dev, hb.sector, hgeo] at hin
  · have hreached : c.reached (s₀.geo.hdInfo c.drive) =
        s₀.geo.reached (x.2.buf b).bDev (x.2.request r).sector ∧
        c.nsect = (x.2.request r).nrSectors := by
      rw [← hb.unsigned_dev, ← hgeo]
      rcases h.command with ⟨-, rfl⟩ | ⟨-, rfl⟩ <;> exact ⟨rfl, rfl⟩
    rw [Command.Covers, hreached.1, hreached.2, hb.sector] at hcovers
    have hleft := hb.left
    exact ⟨hcovers.1, by omega⟩

/-- **Partition isolation.**  In every run the sectors that are programmed for a request are
those of `Geometry.Programs` for its block.  If the cylinders fit, which is when the ports lose
nothing of the address, these lie in the partition exactly if the block is `Contained`, and
different blocks share none of them exactly if they are `Apart`. -/
theorem partition_isolated (hquiet : s₀.Quiet) (hwords : s₀.geo.Words) :
    (∀ x r c sector, Programming env s₀ x r c → c.Covers (s₀.geo.hdInfo c.drive) sector →
      ∃ b, (x.2.request r).bh = some b ∧
        s₀.geo.Programs (x.2.buf b).bDev (x.2.buf b).bBlocknr sector) ∧
    (∀ dev block, s₀.geo.Fits dev block →
      ((∀ sector, s₀.geo.Programs dev block sector → s₀.geo.InPartition dev sector) ↔
        s₀.geo.Contained dev block)) ∧
    (∀ dev block block', s₀.geo.Fits dev block → s₀.geo.Fits dev block' →
      ((∀ sector, ¬ (s₀.geo.Programs dev block sector ∧ s₀.geo.Programs dev block' sector)) ↔
        s₀.geo.Apart dev block block')) ∧
    ∀ dev block, 0 < (s₀.geo.hdInfo (minor dev / 5)).head →
      0 < (s₀.geo.hdInfo (minor dev / 5)).sect →
      ((∀ j < 2, s₀.geo.reached dev ((block * 2 + j) % 4294967296) =
        s₀.geo.lba dev ((block * 2 + j) % 4294967296)) ↔ s₀.geo.Fits dev block) :=
  ⟨fun _ _ _ _ h hcovers => h.programs hquiet hcovers,
    fun _ _ hfits => inPartition_iff hwords hfits, fun _ _ _ => apart_iff, fun _ _ => fits_iff⟩

/-! ## The last block number -/

/-- A disk whose second partition starts at sector 100, and a header for block `2^31 - 1` of
that partition. -/
def lastBlock : Sys 1 :=
  { Sys.load fun _ _ _ => 7 with
    geo := { smallDrive with partitionInfo := fun i => if i = 1 then ⟨100, 1500⟩ else ⟨0, 1600⟩ }
    hdEnabled := true
    reset := false
    recalibrate := false
    buf := fun _ =>
      { bBlocknr := 2147483647, bDev := 0x301, bCount := 1, bPrev := none, bNext := none
        bPrevFree := none, bNextFree := none, bData := zeroBlock, bUptodate := false
        bDirt := false, bLock := false } }

theorem lastBlock_quiet : lastBlock.Quiet := ⟨rfl, fun _ => rfl, rfl, rfl⟩

theorem lastBlock_words : lastBlock.geo.Words := by
  intro i
  simp only [lastBlock]
  split <;> decide

/-- The request for the block, before it is queued. -/
def lastBlockAsked : Sys 1 :=
  ((initRequestQueue lastBlock).setBuf 0 fun bh => { bh with bLock := true }).setRequest 31
    fun _ => makeRequest ((initRequestQueue lastBlock).setBuf 0 fun bh =>
      { bh with bLock := true }) .read 0

theorem lastBlock_programming : Programming (Env.diligent 0x50) lastBlock
    (.idle, ((lastBlockAsked.offer 31).start 31).setIntr true) 31
    ((((lastBlockAsked.offer 31).start 31).setIntr true).transferCommand 31 .read) where
  state := by
    refine .start (.step (.step (.step .init (.lock rfl rfl rfl) trivial)
      (.check (.inl rfl) (by simp) fun _ => rfl) trivial) (.fill ?_) trivial) rfl
    rfl
  served := ⟨rfl, by decide, by decide⟩
  reset := rfl
  recalibrate := rfl
  command := .inl ⟨rfl, rfl⟩

/-- The read of block `2^31 - 1` starts two sectors before its partition. -/
theorem sector_before_partition : ¬ ∀ x r c sector,
    Programming (Env.diligent 0x50) lastBlock x r c →
      c.Covers (lastBlock.geo.hdInfo c.drive) sector →
      ∃ b, (x.2.request r).bh = some b ∧ lastBlock.geo.InPartition (x.2.buf b).bDev sector := by
  intro h
  obtain ⟨b, -, hin⟩ := h _ _ _ 98 lastBlock_programming ⟨by decide, by decide⟩
  obtain rfl : b = 0 := Subsingleton.elim _ _
  exact absurd hin.1 (by decide)

/-- Block 3 of the same partition. -/
theorem partition_isolated_inside : ¬ ∃ sector,
    lastBlock.geo.Programs 0x301 3 sector ∧ ¬ lastBlock.geo.InPartition 0x301 sector :=
  fun ⟨sector, hprograms, hout⟩ => hout <|
    ((@partition_isolated 1 (Env.diligent 0x50) _ lastBlock_quiet lastBlock_words).2.1
      0x301 3 (by unfold Geometry.Fits; decide)).mpr
      (.inr ⟨by decide, .inl (by decide)⟩) sector hprograms

end EgGS
