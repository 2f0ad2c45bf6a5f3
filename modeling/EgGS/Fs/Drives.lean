import EgGS.Block.Chs
import EgGS.Cache.Loss
import EgGS.Model.Setup

/-!
# The drive table

The boot loader says by a flag whether it left a drive table, and the entries of the table
start with their sizes.  `init_blk` tests the flag of another field, and `init_hd_info` goes
on to the next entry where it should stop: only if the entries so far are longer than the
table.

* `drive_table`: so the table is parsed as it should be exactly if it has one entry, and the
  flag is tested as it should be exactly if both flags agree on it.
-/

namespace EgGS

open Lib Prog

variable {n : ℕ} {env : Env n} {k : ℕ} {s s' : Sys n} {mem : ℕ → UInt8}
variable {addr length drivesAddr drivesLength : ℕ} {entries : List HdInfo} {mbi : MultibootInfo}

/-! ## Tables -/

/-- `MULTIBOOT_INFO_DRIVE_INFO`: the fields about the drive table are valid. -/
def MultibootInfo.driveInfo (mbi : MultibootInfo) : Bool := mbi.flags.testBit 7

/-- The `length` bytes at `addr` are a table with these entries: each starts with its size,
which covers the fields that are read. -/
inductive DriveTable (mem : ℕ → UInt8) : ℕ → ℕ → List HdInfo → Prop
  | nil {addr : ℕ} : DriveTable mem addr 0 []
  | cons {addr length : ℕ} {entries : List HdInfo} : 10 ≤ intAt mem addr →
      DriveTable mem (addr + intAt mem addr) length entries →
      DriveTable mem addr (intAt mem addr + length) (driveAt mem addr :: entries)

theorem byteAt_lt (mem : ℕ → UInt8) (addr off : ℕ) : byteAt mem addr off < 256 :=
  UInt8.toNat_lt _

theorem intAt_lt (mem : ℕ → UInt8) (addr : ℕ) : intAt mem addr < 4294967296 := by
  have h0 := byteAt_lt mem addr 0
  have h1 := byteAt_lt mem addr 1
  have h2 := byteAt_lt mem addr 2
  have h3 := byteAt_lt mem addr 3
  rw [intAt]
  omega

/-- An entry inside the address space. -/
theorem mem_entryReads {a : ℕ} (hend : addr + 10 ≤ 4294967296) (ha : a ∈ entryReads addr) :
    addr ≤ a ∧ a < addr + 10 := by
  simp only [entryReads, List.map_cons, List.map_nil, List.mem_cons, List.not_mem_nil,
    or_false] at ha
  omega

/-! ## The scan -/

/-- The first entry that does not lead behind the table is the last one that is read. -/
theorem scanDrives_last {left drive : ℕ} {geo : Geometry} (h : intAt mem addr ≤ length) :
    scanDrives mem length (left + 1) drive addr 0 geo =
      ⟨geo.addDrive drive (driveAt mem addr), entryReads addr⟩ := by
  have hsize := intAt_lt mem addr
  rw [scanDrives, if_neg (by omega)]

/-- Whatever the table, its first entry is read. -/
theorem scanDrives_reads {left drive size : ℕ} {geo : Geometry} {a : ℕ} (ha : a ∈ entryReads addr) :
    a ∈ (scanDrives mem length (left + 1) drive addr size geo).reads := by
  rw [scanDrives]
  split
  · exact List.mem_append_left _ ha
  · exact ha

/-- `init_hd_info` finds the drives of the table and reads nothing else. -/
structure Parsed (scan : DriveScan) (drivesAddr drivesLength : ℕ) (entries : List HdInfo) :
    Prop where
  count : scan.geo.nrHd = min maxHd entries.length
  infos : ∀ k (h : k < entries.length), k < maxHd → scan.geo.hdInfo k = entries[k]
  inside : ∀ a ∈ scan.reads, drivesAddr ≤ a ∧ a < drivesAddr + drivesLength

/-- **The scan.**  The table is parsed exactly if it has one entry. -/
theorem parsed_iff (htable : DriveTable s.mem drivesAddr drivesLength entries)
    (hend : drivesAddr + drivesLength ≤ 4294967296) (hstart : s.geo.nrHd = 0) :
    Parsed (s.driveScan drivesAddr drivesLength) drivesAddr drivesLength entries ↔
      entries.length = 1 := by
  cases htable with
  | nil =>
      -- the entry behind an empty table is read
      refine ⟨fun h => ?_, fun h => absurd h (by simp)⟩
      have hread := h.inside ((drivesAddr + 0) % 4294967296)
        (scanDrives_reads (by simp [entryReads]))
      omega
  | @cons addr length entries hsize hrest =>
      have hlast : s.driveScan drivesAddr (intAt s.mem drivesAddr + length) =
          ⟨s.geo.addDrive 0 (driveAt s.mem drivesAddr), entryReads drivesAddr⟩ :=
        scanDrives_last (Nat.le_add_right ..)
      have hone : (s.geo.addDrive 0 (driveAt s.mem drivesAddr)).nrHd = 1 := by
        rw [Geometry.addDrive, hstart]
      rw [hlast]
      constructor
      · intro h
        have hcount := h.count
        rw [hone, List.length_cons] at hcount
        rw [List.length_cons]
        simp only [maxHd] at hcount
        omega
      · intro hlen
        obtain rfl : entries = [] := by simpa using hlen
        refine ⟨hone, fun k hk _ => ?_, fun a ha => ?_⟩
        · obtain rfl : k = 0 := by simpa using hk
          simp [Geometry.addDrive]
        · have hbounds := mem_entryReads (by omega) ha
          omega

/-! ## The whole of `init_hd_info` -/

theorem foldl_wholeDisk (l : List ℕ) (geo : Geometry) :
    (l.foldl Geometry.wholeDisk geo).hdInfo = geo.hdInfo ∧
      (l.foldl Geometry.wholeDisk geo).nrHd = geo.nrHd := by
  induction l generalizing geo with
  | nil => exact ⟨rfl, rfl⟩
  | cons i l ih => exact ih (geo.wholeDisk i)

theorem foldl_wholeDisk_partition (l : List ℕ) (geo : Geometry) {i : ℕ}
    (h : i ∈ l ∨ geo.partitionInfo (5 * i) = ⟨0, (geo.hdInfo i).size % 4294967296⟩) :
    (l.foldl Geometry.wholeDisk geo).partitionInfo (5 * i) =
      ⟨0, (geo.hdInfo i).size % 4294967296⟩ := by
  induction l generalizing geo with
  | nil => exact h.resolve_left (by simp)
  | cons j l ih =>
      refine ih (geo.wholeDisk j) ?_
      by_cases hij : i = j
      · subst hij
        right
        simp only [Geometry.wholeDisk, Nat.mul_comm i 5, Function.update_self, HdInfo.size]
        rw [Nat.mul_comm ((geo.hdInfo i).head * _), ← Nat.mul_assoc]
      · refine h.imp (fun hmem => (List.mem_cons.mp hmem).resolve_left hij) fun heq => ?_
        simpa [Geometry.wholeDisk, Function.update_of_ne (by omega : 5 * i ≠ j * 5)] using heq

/-- The partitions from a boot sector are those behind the whole drive. -/
theorem setPartitions_spec (geo : Geometry) (drive : ℕ) (data : Block) :
    (geo.setPartitions drive data).hdInfo = geo.hdInfo ∧
      (geo.setPartitions drive data).nrHd = geo.nrHd ∧
      ∀ i, (geo.setPartitions drive data).partitionInfo (5 * i) = geo.partitionInfo (5 * i) := by
  refine ⟨rfl, rfl, fun i => ?_⟩
  simp only [Geometry.setPartitions, Geometry.setPartition, List.foldl_cons, List.foldl_nil]
  iterate 4 rw [Function.update_of_ne (by omega)]

/-- The drives and their whole partitions, as the two loops in front of the boot sectors leave
them. -/
structure Drives (geo geo' : Geometry) : Prop where
  hdInfo : geo'.hdInfo = geo.hdInfo
  nrHd : geo'.nrHd = geo.nrHd
  whole : ∀ i < geo.nrHd, geo'.partitionInfo (5 * i) = ⟨0, (geo.hdInfo i).size % 4294967296⟩

theorem wholeDisks_drives (geo : Geometry) : Drives geo geo.wholeDisks where
  hdInfo := (foldl_wholeDisk _ geo).1
  nrHd := (foldl_wholeDisk _ geo).2
  whole _ hi := foldl_wholeDisk_partition _ geo (.inl (List.mem_range.mpr hi))

theorem CacheSteps.geo {asked : ℕ → ℕ → Prop} {may : Sys n → Change n → Prop}
    (h : CacheSteps env asked may s s') : s'.geo = s.geo :=
  h.invariant (I := fun t => t.geo = s.geo) (fun hI hstep => hstep.geo.trans hI) rfl

theorem readPartitions_drives {geo : Geometry} {drive : ℕ} (h : Drives geo s.geo)
    (hrun : readPartitions drive env k s = .ok () s') : Drives geo s'.geo := by
  simp only [readPartitions, bind_eq_ok] at hrun
  obtain ⟨found, s₁, hread, hrun⟩ := hrun
  have hgeo : s₁.geo = s.geo := CacheSteps.geo
    (readBuff_steps trivial hread : CacheSteps env (fun _ _ => True) (fun _ _ => True) s s₁)
  cases found with
  | none => simp [panic] at hrun
  | some bh =>
      simp only [read_bind, ite_run] at hrun
      split at hrun
      · simp [panic] at hrun
      simp only [update_bind] at hrun
      have hput := CacheSteps.geo
        (putBuff_steps hrun : CacheSteps env (fun _ _ => True) (fun _ _ => True) _ s')
      obtain ⟨hinfo, hnr, hwhole⟩ := setPartitions_spec s₁.geo drive (s₁.buf bh).bData
      rw [hput]
      exact ⟨hinfo.trans (hgeo ▸ h.hdInfo), hnr.trans (hgeo ▸ h.nrHd), fun i hi =>
        (hwhole i).trans (hgeo ▸ h.whole i hi)⟩

/-- **`init_hd_info`** leaves the drives of the scan, each with a partition for the whole. -/
theorem initHdInfo_drives {r : ℤ}
    (h : initHdInfo true drivesAddr drivesLength env k s = .ok r s') :
    Drives (s.driveScan drivesAddr drivesLength).geo s'.geo := by
  simp only [initHdInfo, update_bind, if_true, read_bind, bind_eq_ok] at h
  obtain ⟨⟨⟩, s₁, hall, hret⟩ := h
  simp only [pure_run, Res.ok.injEq] at hret
  obtain ⟨-, rfl⟩ := hret
  exact forEach_ensures (I := fun _ t => Drives (s.driveScan drivesAddr drivesLength).geo t.geo)
    (fun _ _ _ _ hI hrun => readPartitions_drives hI hrun) _ _ _
    (wholeDisks_drives (s.driveScan drivesAddr drivesLength).geo) hall

/-! ## Parsing the table -/

/-- The bytes of the drive table that `init_blk` reads. -/
def MultibootInfo.driveReads (mbi : MultibootInfo) (s : Sys n) : List ℕ :=
  if mbi.hasDrives then (s.driveScan mbi.drivesAddr mbi.drivesLength).reads else []

theorem driveReads_ne_nil : mbi.driveReads s ≠ [] ↔ mbi.hasDrives = true := by
  have hne : (s.driveScan mbi.drivesAddr mbi.drivesLength).reads ≠ [] :=
    List.ne_nil_of_mem (scanDrives_reads (List.mem_cons_self ..))
  rw [MultibootInfo.driveReads]
  split
  · rename_i hflag
    exact ⟨fun _ => hflag, fun _ => hne⟩
  · rename_i hflag
    exact ⟨fun h => absurd rfl h, fun h => absurd h hflag⟩

/-- The table is read only if the flag says that it is there. -/
def MultibootInfo.Trusted (mbi : MultibootInfo) (s : Sys n) : Prop :=
  mbi.driveReads s ≠ [] → mbi.driveInfo = true

/-- **The drive table.**  Before any drive is known, the table is read without its flag
exactly if the flag for the memory map is set and that for the drives is not, and a well-formed
table is parsed exactly if it has one entry.  What `init_hd_info` records is what the loop over
the table finds. -/
theorem drive_table (hstart : s.geo.nrHd = 0) :
    (∀ mbi : MultibootInfo,
      mbi.Trusted s ↔ (mbi.flags.testBit 6 = true → mbi.flags.testBit 7 = true)) ∧
    (∀ drivesAddr drivesLength entries, DriveTable s.mem drivesAddr drivesLength entries →
      drivesAddr + drivesLength ≤ 4294967296 →
      (Parsed (s.driveScan drivesAddr drivesLength) drivesAddr drivesLength entries ↔
        entries.length = 1)) ∧
    ∀ (env : Env n) k r drivesAddr drivesLength s',
      initHdInfo true drivesAddr drivesLength env k s = .ok r s' →
      Drives (s.driveScan drivesAddr drivesLength).geo s'.geo := by
  refine ⟨fun mbi => ?_, fun _ _ _ htable hend => parsed_iff htable hend hstart,
    fun _ _ _ _ _ _ => initHdInfo_drives⟩
  rw [MultibootInfo.Trusted, driveReads_ne_nil]
  rfl

/-! ## One drive and two drives -/

/-- Entries of ten bytes, each for a drive of 100 cylinders, 2 heads and 8 sectors a track. -/
def tableMemory : ℕ → UInt8 := fun a => [10, 0, 0, 0, 0, 0, 100, 0, 2, 8].getD (a % 10) 0

/-- The boot loader left the entries at address 4000. -/
def withTable : Sys 1 := { (Sys.load fun _ _ _ => 0) with mem := tableMemory }

theorem oneDrive_table : DriveTable withTable.mem 4000 10 [⟨2, 8, 100⟩] :=
  @DriveTable.cons _ 4000 0 _ (by decide) .nil

theorem twoDrives_table : DriveTable withTable.mem 4000 20 [⟨2, 8, 100⟩, ⟨2, 8, 100⟩] :=
  @DriveTable.cons _ 4000 10 _ (by decide) <|
    @DriveTable.cons _ 4010 0 _ (by decide) .nil

/-- A machine with one drive. -/
theorem drive_table_one :
    Parsed (withTable.driveScan 4000 10) 4000 10 [⟨2, 8, 100⟩] ↔ [HdInfo.mk 2 8 100].length = 1 :=
  (drive_table (s := withTable) rfl).2.1 4000 10 _ oneDrive_table (by decide)

/-- The second drive of a table is missed, and a table is read that is not said to be there. -/
theorem second_drive_missed :
    DriveTable withTable.mem 4000 20 [⟨2, 8, 100⟩, ⟨2, 8, 100⟩] ∧
      ¬ Parsed (withTable.driveScan 4000 20) 4000 20 [⟨2, 8, 100⟩, ⟨2, 8, 100⟩] ∧
      ¬ MultibootInfo.Trusted ⟨0x40, 10, 4000⟩ withTable := by
  refine ⟨twoDrives_table, fun h => ?_, fun h => ?_⟩
  · have hone := (parsed_iff twoDrives_table (by decide) rfl).mp h
    exact absurd hone (by decide)
  · exact absurd (h (by decide)) (by decide)

end EgGS
