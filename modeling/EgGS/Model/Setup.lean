import EgGS.Model.Mount
import EgGS.Model.Path

/-!
# Setting up (`init_hd_info` in `blk/hd.c`, `init_blk` in `blk/blk_main.c`, `fs/sys_fs.c`)

`init_hd_info` reads the geometry of the drives from a table that the boot loader left in
memory, and the partitions from the first sector of each drive.  `sys_setup` calls it, mounts
the root device and counts what is free there.

The table lies in `Sys.mem`.  Its addresses are 32-bit words and wrap.
-/

namespace EgGS

open Lib

variable {n : ℕ}

/-- `MAX_HD` -/
abbrev maxHd : ℕ := 2

/-! ## The drive table -/

/-- The fields of `multiboot_info_t` that are read. -/
structure MultibootInfo where
  flags : ℕ
  drivesLength : ℕ
  drivesAddr : ℕ

/-- The byte `off` bytes behind the address `addr`. -/
def byteAt (mem : ℕ → UInt8) (addr off : ℕ) : ℕ := (mem ((addr + off) % 4294967296)).toNat

/-- The `unsigned int` at the address `addr`. -/
def intAt (mem : ℕ → UInt8) (addr : ℕ) : ℕ :=
  byteAt mem addr 0 + 256 * byteAt mem addr 1 + 65536 * byteAt mem addr 2 +
    16777216 * byteAt mem addr 3

/-- The geometry in the entry at the address `addr`. -/
def driveAt (mem : ℕ → UInt8) (addr : ℕ) : HdInfo where
  cyl := byteAt mem addr 6 + 256 * byteAt mem addr 7
  head := byteAt mem addr 8
  sect := byteAt mem addr 9

/-- The addresses of the bytes of an entry that are read, in this order. -/
def entryReads (addr : ℕ) : List ℕ :=
  [6, 7, 8, 9, 0, 1, 2, 3].map fun off => (addr + off) % 4294967296

/-- What the loop over the drive table leaves: the geometry, and the addresses it read. -/
structure DriveScan where
  geo : Geometry
  reads : List ℕ

/-- `hd_info[drive] = info` and `NR_HD++` -/
def Geometry.addDrive (geo : Geometry) (drive : ℕ) (info : HdInfo) : Geometry :=
  { geo with hdInfo := Function.update geo.hdInfo drive info, nrHd := geo.nrHd + 1 }

/-- The loop of `init_hd_info` over the drive table: `left` rounds are left, and `size` is the
size of the entries in front of the one at `addr`. -/
def scanDrives (mem : ℕ → UInt8) (drivesLength : ℕ) :
    (left drive addr size : ℕ) → Geometry → DriveScan
  | 0, _, _, _, geo => ⟨geo, []⟩
  | left + 1, drive, addr, size, geo =>
      let geo := geo.addDrive drive (driveAt mem addr)
      let size := (size + intAt mem addr) % 4294967296
      if size > drivesLength then
        let scan := scanDrives mem drivesLength left (drive + 1)
          ((addr + intAt mem addr) % 4294967296) size geo
        { scan with reads := entryReads addr ++ scan.reads }
      else
        ⟨geo, entryReads addr⟩

/-- The loop over the drive table, from its first round on. -/
def Sys.driveScan (s : Sys n) (drivesAddr drivesLength : ℕ) : DriveScan :=
  scanDrives s.mem drivesLength maxHd 0 drivesAddr 0 s.geo

/-! ## Partitions -/

/-- Partition `5 * i` is all of drive `i`. -/
def Geometry.wholeDisk (geo : Geometry) (i : ℕ) : Geometry :=
  let info := geo.hdInfo i
  { geo with
    partitionInfo := Function.update geo.partitionInfo (i * 5)
      ⟨0, info.head * info.sect * info.cyl % 4294967296⟩ }

/-- The second loop of `init_hd_info`. -/
def Geometry.wholeDisks (geo : Geometry) : Geometry :=
  (List.range geo.nrHd).foldl Geometry.wholeDisk geo

/-- The `unsigned int` at offset `off` of a block. -/
def Block.int (data : Block) (off : ℕ) : ℕ :=
  intAt (fun i => if h : i < 1024 then data ⟨i, h⟩ else 0) off

/-- Partition `i` of a drive is taken from its boot sector `data`. -/
def Geometry.setPartition (drive : ℕ) (data : Block) (geo : Geometry) (i : ℕ) : Geometry :=
  let p := 0x1BE + 16 * (i - 1)
  { geo with
    partitionInfo := Function.update geo.partitionInfo (i + 5 * drive)
      ⟨data.int (p + 8), data.int (p + 12)⟩ }

/-- The partitions of a drive. -/
def Geometry.setPartitions (geo : Geometry) (drive : ℕ) (data : Block) : Geometry :=
  [1, 2, 3, 4].foldl (Geometry.setPartition drive data) geo

/-- A round of the last loop of `init_hd_info`. -/
def readPartitions (drive : ℕ) : P n Unit := do
  match ← readBuff (0x300 + drive * 5) 0 with
  | none => panic ""
  | some bh => do
    let s ← Prog.read
    let data := (s.buf bh).bData
    if data 510 ≠ 0x55 ∨ data 511 ≠ 0xAA then
      panic ""
    else do
      Prog.update fun s => { s with geo := s.geo.setPartitions drive data }
      putBuff (some bh)

/-- `enable_hd` -/
def enableHd (s : Sys n) : Sys n := { s with hdEnabled := true }

/-- `init_hd_info`; `callable` is its static variable. -/
def initHdInfo (callable : Bool) (drivesAddr drivesLength : ℕ) : P n ℤ := do
  Prog.update enableHd
  if callable then do
    Prog.update fun s => { s with geo := (s.driveScan drivesAddr drivesLength).geo }
    Prog.update fun s => { s with geo := s.geo.wholeDisks }
    let s ← Prog.read
    Prog.forEach (List.range s.geo.nrHd) readPartitions
    pure 0
  else
    pure (-1)

/-- The test of `init_blk` for a drive table. -/
def MultibootInfo.hasDrives (mbi : MultibootInfo) : Bool := mbi.flags.testBit 6

/-- `init_blk` -/
def initBlk [NeZero n] (mbi : MultibootInfo) : P n Unit := do
  Prog.update initBuff
  Prog.update initRequestQueue
  if mbi.hasDrives then do
    let _ ← initHdInfo true mbi.drivesAddr mbi.drivesLength
    pure ()
  else
    pure ()

/-! ## The root device -/

/-- `test_bit` on bit `i` of a bitmap: a slot that is `NULL` is a fault. -/
def testMap (map : Fin mapSlots → Option (Fin n)) (i : ℕ) : P n Bool := do
  if h : i / 8192 < mapSlots then
    match map ⟨i / 8192, h⟩ with
    | none => Prog.halt (.fault "NULL bitmap slot")
    | some bh => do
      let s ← Prog.read
      pure ((s.buf bh).bData.bit (i % 8192))
  else
    Prog.halt (.fault "bitmap slot out of range")

/-- `while (-- i >= 0) if (!test_bit(..)) free++;` -/
def countFree (map : Fin mapSlots → Option (Fin n)) : (i free : ℕ) → P n ℕ
  | 0, free => pure free
  | i + 1, free => do
      let set ← testMap map i
      countFree map i (if set then free else free + 1)

/-- The counting loop of `sys_setup` for blocks. -/
def countFreeBlocks (sb : Fin nrSuper) : P n ℕ := do
  let s ← Prog.read
  countFree (s.superBlock sb).sZmap (s.superBlock sb).sNzones 0

/-- The counting loop of `sys_setup` for inodes. -/
def countFreeInodes (sb : Fin nrSuper) : P n ℕ := do
  let s ← Prog.read
  countFree (s.superBlock sb).sImap ((s.superBlock sb).sNinodes + 1) 0

/-- `sys_setup`, with the numbers of free blocks and of free inodes that it prints. -/
def sysSetup [NeZero n] (mbi : MultibootInfo) : P n (ℕ × ℕ) := do
  initBlk mbi
  Prog.update fun s =>
    { s with superBlock := fun p => { s.superBlock p with sDev := 0, sLock := false } }
  match ← readSuper rootDev with
  | none => panic "Unable to mount root"
  | some p => do
    let mi ← readInode rootDev rootIno
    Prog.update (Sys.setInode · mi fun x => { x with iCount := (x.iCount + 3) % 65536 })
    Prog.update (Sys.setSuper · p fun sb => { sb with sIsup := some mi, sImount := some mi })
    let blocks ← countFreeBlocks p
    let inodes ← countFreeInodes p
    pure (blocks, inodes)

end EgGS
