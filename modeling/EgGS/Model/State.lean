import EgGS.Lib.Prog
import Mathlib.Algebra.Order.Ring.Int
import Mathlib.Algebra.Order.Ring.Nat
import Mathlib.Data.Fintype.Basic
import Mathlib.Logic.Function.Basic
import Mathlib.Tactic.Simps.Basic

/-!
# The state of the kernel

The data model of the block layer (`blk/`) and the file system (`fs/`): the C
structures, the global variables and the hardware behind them, as one record
`Sys n` for a kernel with `n = NR_BUFFERS` buffer headers.

* Pointers into a fixed array (`struct buffer_head *`, `struct request *`,
  `struct m_inode *`) are indices, `Option` where the code stores or tests
  `NULL`.  `b_data` never changes after `init_buff`, so a header holds its 1024
  bytes itself, and a pointer into them is a `BufPtr`.
* Flags that only ever hold 0 or 1 are `Bool`.  Counters are natural numbers
  that wrap explicitly at the width of their C type.
* `BufferLinks` collects the header fields that only `buffer.c` writes.  The
  other fields are also written by the request layer and by the disk interrupt.
* The hard-disk controller is modelled at the level of sectors: a command
  transfers sector `lba + k` at its `k`-th data phase.
* `log` is a history of what happened, newest first.  No function reads it.

What the hardware does is left open: an `Env` decides, from the whole state,
which interrupts arrive and with which status, whether DRQ comes up and whether
the controller is ready.  They arrive at the points at which the programs call
`poll`.  There is none in `do_hd_request`, although the call that `add_request`
makes has interrupts enabled; `Block/Micro` takes that call apart and lets them
arrive in it too.
-/

namespace EgGS

open Lib

/-! ## Numbers and blocks -/

/-- The contents of a block (`BLOCK_SIZE` bytes). -/
abbrev Block := Fin 1024 → UInt8

/-- The contents of a disk sector. -/
abbrev Sector := Fin 512 → UInt8

/-- The block of 1024 zero bytes (`clear_block`). -/
def zeroBlock : Block := fun _ => 0

/-- `MAJOR` -/
def major (dev : ℕ) : ℕ := dev / 256

/-- `MINOR` -/
def minor (dev : ℕ) : ℕ := dev % 256

/-- The conversion of an `int` to `unsigned`. -/
def unsigned (i : ℤ) : ℕ := (i % 4294967296).toNat

/-- `NR_BLK_DEV` -/
abbrev nrBlkDev : ℕ := 7

/-- `NR_REQUEST` -/
abbrev nrRequest : ℕ := 32

/-- `NR_HASH` -/
abbrev nrHash : ℕ := 307

/-- `NR_INODE` -/
abbrev nrInode : ℕ := 32

/-- `NR_SUPER` -/
abbrev nrSuper : ℕ := 8

/-- `I_MAP_SLOTS` and `Z_MAP_SLOTS` -/
abbrev mapSlots : ℕ := 8

/-- `MAX_ERRORS` of `hd.c` -/
abbrev maxErrors : ℕ := 7

/-! The arrays are not empty: one instance for each of their sizes. -/

instance neZero_one : NeZero 1 := ⟨by decide⟩

instance neZero_two : NeZero 2 := ⟨by decide⟩

instance neZero_three : NeZero 3 := ⟨by decide⟩

instance neZero_mapSlots : NeZero mapSlots := ⟨by decide⟩

instance neZero_zones : NeZero 9 := ⟨by decide⟩

instance neZero_nrRequest : NeZero nrRequest := ⟨by decide⟩

instance neZero_nrHash : NeZero nrHash := ⟨by decide⟩

instance neZero_sector : NeZero 512 := ⟨by decide⟩

instance neZero_block : NeZero 1024 := ⟨by decide⟩

/-! ## Buffers and requests -/

/-- The header fields that only the buffer cache writes. -/
structure BufferLinks (n : ℕ) where
  bBlocknr : ℕ
  bDev : ℕ
  bCount : ℕ
  bPrev : Option (Fin n)
  bNext : Option (Fin n)
  bPrevFree : Option (Fin n)
  bNextFree : Option (Fin n)

/-- `struct buffer_head` -/
structure BufferHead (n : ℕ) extends BufferLinks n where
  bData : Block
  bUptodate : Bool
  bDirt : Bool
  bLock : Bool

/-- A pointer into the data of the header `bh`, `off` bytes behind `b_data`. -/
structure BufPtr (n : ℕ) where
  bh : Fin n
  off : ℕ
  deriving DecidableEq

/-- The values of `rw`: `READ`, `WRITE`, `READA` and `WRITEA`. -/
inductive Rw where
  | read
  | write
  | readA
  | writeA
  deriving DecidableEq, Repr

/-- The number that stands for `rw` in the C code. -/
def Rw.code : Rw → ℕ
  | .read => 0
  | .write => 1
  | .readA => 2
  | .writeA => 3

/-- `struct request` -/
structure Request (n : ℕ) where
  dev : ℤ
  cmd : Rw
  errors : ℕ
  sector : ℕ
  nrSectors : ℕ
  buffer : Option (BufPtr n)
  bh : Option (Fin n)
  next : Option (Fin nrRequest)

/-! ## The hard disk -/

/-- The function installed for interrupt 14 (`irq_routines[14]`). -/
inductive Handler where
  | none
  | readIntr
  | writeIntr
  | recalIntr
  deriving DecidableEq, Repr

/-- `struct hd_i_struct` -/
structure HdInfo where
  head : ℕ
  sect : ℕ
  cyl : ℕ

/-- `struct partition_i_struct` -/
structure PartitionInfo where
  startSect : ℕ
  nrSects : ℕ

/-- What `init_hd_info` found out: `hd_info`, `NR_HD` and `partition_info`. -/
structure Geometry where
  hdInfo : ℕ → HdInfo
  nrHd : ℕ
  partitionInfo : ℕ → PartitionInfo

/-- The commands `hd.c` sends to the controller. -/
inductive Win where
  | restore
  | read
  | write
  | specify
  deriving DecidableEq, Repr

/-- The arguments of `hd_out`, and the address `lba` of the first sector, which
`sec`, `head` and `cyl` denote for `WIN_READ` and `WIN_WRITE`.  The ports have two bytes for
`cyl` and nothing for `lba`. -/
structure Command where
  drive : ℕ
  nsect : ℕ
  sec : ℕ
  head : ℕ
  cyl : ℕ
  cmd : Win
  lba : ℕ

/-- The controller: the command it was given last, the number of data phases
that command has had, and whether it still owes an interrupt. -/
structure Controller where
  command : Command
  phase : ℕ
  outstanding : Bool

/-- The contents of the disks, by drive and sector address. -/
abbrev Disk := ℕ → ℕ → Sector

/-! ## Inodes and super blocks -/

/-- `struct d_inode`; as in memory, `i_time` is also `i_mtime`. -/
structure DInode where
  iMode : UInt16
  iUid : UInt16
  iSize : UInt32
  iTime : UInt32
  iGid : UInt8
  iNlinks : UInt8
  iZone : Fin 9 → UInt16

/-- `struct m_inode`: the disk inode and the fields that are in memory only. -/
structure MInode extends DInode where
  iAtime : UInt32
  iCtime : UInt32
  iDev : ℕ
  iNum : ℕ
  iCount : ℕ
  iLock : Bool
  iDirt : Bool
  iPipe : Bool
  iMount : Bool
  iSeek : Bool
  iUpdate : Bool

/-- `struct super_block` -/
structure SuperBlock (n : ℕ) where
  sNinodes : ℕ
  sNzones : ℕ
  sImapBlocks : ℕ
  sZmapBlocks : ℕ
  sFirstdatazone : ℕ
  sLogZoneSize : ℕ
  sMaxSize : ℕ
  sMagic : ℕ
  sImap : Fin mapSlots → Option (Fin n)
  sZmap : Fin mapSlots → Option (Fin n)
  sDev : ℕ
  sIsup : Option (Fin nrInode)
  sImount : Option (Fin nrInode)
  sTime : ℕ
  sLock : Bool
  sRdOnly : Bool
  sDirt : Bool

/-! ## The whole state -/

/-- What happened, for statements about histories. -/
inductive Event (n : ℕ) where
  /-- a field of `CURRENT_REQUEST` was read or written while it was `NULL` -/
  | nullAccess
  /-- a holder changed the contents of `bh` and set `b_dirt` -/
  | stored (bh : Fin n)
  /-- `invalidate_buff` threw the contents of `bh` away -/
  | invalidated (bh : Fin n)
  /-- `new_buff` took the header `bh` away from its block -/
  | recycled (bh : Fin n)
  /-- `add_request` queued a request for `bh` -/
  | queued (bh : Fin n) (cmd : Rw)
  /-- `end_request` ended a request for `bh`; `data` and `disk` are the contents
  of the buffer and of the two sectors of its block at that moment -/
  | ended (bh : Fin n) (cmd : Rw) (uptodate : Bool) (data disk : Block)
  /-- `hd_out` sent a command -/
  | command (c : Command)
  /-- 512 bytes went between the memory at `ptr` and the controller -/
  | dataPhase (ptr : BufPtr n)
  /-- the disk part of an in-memory inode was copied to its slot of the buffer of
  block `block` of device `bdev` -/
  | copied (dev num : ℕ) (contents : DInode) (bdev block : ℕ)

/-- The state of the kernel and of the hardware it drives. -/
structure Sys (n : ℕ) where
  buf : Fin n → BufferHead n
  hashTable : Fin nrHash → Option (Fin n)
  freeList : Fin n
  request : Fin nrRequest → Request n
  /-- `blk_dev[3].current_request` -/
  current : Option (Fin nrRequest)
  /-- `blk_dev[3].request_fn` is set; `enable_hd` is the only function that sets
  a `request_fn` -/
  hdEnabled : Bool
  reset : Bool
  recalibrate : Bool
  geo : Geometry
  handler : Handler
  ctl : Controller
  disk : Disk
  superBlock : Fin nrSuper → SuperBlock n
  inode : Fin nrInode → MInode
  lastInode : Fin nrInode
  /-- the caller's memory, outside all kernel objects -/
  mem : ℕ → UInt8
  /-- interrupts are enabled -/
  intr : Bool
  clock : ℕ
  log : List (Event n)

/-- An interrupt of the hard disk: the status byte the handler reads. -/
structure Irq where
  status : UInt8

/-- The behaviour of the hardware, as a function of the state: the interrupt
that arrives next, if any; how many may arrive before the code goes on; whether
DRQ comes up within the 3000 polls of `do_hd_request`; whether
`controller_ready` succeeds; and the word found where `errors` of a `NULL`
request would be. -/
structure Env (n : ℕ) where
  irq : Sys n → Option Irq
  burst : Sys n → ℕ
  drq : Sys n → Bool
  ready : Sys n → Bool
  nullErrors : Sys n → ℕ

/-- The kernel's functions. -/
abbrev P (n : ℕ) (α : Type) : Type := Prog (Env n) (Sys n) α

/-- `panic` -/
def panic {n : ℕ} {α : Type} (message : String) : P n α := Prog.halt (.panic message)

/-! ## Before the first instruction -/

/-- The kernel as it is loaded: static variables have their initial values and
everything else is zero. -/
def Sys.load {n : ℕ} [NeZero n] (disk : Disk) : Sys n where
  buf _ :=
    { bBlocknr := 0, bDev := 0, bCount := 0, bPrev := none, bNext := none, bPrevFree := none
      bNextFree := none, bData := zeroBlock, bUptodate := false, bDirt := false, bLock := false }
  hashTable _ := none
  freeList := 0
  request _ :=
    { dev := 0, cmd := .read, errors := 0, sector := 0, nrSectors := 0, buffer := none
      bh := none, next := none }
  current := none
  hdEnabled := false
  reset := true
  recalibrate := true
  geo := { hdInfo := fun _ => ⟨0, 0, 0⟩, nrHd := 0, partitionInfo := fun _ => ⟨0, 0⟩ }
  handler := .none
  ctl := { command := ⟨0, 0, 0, 0, 0, .restore, 0⟩, phase := 0, outstanding := false }
  disk
  superBlock _ :=
    { sNinodes := 0, sNzones := 0, sImapBlocks := 0, sZmapBlocks := 0, sFirstdatazone := 0
      sLogZoneSize := 0, sMaxSize := 0, sMagic := 0, sImap := fun _ => none
      sZmap := fun _ => none, sDev := 0, sIsup := none, sImount := none, sTime := 0
      sLock := false, sRdOnly := false, sDirt := false }
  inode _ :=
    { iMode := 0, iUid := 0, iSize := 0, iTime := 0, iGid := 0, iNlinks := 0
      iZone := fun _ => 0, iAtime := 0, iCtime := 0, iDev := 0, iNum := 0, iCount := 0
      iLock := false, iDirt := false, iPipe := false, iMount := false, iSeek := false
      iUpdate := false }
  lastInode := 0
  mem _ := 0
  intr := true
  clock := 0
  log := []

/-! ## Elementary updates -/

namespace Sys

variable {n : ℕ}

/-- Assign fields of the header `b`. -/
@[simps] def setBuf (s : Sys n) (b : Fin n) (f : BufferHead n → BufferHead n) : Sys n :=
  { s with buf := Function.update s.buf b (f (s.buf b)) }

/-- Assign fields of the request slot `r`. -/
@[simps] def setRequest (s : Sys n) (r : Fin nrRequest) (f : Request n → Request n) : Sys n :=
  { s with request := Function.update s.request r (f (s.request r)) }

/-- Assign fields of the in-memory inode `i`. -/
@[simps] def setInode (s : Sys n) (i : Fin nrInode) (f : MInode → MInode) : Sys n :=
  { s with inode := Function.update s.inode i (f (s.inode i)) }

/-- Assign fields of the super block `p`. -/
@[simps] def setSuper (s : Sys n) (p : Fin nrSuper) (f : SuperBlock n → SuperBlock n) : Sys n :=
  { s with superBlock := Function.update s.superBlock p (f (s.superBlock p)) }

/-- Record an event. -/
@[simps] def note (s : Sys n) (e : Event n) : Sys n := { s with log := e :: s.log }

/-- Time passes. -/
@[simps] def tick (s : Sys n) : Sys n := { s with clock := s.clock + 1 }

/-- Enable or disable interrupts. -/
@[simps] def setIntr (s : Sys n) (on : Bool) : Sys n := { s with intr := on }

/-- The fields of the header `b` that only the buffer cache writes. -/
def links (s : Sys n) (b : Fin n) : BufferLinks n := (s.buf b).toBufferLinks

/-- The header `b` belongs to block `block` of device `dev`. -/
def Keyed (s : Sys n) (b : Fin n) (dev block : ℕ) : Prop :=
  (s.buf b).bDev = dev ∧ (s.buf b).bBlocknr = block

end Sys

/-- `cli` -/
def cli {n : ℕ} : P n Unit := Prog.update (Sys.setIntr · false)

/-- `sti` -/
def sti {n : ℕ} : P n Unit := Prog.update (Sys.setIntr · true)

end EgGS
