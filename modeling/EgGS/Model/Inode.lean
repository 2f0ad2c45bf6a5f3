import EgGS.Model.Zone

/-!
# Inodes (`fs/inode.c`)

The table of in-memory inodes, `inode_list`, is a cache of the inodes on disk:
an entry is found by device and number, counted, written back to its slot of the
inode table, and recycled round robin.  `locateByInode` and `truncate` work on
the zones of an inode: seven named directly, 512 through one index block and
512 * 512 through two.

As in `super.c`, the lock of an inode is set in the body of the loop that was to
wait for it, and so never.
-/

namespace EgGS

open Lib

variable {n : ℕ}

/-! ## Inodes on disk -/

/-- The short words of an inode on disk. -/
def DInode.short (d : DInode) : ℕ → ℕ
  | 0 => d.iMode.toNat
  | 1 => d.iUid.toNat
  | 2 => d.iSize.toNat % 65536
  | 3 => d.iSize.toNat / 65536
  | 4 => d.iTime.toNat % 65536
  | 5 => d.iTime.toNat / 65536
  | 6 => d.iGid.toNat + 256 * d.iNlinks.toNat
  | z + 7 => if h : z < 9 then (d.iZone ⟨z, h⟩).toNat else 0

/-- The inode in slot `slot` of a block of the inode table. -/
def Block.dInode (data : Block) (slot : ℕ) : DInode :=
  let short (i : ℕ) : ℕ := (data.word (16 * slot + i)).toNat
  { iMode := UInt16.ofNat (short 0)
    iUid := UInt16.ofNat (short 1)
    iSize := UInt32.ofNat (short 2 + 65536 * short 3)
    iTime := UInt32.ofNat (short 4 + 65536 * short 5)
    iGid := UInt8.ofNat (short 6)
    iNlinks := UInt8.ofNat (short 6 / 256)
    iZone := fun z => UInt16.ofNat (short (z + 7)) }

/-- Store an inode in slot `slot` of a block of the inode table. -/
def Block.setDInode (data : Block) (slot : ℕ) (d : DInode) : Block := fun i =>
  if i.val / 32 = slot then
    UInt8.ofNat (d.short (i.val % 32 / 2) / 256 ^ (i.val % 2))
  else data i

/-- `INODES_PER_BLOCK` -/
abbrev inodesPerBlock : ℕ := 32

/-- The block of the inode table with inode `num`. -/
def SuperBlock.inodeBlock (sb : SuperBlock n) (num : ℕ) : ℕ :=
  (2 + sb.sImapBlocks + sb.sZmapBlocks + unsigned (num - 1) / inodesPerBlock) % 4294967296

/-- The slot of inode `num` in its block. -/
def inodeSlot (num : ℕ) : ℕ := unsigned (num - 1) % inodesPerBlock

/-- `memset(inode,0,sizeof(*inode))` -/
def MInode.zero : MInode where
  iMode := 0
  iUid := 0
  iSize := 0
  iTime := 0
  iGid := 0
  iNlinks := 0
  iZone _ := 0
  iAtime := 0
  iCtime := 0
  iDev := 0
  iNum := 0
  iCount := 0
  iLock := false
  iDirt := false
  iPipe := false
  iMount := false
  iSeek := false
  iUpdate := false

/-! ## Locks -/

/-- `wait_on_inode` -/
def waitOnInode (i : Fin nrInode) : P n Unit := do
  cli
  Prog.iterate (fun _ => do
    let s ← Prog.read
    if (s.inode i).iLock then do
      sti
      poll
      pure (.inl ())
    else
      pure (.inr ())) ()

/-- `lock_inode`; the store to the lock is the body of the loop. -/
def lockInode (i : Fin nrInode) : P n Unit := do
  cli
  Prog.iterate (fun _ => do
    let s ← Prog.read
    if (s.inode i).iLock then do
      Prog.update (Sys.setInode · i fun x => { x with iLock := true })
      pure (.inl ())
    else
      pure (.inr ())) ()
  sti

/-- `unlock_inode` -/
def unlockInode (i : Fin nrInode) (s : Sys n) : Sys n :=
  s.setInode i fun x => { x with iLock := false }

/-! ## Between the table and the disk -/

/-- `read_inode_from_buff` -/
def readInodeFromBuff (i : Fin nrInode) : P n Unit := do
  lockInode i
  let s ← Prog.read
  match ← findSuper (s.inode i).iDev with
  | none => panic "trying to read inode without dev"
  | some sb => do
    let s ← Prog.read
    match ← readBuff (s.inode i).iDev ((s.superBlock sb).inodeBlock (s.inode i).iNum) with
    | none => panic "unable to read i-node block"
    | some bh => do
      Prog.update fun s => s.setInode i fun x =>
        { x with toDInode := (s.buf bh).bData.dInode (inodeSlot x.iNum) }
      putBuff (some bh)
      Prog.update (unlockInode i)

/-- The contents of the inode `i` go to its slot of the buffer `bh`, and the inode is
clean. -/
def Sys.copyInode (s : Sys n) (i : Fin nrInode) (bh : Fin n) : Sys n :=
  let x := s.inode i
  let s := store bh ((s.buf bh).bData.setDInode (inodeSlot x.iNum) x.toDInode) s
  let s := s.note (.copied x.iDev x.iNum x.toDInode (s.buf bh).bDev (s.buf bh).bBlocknr)
  s.setInode i fun x => { x with iDirt := false }

/-- `sync_inode_to_buff` -/
def syncInodeToBuff (i : Fin nrInode) : P n Unit := do
  lockInode i
  let s ← Prog.read
  if !(s.inode i).iDirt ∨ (s.inode i).iDev = 0 then
    Prog.update (unlockInode i)
  else do
    match ← findSuper (s.inode i).iDev with
    | none => panic "trying to write inode without device"
    | some sb => do
      let s ← Prog.read
      match ← readBuff (s.inode i).iDev ((s.superBlock sb).inodeBlock (s.inode i).iNum) with
      | none => panic "unable to read i-node block"
      | some bh => do
        Prog.update (Sys.copyInode · i bh)
        putBuff (some bh)
        Prog.update (unlockInode i)

/-- `sync_all_inodes_to_buff` -/
def syncAllInodesToBuff : P n Unit :=
  Prog.forEach (List.finRange nrInode) fun i => do
    waitOnInode i
    let s ← Prog.read
    if (s.inode i).iDirt ∧ !(s.inode i).iPipe then
      syncInodeToBuff i
    else
      pure ()

/-! ## Looking up -/

/-- `find_inode`, with the device and the number it leaves behind: a mounted-over
inode is replaced by the root of what is mounted there. -/
def findInode (dev nr : ℕ) : P n (Option (Fin nrInode) × ℕ × ℕ) :=
  if dev = 0 then
    panic "find inode with dev==0"
  else
    Prog.iterate (fun (i, dev, nr) => do
      let s ← Prog.read
      if h : i < nrInode then
        let inode := s.inode ⟨i, h⟩
        if inode.iDev ≠ dev ∨ inode.iNum ≠ nr then
          pure (.inl (i + 1, dev, nr))
        else if inode.iMount then
          match (List.finRange nrSuper).find? fun p =>
              (s.superBlock p).sImount = some ⟨i, h⟩ with
          | none => pure (.inr (some ⟨i, h⟩, dev, nr))
          | some p => pure (.inl (0, (s.superBlock p).sDev, 1))
        else
          pure (.inr (some ⟨i, h⟩, dev, nr))
      else
        pure (.inr (none, dev, nr))) (0, dev, nr)

/-- `inode->i_count++` -/
def Sys.inodeUp (s : Sys n) (i : Fin nrInode) : Sys n :=
  s.setInode i fun x => { x with iCount := (x.iCount + 1) % 65536 }

/-- `inode->i_count--` -/
def Sys.inodeDown (s : Sys n) (i : Fin nrInode) : Sys n :=
  s.setInode i fun x => { x with iCount := (x.iCount + 65535) % 65536 }

/-- `retain_inode`, with the device and the number it leaves behind. -/
def retainInode (dev nr : ℕ) : P n (Option (Fin nrInode) × ℕ × ℕ) :=
  if dev = 0 then
    panic "retain inode with dev==0"
  else
    Prog.iterate (fun (dev, nr) => do
      match ← findInode dev nr with
      | (none, dev, nr) => pure (.inr (none, dev, nr))
      | (some i, dev, nr) => do
        waitOnInode i
        let s ← Prog.read
        if (s.inode i).iDev ≠ dev ∨ (s.inode i).iNum ≠ nr then
          pure (.inl (dev, nr))
        else do
          Prog.update (Sys.inodeUp · i)
          pure (.inr (some i, dev, nr))) (dev, nr)

/-! ## Recycling -/

/-- `BADNESS` of `inode.c` -/
def inodeBadness (x : MInode) : ℕ := x.iDirt.toNat * 2 + x.iLock.toNat

/-- The round robin of `new_inode`: the unreferenced entry it settles on. -/
def pickInode : P n (Option (Fin nrInode)) :=
  Prog.iterate (fun (i, best) => do
    if i < nrInode then do
      Prog.update fun s => { s with lastInode := s.lastInode + 1 }
      let s ← Prog.read
      let last := s.inode s.lastInode
      if last.iCount = 0 ∧ best.all fun b => inodeBadness last < inodeBadness (s.inode b) then
        if inodeBadness last = 0 then
          pure (.inr (some s.lastInode))
        else
          pure (.inl (i + 1, some s.lastInode))
      else
        pure (.inl (i + 1, best))
    else
      pure (.inr best)) (0, none)

/-- The loop of `new_inode` that writes a dirty entry back; `false` if the entry is in
use again. -/
def cleanInode (i : Fin nrInode) : P n Bool :=
  Prog.iterate (fun _ => do
    let s ← Prog.read
    if (s.inode i).iDirt then do
      waitOnInode i
      syncInodeToBuff i
      let s ← Prog.read
      if (s.inode i).iCount ≠ 0 then
        pure (.inr false)
      else
        pure (.inl ())
    else
      pure (.inr true)) ()

/-- The entry `i` is given to an inode, with one reference. -/
def Sys.claimInode (s : Sys n) (i : Fin nrInode) (dev nr : ℕ) : Sys n :=
  s.setInode i fun _ =>
    { MInode.zero with iCount := 1, iDev := dev % 65536, iNum := nr % 65536 }

/-- `new_inode` -/
def newInode (dev nr : ℕ) : P n (Option (Fin nrInode)) := do
  match ← pickInode with
  | none => panic "No free inodes in mem"
  | some i => do
    if ← cleanInode i then
      match ← findInode dev nr with
      | (some _, _, _) => pure none
      | (none, dev, nr) => do
        Prog.update (Sys.claimInode · i dev nr)
        pure (some i)
    else
      pure none

/-- `get_inode` -/
def getInode (dev nr : ℕ) : P n (Fin nrInode) :=
  Prog.iterate (fun (dev, nr) => do
    match ← retainInode dev nr with
    | (some i, _, _) => pure (.inr i)
    | (none, dev, nr) => do
      match ← newInode dev nr with
      | some i => pure (.inr i)
      | none => pure (.inl (dev, nr))) (dev, nr)

/-! ## Zones of an inode -/

/-- `S_ISREG(m) || S_ISDIR(m)` -/
def hasZones (mode : UInt16) : Bool := mode &&& 0xF000 == 0x8000 || mode &&& 0xF000 == 0x4000

/-- `truncate` -/
def truncate (i : Fin nrInode) : P n Unit := do
  let s ← Prog.read
  if !hasZones (s.inode i).iMode then
    pure ()
  else do
    Prog.forEach [0, 1, 2, 3, 4, 5, 6] fun z => do
      let s ← Prog.read
      if (s.inode i).iZone z = 0 then
        pure ()
      else do
        deleteBlock (s.inode i).iDev ((s.inode i).iZone z).toNat
        Prog.update (Sys.setInode · i fun x => { x with iZone := Function.update x.iZone z 0 })
    let s ← Prog.read
    deleteIndirecteBlock (s.inode i).iDev ((s.inode i).iZone 7).toNat
    let s ← Prog.read
    deleteDoubleIndirecteBlock (s.inode i).iDev ((s.inode i).iZone 8).toNat
    Prog.update (Sys.setInode · i fun x =>
      { x with
        iZone := Function.update (Function.update x.iZone 8 0) 7 0
        iSize := 0
        iDirt := true })

/-- A zone for `i_zone[z]`, if one is to be created and there is none. -/
def createZone (i : Fin nrInode) (z : Fin 9) (create : Bool) : P n Unit := do
  let s ← Prog.read
  if create ∧ (s.inode i).iZone z = 0 then do
    let zone ← createBlock (s.inode i).iDev
    Prog.update (Sys.setInode · i fun x =>
      { x with iZone := Function.update x.iZone z (UInt16.ofNat zone) })
    if UInt16.ofNat zone ≠ 0 then
      Prog.update (Sys.setInode · i fun x => { x with iDirt := true })
    else
      pure ()
  else
    pure ()

/-- The zone that word `w` of the index block in the buffer `bh` names, created if one
is to be and there is none.  The buffer is given back. -/
def indexedZone (i : Fin nrInode) (bh : Fin n) (w : ℕ) (create : Bool) : P n ℕ := do
  let s ← Prog.read
  let zone := ((s.buf bh).bData.word w).toNat
  if create ∧ zone = 0 then do
    let zone ← createBlock (s.inode i).iDev
    if zone ≠ 0 then
      Prog.update fun s => store bh ((s.buf bh).bData.setWord w (UInt16.ofNat zone)) s
    else
      pure ()
    putBuff (some bh)
    pure zone
  else do
    putBuff (some bh)
    pure zone

/-- `locate_by_inode` -/
def locateByInode (i : Fin nrInode) (block : ℤ) (create : Bool) : P n ℕ := do
  if block < 0 then
    panic "locate_in_inode: block<0"
  else if block ≥ 7 + 512 + 512 * 512 then
    panic "locate_in_inode: block>big"
  else if h : block.toNat < 7 then do
    let z : Fin 9 := ⟨block.toNat, by omega⟩
    createZone i z create
    let s ← Prog.read
    pure ((s.inode i).iZone z).toNat
  else if block.toNat - 7 < 512 then do
    createZone i 7 create
    let s ← Prog.read
    if (s.inode i).iZone 7 = 0 then
      pure 0
    else do
      match ← readBuff (s.inode i).iDev ((s.inode i).iZone 7).toNat with
      | none => pure 0
      | some bh => indexedZone i bh (block.toNat - 7) create
  else do
    let block := block.toNat - 7 - 512
    createZone i 8 create
    let s ← Prog.read
    if (s.inode i).iZone 8 = 0 then
      pure 0
    else do
      match ← readBuff (s.inode i).iDev ((s.inode i).iZone 8).toNat with
      | none => pure 0
      | some bh => do
        let zone ← indexedZone i bh (block / 512) create
        if zone = 0 then
          pure 0
        else do
          let s ← Prog.read
          match ← readBuff (s.inode i).iDev zone with
          | none => pure 0
          | some bh => indexedZone i bh (block % 512) create

/-! ## The interface -/

/-- `delete_inode` -/
def deleteInode (i : Option (Fin nrInode)) : P n Unit :=
  match i with
  | none => pure ()
  | some i => do
    let s ← Prog.read
    if (s.inode i).iDev = 0 then
      Prog.update (Sys.setInode · i fun _ => MInode.zero)
    else if (s.inode i).iCount > 1 then
      panic "free_inode"
    else if (s.inode i).iNlinks ≠ 0 then
      panic "trying to free inode with links"
    else do
      freeInodeBitmap (s.inode i).iDev (s.inode i).iNum
      Prog.update (Sys.setInode · i fun _ => MInode.zero)

/-- `put_inode` -/
def putInode (i : Option (Fin nrInode)) : P n Unit :=
  match i with
  | none => pure ()
  | some i => do
    waitOnInode i
    let s ← Prog.read
    if (s.inode i).iCount = 0 then
      panic "iput: trying to free free inode"
    else
      Prog.iterate (fun _ => do
        let s ← Prog.read
        if (s.inode i).iCount = 1 ∧ (s.inode i).iNlinks = 0 then do
          truncate i
          deleteInode (some i)
          pure (.inr ())
        else if (s.inode i).iCount = 1 ∧ (s.inode i).iDirt then do
          syncInodeToBuff i
          waitOnInode i
          pure (.inl ())
        else do
          Prog.update (Sys.inodeDown · i)
          pure (.inr ())) ()

/-- `read_inode` -/
def readInode (dev nr : ℤ) : P n (Fin nrInode) := do
  let i ← getInode (unsigned dev) (unsigned nr)
  let s ← Prog.read
  if (s.inode i).iNlinks = 0 then do
    readInodeFromBuff i
    pure i
  else
    pure i

/-- `create_inode` -/
def createInode (dev : ℕ) : P n (Option (Fin nrInode)) := do
  let iNum ← addInodeBitmap dev
  if iNum = 0 then
    pure none
  else do
    match ← newInode dev iNum with
    | none => pure none
    | some i => do
      Prog.update (Sys.setInode · i fun x => { x with iNlinks := 1, iDirt := true })
      pure (some i)

end EgGS
