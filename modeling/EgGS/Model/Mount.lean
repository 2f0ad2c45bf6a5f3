import EgGS.Model.Zone

/-!
# Mounting (`fs/super.c`)

`read_super` takes an entry of `super_block_list` for a device, copies block 1 of the
device into it and reads the blocks of the two bitmaps behind it.  `put_super` gives all
of them back.

The arrays `s_imap` and `s_zmap` have eight slots each.  A store behind them is a fault
here; in the C structure it hits the fields that follow.
-/

namespace EgGS

open Lib

variable {n : ℕ}

/-- `ROOT_DEV` -/
abbrev rootDev : ℕ := 0x301

/-- `SUPER_MAGIC` -/
abbrev superMagic : ℕ := 0x138F

/-! ## The two bitmaps -/

/-- The bitmaps of a device. -/
inductive MapKind where
  | inodes
  | zones
  deriving DecidableEq, Repr

namespace SuperBlock

/-- `s_imap_blocks` or `s_zmap_blocks` -/
def blocks (p : SuperBlock n) : MapKind → ℕ
  | .inodes => p.sImapBlocks
  | .zones => p.sZmapBlocks

/-- `s_imap` or `s_zmap` -/
def map (p : SuperBlock n) : MapKind → Fin mapSlots → Option (Fin n)
  | .inodes => p.sImap
  | .zones => p.sZmap

/-- Assign a slot of `s_imap` or `s_zmap`. -/
def setMap (p : SuperBlock n) (kind : MapKind) (i : Fin mapSlots) (bh : Option (Fin n)) :
    SuperBlock n :=
  match kind with
  | .inodes => { p with sImap := Function.update p.sImap i bh }
  | .zones => { p with sZmap := Function.update p.sZmap i bh }

/-- All slots are `NULL`. -/
def clearMaps (p : SuperBlock n) : SuperBlock n :=
  { p with sImap := fun _ => none, sZmap := fun _ => none }

/-- `*((struct d_super_block *) s) = *((struct d_super_block *) bh->b_data)` -/
def load (p : SuperBlock n) (data : Block) : SuperBlock n :=
  { p with
    sNinodes := (data.word 0).toNat
    sNzones := (data.word 1).toNat
    sImapBlocks := (data.word 2).toNat
    sZmapBlocks := (data.word 3).toNat
    sFirstdatazone := (data.word 4).toNat
    sLogZoneSize := (data.word 5).toNat
    sMaxSize := (data.word 6).toNat + 65536 * (data.word 7).toNat
    sMagic := (data.word 8).toNat }

/-- The entry is taken for a device. -/
def claim (p : SuperBlock n) (dev : ℕ) : SuperBlock n :=
  { p with
    sDev := dev % 65536, sIsup := none, sImount := none, sTime := 0, sRdOnly := false
    sDirt := false }

end SuperBlock

/-- One round of the loop that reads the blocks of a bitmap: block `block` is read into slot
`i`. -/
def loadRound (sb : Fin nrSuper) (dev : ℕ) (kind : MapKind) (i block : ℕ) : P n (ℕ × ℕ ⊕ ℕ) := do
  let s ← Prog.read
  if i < (s.superBlock sb).blocks kind then do
    let bh ← readBuff dev block
    if h : i < mapSlots then do
      Prog.update (Sys.setSuper · sb fun p => p.setMap kind ⟨i, h⟩ bh)
      match bh with
      | some _ => pure (.inl (i + 1, block + 1))
      | none => pure (.inr block)
    else
      Prog.halt (.fault "bitmap slot out of range")
  else
    pure (.inr block)

/-- The loop that reads the blocks of a bitmap from block `block` on; the block behind the
last one that was read. -/
def loadMap (sb : Fin nrSuper) (dev : ℕ) (kind : MapKind) (block : ℕ) : P n ℕ :=
  Prog.iterate (fun x => loadRound sb dev kind x.1 x.2) (0, block)

/-- The loop that gives the buffers of a bitmap back. -/
def putMap (sb : Fin nrSuper) (kind : MapKind) : P n Unit :=
  Prog.forEach (List.finRange mapSlots) fun i => do
    let s ← Prog.read
    putBuff ((s.superBlock sb).map kind i)

/-- `s->s_imap[0]->b_data[0] |= 1`, or the same for `s_zmap`. -/
def markFirst (sb : Fin nrSuper) (kind : MapKind) : P n Unit := do
  let s ← Prog.read
  match (s.superBlock sb).map kind 0 with
  | none => Prog.halt (.fault "NULL bitmap slot")
  | some bh => Prog.update (Sys.setBuf · bh fun h => { h with bData := h.bData.setBit 0 })

/-! ## Reading a super block -/

/-- `s->s_dev = 0; unlock_super(s); return NULL;` -/
def abandonSuper (sb : Fin nrSuper) : P n (Option (Fin nrSuper)) := do
  Prog.update (Sys.setSuper · sb fun p => { p with sDev := 0 })
  unlockSuper sb
  pure none

/-- The end of `read_super`, once the counts of the bitmap blocks are known. -/
def loadMaps (sb : Fin nrSuper) (dev : ℕ) : P n (Option (Fin nrSuper)) := do
  Prog.update (Sys.setSuper · sb SuperBlock.clearMaps)
  let block ← loadMap sb dev .inodes 2
  let block ← loadMap sb dev .zones block
  let s ← Prog.read
  if block ≠ 2 + (s.superBlock sb).sImapBlocks + (s.superBlock sb).sZmapBlocks then do
    putMap sb .inodes
    putMap sb .zones
    abandonSuper sb
  else do
    markFirst sb .inodes
    markFirst sb .zones
    unlockSuper sb
    pure (some sb)

/-- `read_super` behind the read of block 1, which is in the buffer `bh`. -/
def parseSuper (sb : Fin nrSuper) (dev : ℕ) (bh : Fin n) : P n (Option (Fin nrSuper)) := do
  Prog.update fun s => s.setSuper sb fun p => p.load (s.buf bh).bData
  putBuff (some bh)
  let s ← Prog.read
  if (s.superBlock sb).sMagic ≠ superMagic then
    abandonSuper sb
  else
    loadMaps sb dev

/-- `read_super` from `lock_super` on. -/
def fillSuper (sb : Fin nrSuper) (dev : ℕ) : P n (Option (Fin nrSuper)) := do
  lockSuper sb
  match ← readBuff dev 1 with
  | none => abandonSuper sb
  | some bh => parseSuper sb dev bh

/-- `read_super` -/
def readSuper (dev : ℕ) : P n (Option (Fin nrSuper)) :=
  if dev = 0 then
    pure none
  else do
    match ← findSuper dev with
    | some sb => pure (some sb)
    | none => do
      let s ← Prog.read
      match (List.finRange nrSuper).find? fun p => (s.superBlock p).sDev = 0 with
      | none => pure none
      | some sb => do
        Prog.update (Sys.setSuper · sb fun p => p.claim dev)
        fillSuper sb dev

/-! ## Giving a super block back -/

/-- `put_super` from `lock_super` on. -/
def releaseSuper (sb : Fin nrSuper) : P n Unit := do
  lockSuper sb
  Prog.update (Sys.setSuper · sb fun p => { p with sDev := 0 })
  putMap sb .inodes
  putMap sb .zones
  unlockSuper sb

/-- `put_super` -/
def putSuper (dev : ℕ) : P n Unit :=
  if dev = rootDev then
    pure ()
  else do
    match ← findSuper dev with
    | none => pure ()
    | some sb => do
      let s ← Prog.read
      if (s.superBlock sb).sImount.isSome then
        pure ()
      else
        releaseSuper sb

end EgGS
