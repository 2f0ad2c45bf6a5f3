import EgGS.Model.Buffer

/-!
# Super blocks and bitmaps (`fs/super.c`)

A mounted device has an entry in `super_block_list`, which holds the buffers of
the inode bitmap and of the zone bitmap.  A bit is set for what is in use.

The loop of `lock_super` sets the lock in the body of the loop that was to wait
for it, so the lock is never taken.
-/

namespace EgGS

open Lib

variable {n : ℕ}

/-! ## Bits and words of a block -/

/-- Bit `nr` of the bit string of a block. -/
def Block.bit (data : Block) (nr : ℕ) : Bool :=
  (data ⟨nr / 8 % 1024, Nat.mod_lt _ (by decide)⟩).toNat.testBit (nr % 8)

/-- `set_bit` -/
def Block.setBit (data : Block) (nr : ℕ) : Block :=
  let i : Fin 1024 := ⟨nr / 8 % 1024, Nat.mod_lt _ (by decide)⟩
  Function.update data i (data i ||| UInt8.ofNat (2 ^ (nr % 8)))

/-- `clear_bit` -/
def Block.clearBit (data : Block) (nr : ℕ) : Block :=
  let i : Fin 1024 := ⟨nr / 8 % 1024, Nat.mod_lt _ (by decide)⟩
  Function.update data i (data i &&& ~~~ UInt8.ofNat (2 ^ (nr % 8)))

/-- `find_first_zero`: the first of the 256 long words that has a zero bit decides;
8192 if there is none. -/
def findFirstZero (data : Block) : ℕ :=
  ((List.range 256).findSome? fun w =>
    ((List.range 32).find? fun j => !data.bit (32 * w + j)).map (32 * w + ·)).getD 8192

/-! ## Locks -/

/-- `wait_on_super` -/
def waitOnSuper (sb : Fin nrSuper) : P n Unit := do
  cli
  Prog.iterate (fun _ => do
    let s ← Prog.read
    if (s.superBlock sb).sLock then do
      sti
      poll
      pure (.inl ())
    else
      pure (.inr ())) ()

/-- `lock_super`; the store to the lock is the body of the loop. -/
def lockSuper (sb : Fin nrSuper) : P n Unit := do
  cli
  Prog.iterate (fun _ => do
    let s ← Prog.read
    if (s.superBlock sb).sLock then do
      Prog.update (Sys.setSuper · sb fun p => { p with sLock := true })
      pure (.inl ())
    else
      pure (.inr ())) ()
  sti

/-- `unlock_super` -/
def unlockSuper (sb : Fin nrSuper) : P n Unit := do
  cli
  Prog.update (Sys.setSuper · sb fun p => { p with sLock := false })
  sti

/-! ## Mounted devices -/

/-- `find_super` -/
def findSuper (dev : ℕ) : P n (Option (Fin nrSuper)) :=
  if dev = 0 then
    pure none
  else
    Prog.iterate (fun i => do
      let s ← Prog.read
      if h : i < nrSuper then
        if (s.superBlock ⟨i, h⟩).sDev = dev then do
          waitOnSuper ⟨i, h⟩
          let s ← Prog.read
          if (s.superBlock ⟨i, h⟩).sDev = dev then
            pure (.inr (some ⟨i, h⟩))
          else
            pure (.inl 0)
        else
          pure (.inl (i + 1))
      else
        pure (.inr none)) 0

/-- The scan of the maps for a zero bit: the number of the map, its buffer and the
bit.  A map behind the end of the array is not modelled. -/
def scanMaps (map : Fin mapSlots → Option (Fin n)) (blocks : ℕ) :
    P n (Option (ℕ × Fin n × ℕ)) :=
  Prog.iterate (fun i => do
    let s ← Prog.read
    if i < blocks then
      if h : i < mapSlots then
        match map ⟨i, h⟩ with
        | none => pure (.inl (i + 1))
        | some bh =>
          if findFirstZero (s.buf bh).bData < 8192 then
            pure (.inr (some (i, bh, findFirstZero (s.buf bh).bData)))
          else
            pure (.inl (i + 1))
      else
        Prog.halt (.fault "bitmap slot out of range")
    else
      pure (.inr none)) 0

/-- Set bit `j` of the map in the buffer `bh`. -/
def markBit (bh : Fin n) (j : ℕ) (message : String) : P n Unit := do
  let s ← Prog.read
  if (s.buf bh).bData.bit j then
    panic message
  else
    Prog.update (store bh ((s.buf bh).bData.setBit j))

/-- Clear bit `j` of the map in the buffer `bh`. -/
def unmarkBit (bh : Fin n) (j : ℕ) : P n Unit := do
  let s ← Prog.read
  Prog.update (store bh ((s.buf bh).bData.clearBit j))

/-- `add_inode_bitmap` -/
def addInodeBitmap (dev : ℕ) : P n ℕ := do
  match ← findSuper dev with
  | none => panic "trying to get add_inode_bitmap from nonexistant device"
  | some sb => do
    let s ← Prog.read
    match ← scanMaps (s.superBlock sb).sImap (s.superBlock sb).sImapBlocks with
    | none => pure 0
    | some (i, bh, j) =>
      if j + i * 8192 > (s.superBlock sb).sNinodes then
        pure 0
      else do
        markBit bh j "add_inode_bitmap: bit already set"
        pure (j + i * 8192)

/-- `free_inode_bitmap` -/
def freeInodeBitmap (dev inodeNum : ℕ) : P n Unit := do
  match ← findSuper dev with
  | none => panic "trying to free inode on nonexistent device"
  | some sb => do
    let s ← Prog.read
    if inodeNum < 1 ∨ inodeNum > (s.superBlock sb).sNinodes then
      panic "trying to free inode 0 or nonexistant inode"
    else if h : inodeNum / 8192 < mapSlots then
      match (s.superBlock sb).sImap ⟨inodeNum / 8192, h⟩ with
      | none => panic "nonexistent imap in superblock"
      | some bh => unmarkBit bh (inodeNum % 8192)
    else
      Prog.halt (.fault "bitmap slot out of range")

/-- `add_zone_bitmap` -/
def addZoneBitmap (dev : ℕ) : P n ℕ := do
  match ← findSuper dev with
  | none => panic "trying to get new block from nonexistant device"
  | some sb => do
    let s ← Prog.read
    match ← scanMaps (s.superBlock sb).sZmap (s.superBlock sb).sZmapBlocks with
    | none => pure 0
    | some (i, bh, j) =>
      let block : ℤ := (j + i * 8192 : ℤ) - 1 + (s.superBlock sb).sFirstdatazone
      if block > (s.superBlock sb).sNzones then
        pure 0
      else do
        markBit bh j "new_block: bit already set"
        pure (unsigned block)

/-- `free_zone_bitmap` -/
def freeZoneBitmap (dev block : ℕ) : P n Unit := do
  match ← findSuper dev with
  | none => panic "trying to free block on nonexistent device"
  | some sb => do
    let s ← Prog.read
    let first := (s.superBlock sb).sFirstdatazone
    if block < first ∨ block ≥ (s.superBlock sb).sNzones then
      panic "trying to free block not in datazone"
    else
      let bit := block - first + 1
      if h : bit / 8192 < mapSlots then
        match (s.superBlock sb).sZmap ⟨bit / 8192, h⟩ with
        | none => panic "nonexistent zmap in superblock"
        | some bh => unmarkBit bh (bit % 8192)
      else
        Prog.halt (.fault "bitmap slot out of range")

end EgGS
