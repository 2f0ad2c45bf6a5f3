import EgGS.Model.State

/-!
# The memory of the buffer cache (`init_buff` of `blk/buffer.c`)

The rest of the model has the headers as an array.  Here they are where `init_buff` puts them: from
`end` upwards, one behind the other, and their data from `buffer_end` downwards.  An address is a
number below 2^32.
-/

namespace EgGS

open Lib

/-- `BLOCK_SIZE` -/
def poolBlockSize : ℕ := 1024

/-- `sizeof(struct buffer_head)` -/
def headSize : ℕ := 36

/-- A header, with its links as addresses. -/
structure RawHead where
  bData : ℕ
  bBlocknr : ℕ
  bDev : ℕ
  bUptodate : ℕ
  bDirt : ℕ
  bCount : ℕ
  bLock : ℕ
  bWait : ℕ
  bPrev : ℕ
  bNext : ℕ
  bPrevFree : ℕ
  bNextFree : ℕ

/-- The headers by address, `NR_BUFFERS`, `free_list` and `hash_table`. -/
structure RawPool where
  head : ℕ → RawHead
  nrBuffers : ℕ
  freeList : ℕ
  hashTable : Fin nrHash → ℕ

/-- Assign fields of the header at an address. -/
def RawPool.setHead (s : RawPool) (h : ℕ) (f : RawHead → RawHead) : RawPool :=
  { s with head := Function.update s.head h (f (s.head h)) }

/-- The assignments of a round, for the header at `h` and the block at `b`. -/
def RawHead.init (h b : ℕ) (old : RawHead) : RawHead :=
  { old with
    bDev := 0, bDirt := 0, bCount := 0, bLock := 0, bUptodate := 0, bWait := 0, bNext := 0
    bPrev := 0, bData := b
    bPrevFree := unsigned (h - headSize), bNextFree := unsigned (h + headSize) }

/-- A round of the loop, at the header `h`, with the blocks handed out from `b` on. -/
def initRound (h b : ℕ) : Prog Unit RawPool ((ℕ × ℕ) ⊕ ℕ) := do
  let b := unsigned (b - poolBlockSize)
  if b ≥ unsigned (h + headSize) then do
    Prog.update fun s => s.setHead h (RawHead.init h b)
    Prog.update fun s => { s with nrBuffers := s.nrBuffers + 1 }
    pure (.inl (unsigned (h + headSize), if b = 0x100000 then 0xA0000 else b))
  else
    pure (.inr h)

/-- `init_buff`, for a kernel that ends at `startBuffer`. -/
def initPool (startBuffer bufferEnd : ℕ) : Prog Unit RawPool Unit := do
  let b := if bufferEnd = 2 ^ 20 then 640 * 1024 else bufferEnd
  let h ← Prog.iterate (fun p => initRound p.1 p.2) (startBuffer, b)
  let h := unsigned (h - headSize)
  Prog.update fun s => { s with freeList := startBuffer }
  Prog.update fun s => s.setHead s.freeList fun x => { x with bPrevFree := h }
  Prog.update fun s => s.setHead h fun x => { x with bNextFree := s.freeList }
  Prog.update fun s => { s with hashTable := fun _ => 0 }

end EgGS
