import EgGS.Model.Blk

/-!
# The buffer cache (`blk/buffer.c`)

Every header is on one circular list, from `freeList` through `bNextFree`, and,
if it has a device, on the hash chain of its device and block.  `getBuff` looks
a block up and recycles the best unreferenced header when it is not there.

A store through a `NULL` link touches no header.
-/

namespace EgGS

open Lib

variable {n : ℕ}

/-! ## Setting up -/

/-- `init_buff`, for the `n` headers that fit into memory.  The free list is the
array of headers made circular, so its links are the neighbours modulo `n`. -/
def initBuff [NeZero n] (s : Sys n) : Sys n :=
  { s with
    buf := fun b => { s.buf b with
      bDev := 0, bDirt := false, bCount := 0, bLock := false, bUptodate := false
      bNext := none, bPrev := none, bPrevFree := some (b - 1), bNextFree := some (b + 1) }
    freeList := 0
    hashTable := fun _ => none }

/-! ## The two lists -/

/-- `_hashfn` -/
def hashfn (dev block : ℕ) : Fin nrHash := ⟨(dev ^^^ block) % nrHash, Nat.mod_lt _ (by decide)⟩

/-- Assign fields of the header behind a link. -/
def Sys.setLinked (s : Sys n) (link : Option (Fin n)) (f : BufferHead n → BufferHead n) : Sys n :=
  match link with
  | none => s
  | some b => s.setBuf b f

/-- The first half of `remove_from_queues`: off the hash chain. -/
def removeFromHash (b : Fin n) (s : Sys n) : Sys n :=
  let s := s.setLinked (s.buf b).bNext fun c => { c with bPrev := (s.buf b).bPrev }
  let s := s.setLinked (s.buf b).bPrev fun a => { a with bNext := (s.buf b).bNext }
  let h := hashfn (s.buf b).bDev (s.buf b).bBlocknr
  if s.hashTable h = some b then
    { s with hashTable := Function.update s.hashTable h (s.buf b).bNext }
  else s

/-- The second half of `remove_from_queues`: off the free list, between the
headers `prev` and `next`. -/
def removeFromFree (b prev next : Fin n) (s : Sys n) : Sys n :=
  let s := s.setBuf prev fun a => { a with bNextFree := some next }
  let s := s.setBuf next fun c => { c with bPrevFree := some prev }
  if s.freeList = b then { s with freeList := next } else s

/-- `remove_from_queues` -/
def removeFromQueues (b : Fin n) : P n Unit := do
  Prog.update (removeFromHash b)
  let s ← Prog.read
  match (s.buf b).bPrevFree, (s.buf b).bNextFree with
  | some prev, some next => Prog.update (removeFromFree b prev next)
  | _, _ => panic "Free block list corrupted"

/-- The first half of `insert_into_queues`: to the end of the free list. -/
def insertIntoFree (b : Fin n) (s : Sys n) : Sys n :=
  let s := s.setBuf b fun bh => { bh with bNextFree := some s.freeList }
  let s := s.setBuf b fun bh => { bh with bPrevFree := (s.buf s.freeList).bPrevFree }
  let s := s.setLinked (s.buf s.freeList).bPrevFree fun a => { a with bNextFree := some b }
  s.setBuf s.freeList fun f => { f with bPrevFree := some b }

/-- The second half of `insert_into_queues`: to the front of its hash chain, if
it has a device. -/
def insertIntoHash (b : Fin n) (s : Sys n) : Sys n :=
  let s := s.setBuf b fun bh => { bh with bPrev := none, bNext := none }
  if (s.buf b).bDev = 0 then s
  else
    let h := hashfn (s.buf b).bDev (s.buf b).bBlocknr
    let s := s.setBuf b fun bh => { bh with bNext := s.hashTable h }
    let s := { s with hashTable := Function.update s.hashTable h (some b) }
    s.setLinked (s.buf b).bNext fun c => { c with bPrev := some b }

/-- `insert_into_queues` -/
def insertIntoQueues (b : Fin n) (s : Sys n) : Sys n := insertIntoHash b (insertIntoFree b s)

/-! ## Looking up -/

/-- `find_buff` -/
def findBuff (dev block : ℕ) : P n (Option (Fin n)) := do
  let s ← Prog.read
  Prog.iterate (fun tmp => do
    let s ← Prog.read
    match tmp with
    | none => pure (.inr none)
    | some b =>
      if (s.buf b).bDev = dev ∧ (s.buf b).bBlocknr = block then
        pure (.inr (some b))
      else
        pure (.inl (s.buf b).bNext)) (s.hashTable (hashfn dev block))

/-- `bh->b_count++` -/
def Sys.countUp (s : Sys n) (b : Fin n) : Sys n :=
  s.setBuf b fun bh => { bh with bCount := (bh.bCount + 1) % 256 }

/-- `bh->b_count--` -/
def Sys.countDown (s : Sys n) (b : Fin n) : Sys n :=
  s.setBuf b fun bh => { bh with bCount := (bh.bCount + 255) % 256 }

/-- `retain_buff` -/
def retainBuff (dev block : ℕ) : P n (Option (Fin n)) :=
  Prog.iterate (fun _ => do
    poll
    let found ← findBuff dev block
    match found with
    | none => pure (.inr none)
    | some b => do
      waitOnBuff b
      let s ← Prog.read
      if (s.buf b).bDev ≠ dev ∨ (s.buf b).bBlocknr ≠ block then
        pure (.inl ())
      else do
        Prog.update (Sys.countUp · b)
        pure (.inr (some b))) ()

/-- `sync_dev` -/
def syncDev (dev : ℕ) : P n Unit :=
  Prog.forEach (List.finRange n) fun b => do
    poll
    let s ← Prog.read
    if (s.buf b).bDev ≠ dev then
      pure ()
    else do
      waitOnBuff b
      let s ← Prog.read
      if (s.buf b).bDev = dev ∧ (s.buf b).bDirt then
        llRwBlock .write b
      else
        pure ()

/-! ## Recycling -/

/-- `BADNESS` -/
def badness (bh : BufferHead n) : ℕ := bh.bDirt.toNat * 2 + bh.bLock.toNat

/-- The scan of the free list in `new_buff`: the header it settles on. -/
def scanFree : P n (Option (Fin n)) := do
  let s ← Prog.read
  Prog.iterate (fun (tmp, best) => do
    let s ← Prog.read
    let better := (s.buf tmp).bCount = 0 ∧
      best.all fun b => badness (s.buf tmp) < badness (s.buf b)
    if better ∧ badness (s.buf tmp) = 0 then
      pure (.inr (some tmp))
    else
      let best := if better then some tmp else best
      match (s.buf tmp).bNextFree with
      | none => Prog.halt (.fault "NULL dereference")
      | some next =>
        if next = s.freeList then
          pure (.inr best)
        else
          pure (.inl (next, best))) (s.freeList, none)

/-- The loop of `new_buff` that writes a dirty victim back; `false` if the
victim is in use again. -/
def cleanVictim (b : Fin n) : P n Bool :=
  Prog.iterate (fun _ => do
    let s ← Prog.read
    if (s.buf b).bDirt then do
      syncDev (s.buf b).bDev
      waitOnBuff b
      let s ← Prog.read
      if (s.buf b).bCount ≠ 0 then
        pure (.inr false)
      else
        pure (.inl ())
    else
      pure (.inr true)) ()

/-- The header `b` is claimed: one reference, clean, not up to date. -/
def Sys.claim (s : Sys n) (b : Fin n) : Sys n :=
  (s.setBuf b fun bh => { bh with bCount := 1, bDirt := false, bUptodate := false }).note
    (.recycled b)

/-- The header `b` is given a new block. -/
def Sys.rename (s : Sys n) (b : Fin n) (dev block : ℕ) : Sys n :=
  s.setBuf b fun bh => { bh with bDev := dev % 65536, bBlocknr := block }

/-- The end of `new_buff`: the victim `b` becomes the buffer of the block. -/
def reuse (b : Fin n) (dev block : ℕ) : P n Unit := do
  Prog.update (Sys.claim · b)
  removeFromQueues b
  Prog.update (Sys.rename · b dev block)
  Prog.update (insertIntoQueues b)

/-- `new_buff` -/
def newBuff (dev block : ℕ) : P n (Option (Fin n)) := do
  poll
  let victim ← scanFree
  match victim with
  | none => pure none
  | some b => do
    waitOnBuff b
    let s ← Prog.read
    if (s.buf b).bCount ≠ 0 then
      pure none
    else do
      let unused ← cleanVictim b
      if unused then do
        let found ← findBuff dev block
        match found with
        | some _ => pure none
        | none => do
          reuse b dev block
          pure (some b)
      else
        pure none

/-- `get_buff` -/
def getBuff (dev block : ℕ) : P n (Fin n) :=
  Prog.iterate (fun _ => do
    let found ← retainBuff dev block
    match found with
    | some b => pure (.inr b)
    | none => do
      let made ← newBuff dev block
      match made with
      | some b => pure (.inr b)
      | none => pure (.inl ())) ()

/-! ## The interface -/

/-- `put_buff` -/
def putBuff (buf : Option (Fin n)) : P n Unit :=
  match buf with
  | none => pure ()
  | some b => do
    waitOnBuff b
    let s ← Prog.read
    if (s.buf b).bCount = 0 then
      panic "Trying to free free buffer"
    else
      Prog.update (Sys.countDown · b)

/-- `bh->b_uptodate = bh->b_dirt = 0` -/
def Sys.invalidate (s : Sys n) (b : Fin n) : Sys n :=
  (s.setBuf b fun bh => { bh with bUptodate := false, bDirt := false }).note (.invalidated b)

/-- `invalidate_buff` -/
def invalidateBuff (dev block : ℕ) : P n Unit := do
  let found ← retainBuff dev block
  match found with
  | none => pure ()
  | some b => do
    let s ← Prog.read
    if (s.buf b).bCount ≠ 1 then
      pure ()
    else do
      Prog.update (Sys.invalidate · b)
      putBuff (some b)

/-- `read_buff` -/
def readBuff (dev block : ℕ) : P n (Option (Fin n)) := do
  let b ← getBuff dev block
  let s ← Prog.read
  if (s.buf b).bUptodate then
    pure (some b)
  else do
    llRwBlock .read b
    waitOnBuff b
    let s ← Prog.read
    if (s.buf b).bUptodate then
      pure (some b)
    else do
      putBuff (some b)
      pure none

/-- `COPYBLK` to address `addr` of the caller's memory. -/
def copyBlk (data : Block) (addr : ℕ) (mem : ℕ → UInt8) : ℕ → UInt8 := fun a =>
  let off := (a + 4294967296 - addr % 4294967296) % 4294967296
  if h : off < 1024 then data ⟨off, h⟩ else mem a

/-- `if (!bh->b_uptodate) ll_rw_block(rw,bh)` -/
def readIfStale (rw : Rw) (b : Fin n) : P n Unit := do
  let s ← Prog.read
  if (s.buf b).bUptodate then pure () else llRwBlock rw b

/-- The first loop of `read_buff_page`: a buffer for each block number other
than 0, with a read under way if it is not up to date. -/
def pageBuffers (dev : ℕ) : List ℕ → P n (List (Option (Fin n)))
  | [] => pure []
  | 0 :: blocks => do
      let rest ← pageBuffers dev blocks
      pure (none :: rest)
  | block :: blocks => do
      let b ← getBuff dev block
      readIfStale .read b
      let rest ← pageBuffers dev blocks
      pure (some b :: rest)

/-- `read_buff_page` -/
def readBuffPage (address dev : ℕ) (b : Fin 4 → ℕ) : P n Unit := do
  let bufs ← pageBuffers dev (List.ofFn b)
  Prog.forEach bufs.zipIdx fun (buf, i) =>
    match buf with
    | none => pure ()
    | some bh => do
      waitOnBuff bh
      Prog.update fun s =>
        if (s.buf bh).bUptodate then
          { s with mem := copyBlk (s.buf bh).bData (address + 1024 * i) s.mem }
        else s
      putBuff (some bh)

/-- `read_buff_ahead`; `args` are the words the variable arguments are taken
from. -/
def readBuffAhead (dev first : ℕ) (args : ℕ → ℤ) : P n (Option (Fin n)) := do
  let b ← getBuff dev first
  readIfStale .read b
  Prog.iterate (fun i =>
    -- `first` is unsigned, so the loop goes on below `MAX_HD` and ends at a negative number
    if unsigned (args i) < 2 then do
      let tmp ← getBuff dev (unsigned (args i))
      readIfStale .readA tmp
      Prog.update (Sys.countDown · tmp)
      pure (.inl (i + 1))
    else
      pure (.inr ())) 0
  waitOnBuff b
  let s ← Prog.read
  if (s.buf b).bUptodate then
    pure (some b)
  else do
    putBuff (some b)
    pure none

/-! ## The holders -/

/-- A holder of the buffer `b` changes its contents in place and sets `b_dirt`. -/
def store (b : Fin n) (data : Block) (s : Sys n) : Sys n :=
  (s.setBuf b fun bh => { bh with bData := data, bDirt := true }).note (.stored b)

end EgGS
