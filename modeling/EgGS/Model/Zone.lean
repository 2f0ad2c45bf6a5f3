import EgGS.Model.Super

/-!
# Zones (`fs/zone.c`)

Taking a zone of the disk, with a buffer of zeros for it, and giving zones back,
one by one or through the index block that names them.  An index block is an
array of 512 short words, of which 0 names no zone.
-/

namespace EgGS

open Lib

variable {n : ℕ}

/-- The short word `i` of a block. -/
def Block.word (data : Block) (i : ℕ) : UInt16 :=
  let lo : Fin 1024 := ⟨2 * i % 1024, Nat.mod_lt _ (by decide)⟩
  let hi : Fin 1024 := ⟨(2 * i + 1) % 1024, Nat.mod_lt _ (by decide)⟩
  UInt16.ofNat ((data lo).toNat + 256 * (data hi).toNat)

/-- Store the short word `i` of a block. -/
def Block.setWord (data : Block) (i : ℕ) (word : UInt16) : Block :=
  let lo : Fin 1024 := ⟨2 * i % 1024, Nat.mod_lt _ (by decide)⟩
  let hi : Fin 1024 := ⟨(2 * i + 1) % 1024, Nat.mod_lt _ (by decide)⟩
  Function.update (Function.update data lo (UInt8.ofNat word.toNat)) hi
    (UInt8.ofNat (word.toNat / 256))

/-- `delete_block` -/
def deleteBlock (dev block : ℕ) : P n Unit := do
  invalidateBuff dev block
  freeZoneBitmap dev block

/-- The buffer `bh` gets the zeros of a new block: `clear_block`, `b_uptodate = 1` and
`b_dirt = 1`. -/
def Sys.zero (s : Sys n) (b : Fin n) : Sys n :=
  (s.setBuf b fun bh => { bh with bData := zeroBlock, bUptodate := true, bDirt := true }).note
    (.stored b)

/-- `create_block` -/
def createBlock (dev : ℕ) : P n ℕ := do
  let block ← addZoneBitmap dev
  let bh ← getBuff dev block
  let s ← Prog.read
  if (s.buf bh).bCount ≠ 1 then
    panic "new block: count is != 1"
  else do
    Prog.update (Sys.zero · bh)
    putBuff (some bh)
    pure block

/-- The loop over the zones that the index block in the buffer `bh` names. -/
def forEachZone (bh : Fin n) (body : ℕ → P n Unit) : P n Unit :=
  Prog.forEach (List.range 512) fun i => do
    let s ← Prog.read
    let zone := ((s.buf bh).bData.word i).toNat
    if zone = 0 then
      pure ()
    else
      body zone

/-- `delete_indirecte_block` -/
def deleteIndirecteBlock (dev block : ℕ) : P n Unit :=
  if block = 0 then
    pure ()
  else do
    match ← readBuff dev block with
    | none => pure ()
    | some bh => do
      forEachZone bh fun zone => deleteBlock dev zone
      putBuff (some bh)
    deleteBlock dev block

/-- `delete_double_indirecte_block` -/
def deleteDoubleIndirecteBlock (dev block : ℕ) : P n Unit :=
  if block = 0 then
    pure ()
  else do
    match ← readBuff dev block with
    | none => pure ()
    | some bh => do
      forEachZone bh fun zone => deleteIndirecteBlock dev zone
      putBuff (some bh)
    deleteBlock dev block

end EgGS
