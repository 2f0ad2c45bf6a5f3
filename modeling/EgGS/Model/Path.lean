import EgGS.Model.Inode

/-!
# Names and paths (`fs/inode.c`, `util.c`)

A directory is a file of entries of 32 bytes, an inode number and a name of up to 30
bytes.  `retainInodeByName` looks a name up in one directory, `createInodeByName` adds one,
and `retainInodeByPath` walks along a path.

Names and paths are strings in the caller's memory, given by their bytes; a path ends
with a zero byte.
-/

namespace EgGS

open Lib

variable {n : ℕ}

/-- `NAME_LEN` -/
abbrev nameLen : ℕ := 30

/-- `ROOT_INO` -/
abbrev rootIno : ℕ := 1

/-- `DIR_ENTRIES_PER_BLOCK` -/
abbrev dirEntriesPerBlock : ℕ := 32

/-- `S_ISDIR` -/
def isDir (mode : UInt16) : Bool := mode &&& 0xF000 == 0x4000

/-! ## Directory entries -/

/-- The inode number of entry `e` of a directory block. -/
def Block.entryInode (data : Block) (e : ℕ) : ℕ := (data.word (16 * e)).toNat

/-- Byte `j` of the name of entry `e` of a directory block. -/
def Block.entryName (data : Block) (e j : ℕ) : UInt8 :=
  data ⟨(32 * e + 2 + j) % 1024, Nat.mod_lt _ (by decide)⟩

/-- `match`: the first `len` bytes agree. -/
def matchName (len : ℕ) (kName uName : ℕ → UInt8) : Bool :=
  decide (len ≤ nameLen) && (List.range len).all fun j => kName j == uName j

/-! ## One name -/

/-- Across a mount point: `..` in the root of a mounted device is looked up in the inode it
is mounted on. -/
def crossMount (inode : Fin nrInode) : P n (Fin nrInode) := do
  let s ← Prog.read
  if (s.inode inode).iNum = rootIno then do
    match ← findSuper (s.inode inode).iDev with
    | none => Prog.halt (.fault "NULL dereference")
    | some sb => do
      let s ← Prog.read
      match (s.superBlock sb).sImount with
      | none => pure inode
      | some mount => do
        putInode (some inode)
        Prog.update (Sys.inodeUp · mount)
        pure mount
  else
    pure inode

/-- The entry `e` of the buffer `bh`, the `i`-th of the directory, is compared: the loop ends
with it, or goes on behind it. -/
def checkEntry (name : ℕ → UInt8) (namelen i e : ℕ) (bh : Fin n) :
    P n ((ℕ × ℕ × Option (Fin n)) ⊕ (Option (Fin n) × Option (Fin n × ℕ))) := do
  let s ← Prog.read
  if matchName namelen name ((s.buf bh).bData.entryName e) then
    pure (.inr (some bh, some (bh, e)))
  else
    pure (.inl (i + 1, e + 1, some bh))

/-- The loop over the entries: the buffer it ends with, and the entry it found.  `de` is
entry `e` of the buffer `bh`, which is `NULL` behind a block that could not be read. -/
def scanEntries (inode : Fin nrInode) (name : ℕ → UInt8) (namelen entries : ℕ) (bh : Fin n) :
    P n (Option (Fin n) × Option (Fin n × ℕ)) :=
  Prog.iterate (fun (i, e, bh) =>
    if i < entries then
      match bh with
      | none => Prog.halt (.fault "NULL buffer head")
      | some bh =>
        if e ≥ dirEntriesPerBlock then do
          putBuff (some bh)
          let block ← locateByInode inode (i / dirEntriesPerBlock : ℕ) false
          if block = 0 then
            pure (.inl (i + dirEntriesPerBlock, e, none))
          else do
            let s ← Prog.read
            match ← readBuff (s.inode inode).iDev block with
            | none => pure (.inl (i + dirEntriesPerBlock, e, none))
            | some bh => checkEntry name namelen i 0 bh
        else
          checkEntry name namelen i e bh
    else
      pure (.inr (bh, none))) (0, 0, some bh)

/-- The inode in which `retain_inode_by_name` looks: `..` crosses mount points. -/
def crossDots (inode : Fin nrInode) (name : ℕ → UInt8) (namelen : ℕ) : P n (Fin nrInode) :=
  if namelen = 2 ∧ name 0 = 0x2E ∧ name 1 = 0x2E then crossMount inode else pure inode

/-- `retain_inode_by_name` behind the mount point, with `entries` entries to look at. -/
def lookupName (inode : Fin nrInode) (name : ℕ → UInt8) (namelen entries : ℕ) :
    P n (Fin nrInode × Option (Fin nrInode)) := do
  let s ← Prog.read
  if (s.inode inode).iZone 0 = 0 then
    pure (inode, none)
  else do
    match ← readBuff (s.inode inode).iDev ((s.inode inode).iZone 0).toNat with
    | none => pure (inode, none)
    | some bh => do
      let (bh, res) ← scanEntries inode name namelen entries bh
      putBuff bh
      match res with
      | none => pure (inode, none)
      | some (b, e) => do
        let s ← Prog.read
        let found ← readInode (s.inode inode).iDev ((s.buf b).bData.entryInode e)
        pure (inode, some found)

/-- `retain_inode_by_name`, with the inode it leaves in `*inode`. -/
def retainInodeByName (inode : Fin nrInode) (name : ℕ → UInt8) (namelen : ℕ) :
    P n (Fin nrInode × Option (Fin nrInode)) := do
  let namelen := min namelen nameLen
  let s ← Prog.read
  let entries := (s.inode inode).iSize.toNat / 32
  if namelen = 0 then
    pure (inode, none)
  else do
    let inode ← crossDots inode name namelen
    lookupName inode name namelen entries

/-! ## A new name -/

/-- The entry `e` of a directory block gets a number and a name. -/
def Block.setEntry (data : Block) (e num : ℕ) (name : ℕ → UInt8) (namelen : ℕ) : Block := fun i =>
  if i.val / 32 = e then
    if i.val % 32 < 2 then UInt8.ofNat (num / 256 ^ (i.val % 32))
    else if i.val % 32 - 2 < namelen then name (i.val % 32 - 2)
    else 0
  else data i

/-- The `i`-th entry of the directory, entry `e` of the buffer `bh`, becomes the last one, and is
empty.  The buffer is not marked dirty. -/
def Sys.growDir (s : Sys n) (inode : Fin nrInode) (i e : ℕ) (bh : Fin n) : Sys n :=
  (s.setBuf bh fun h => { h with bData := h.bData.setWord (16 * e) 0 }).setInode inode fun x =>
    { x with iSize := UInt32.ofNat ((i + 1) * 32), iDirt := true }

/-- An entry behind the end of the directory becomes the last one. -/
def coverEntry (inode : Fin nrInode) (i e : ℕ) (bh : Fin n) : P n Unit := do
  let s ← Prog.read
  if i * 32 % 4294967296 ≥ (s.inode inode).iSize.toNat then
    Prog.update (Sys.growDir · inode i e bh)
  else
    pure ()

/-- An inode is created, and the empty entry `e` of the buffer `bh` is given to it. -/
def fillEntry (inode : Fin nrInode) (name : ℕ → UInt8) (namelen e : ℕ) (bh : Fin n) :
    P n (Option (Fin nrInode)) := do
  let s ← Prog.read
  match ← createInode (s.inode inode).iDev with
  | none => do
    putBuff (some bh)
    pure none
  | some new => do
    Prog.update (Sys.setInode · new fun x => { x with iDirt := true })
    Prog.update fun s =>
      store bh ((s.buf bh).bData.setEntry e (s.inode new).iNum name namelen) s
    putBuff (some bh)
    pure (some new)

/-- The entry `e` of the buffer `bh`, the `i`-th of the directory, is taken if it is empty: the
function returns, or the loop goes on behind it. -/
def tryEntry (inode : Fin nrInode) (name : ℕ → UInt8) (namelen i e : ℕ) (bh : Fin n) :
    P n ((ℕ × ℕ × Option (Fin n)) ⊕ Option (Fin nrInode)) := do
  coverEntry inode i e bh
  let s ← Prog.read
  if (s.buf bh).bData.entryInode e = 0 then do
    let new ← fillEntry inode name namelen e bh
    pure (.inr new)
  else
    pure (.inl (i + 1, e + 1, some bh))

/-- The loop of `create_inode_by_name`; it has no end of its own. -/
def placeEntry (inode : Fin nrInode) (name : ℕ → UInt8) (namelen : ℕ) (bh : Fin n) :
    P n (Option (Fin nrInode)) :=
  Prog.iterate (fun (i, e, bh) =>
    match bh with
    | none => Prog.halt (.fault "NULL buffer head")
    | some bh =>
      if e ≥ dirEntriesPerBlock then do
        putBuff (some bh)
        let block ← locateByInode inode (i / dirEntriesPerBlock : ℕ) true
        if block = 0 then
          pure (.inr none)
        else do
          let s ← Prog.read
          match ← readBuff (s.inode inode).iDev block with
          | none => pure (.inl (i + dirEntriesPerBlock, e, none))
          | some bh => tryEntry inode name namelen i 0 bh
      else
        tryEntry inode name namelen i e bh) (0, 0, some bh)

/-- `create_inode_by_name` -/
def createInodeByName (inode : Fin nrInode) (name : ℕ → UInt8) (namelen : ℕ) :
    P n (Option (Fin nrInode)) := do
  let namelen := min namelen nameLen
  if namelen = 0 then
    pure none
  else do
    let s ← Prog.read
    if (s.inode inode).iZone 0 = 0 then
      pure none
    else do
      match ← readBuff (s.inode inode).iDev ((s.inode inode).iZone 0).toNat with
      | none => pure none
      | some bh => placeEntry inode name namelen bh

/-! ## A path -/

/-- `retain_inode_by_path`; `thisname` and `pos` are positions in the path. -/
def retainInodeByPath (inode : Fin nrInode) (pathname : ℕ → UInt8) :
    P n (Option (Fin nrInode)) :=
  if pathname 0 = 0 then
    pure none
  else do
    let start := if pathname 0 = 0x2F then 1 else 0
    Prog.update (Sys.inodeUp · inode)
    Prog.iterate (fun (resInode, thisname, namelen, pos) =>
      if pathname pos = 0 then
        pure (.inr (some resInode))
      else if pathname pos ≠ 0x2F then
        pure (.inl (resInode, thisname, namelen + 1, pos + 1))
      else do
        let s ← Prog.read
        if !isDir (s.inode inode).iMode then
          pure (.inr none)
        else do
          match ← retainInodeByName resInode (fun j => pathname (thisname + j)) namelen with
          | (_, none) => pure (.inr none)
          | (resInode, some tmp) => do
            putInode (some resInode)
            pure (.inl (tmp, pos + 1, 0, pos + 1))) (inode, start, 0, start)

end EgGS
