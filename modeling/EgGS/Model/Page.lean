import EgGS.Lib.Prog

/-!
# Pages and frames (`page.c` and `page.h`)

The page map is seen through the window of `start.s`: word `k` of `page_tables` is entry
`k % 1024` of the table that slot `k / 1024` of the directory holds, and the last slot holds the
directory itself.  An access through a slot that holds no table is a page fault.  No table lies in
two slots, so a state gives each slot a table of its own.

The frames that are free lie on a stack, which is itself kept in frames, at virtual addresses from
`PAGE_STACK_VADDR` on.  There the page map is taken to be a map from page numbers to entries, and
the words of a frame are its memory.
-/

namespace EgGS

open Lib

/-- `PAGE_MASK` -/
def pageMask : UInt32 := 0xFFFFF000

/-- `PAGE_FLAG_MASK` -/
def pageFlagMask : UInt32 := 0xFFF

/-- `PAGE_TABLE_MASK` -/
def pageTableMask : UInt32 := 0x003FF000

/-- `PAGE_PRESENT` -/
def pagePresent : UInt32 := 0x1

/-- `PAGE_WRITE` -/
def pageWrite : UInt32 := 0x2

/-- `PAGE_SIZE` -/
def pageSize : ℕ := 0x1000

/-- `PAGE_STACK_VADDR` -/
def pageStackVaddr : ℕ := 0x3E100000

/-- `page_val` -/
def pageVal (phaddr flags : UInt32) : UInt32 := (phaddr &&& pageMask) ||| (flags &&& pageFlagMask)

/-- `table_idx` -/
def tableIdx (vaddr : UInt32) : ℕ := ((vaddr &&& pageTableMask) >>> 12).toNat

/-- `dir_idx` -/
def dirIdx (vaddr : UInt32) : ℕ := (vaddr >>> 22).toNat

/-- The entry has `PAGE_PRESENT`. -/
def present (entry : UInt32) : Bool := entry &&& pagePresent != 0

/-! ## The page map -/

/-- The directory, and the table of each slot that is present. -/
structure Paging where
  dir : ℕ → UInt32
  table : ℕ → ℕ → UInt32

/-- A frame that nothing uses, with the words it happens to hold. -/
structure Frame where
  addr : UInt32
  words : ℕ → UInt32

namespace Paging

/-- `page_tables[k]` -/
def getWord (s : Paging) (k : ℕ) : Except Stop UInt32 :=
  if present (s.dir (k / 1024)) then
    .ok (if k / 1024 = 1023 then s.dir (k % 1024) else s.table (k / 1024) (k % 1024))
  else .error (.fault "page fault")

/-- `page_tables[k] = value` -/
def setWord (s : Paging) (k : ℕ) (value : UInt32) : Except Stop Paging :=
  if present (s.dir (k / 1024)) then
    .ok (if k / 1024 = 1023 then { s with dir := Function.update s.dir (k % 1024) value }
      else
        { s with
          table := Function.update s.table (k / 1024)
            (Function.update (s.table (k / 1024)) (k % 1024) value) })
  else .error (.fault "page fault")

/-- `memset((unsigned int)&page_tables[k] & PAGE_MASK, 0, PAGE_SIZE)` -/
def clearPage (s : Paging) (k : ℕ) : Except Stop Paging :=
  if present (s.dir (k / 1024)) then
    .ok (if k / 1024 = 1023 then { s with dir := fun _ => 0 }
      else { s with table := Function.update s.table (k / 1024) fun _ => 0 })
  else .error (.fault "page fault")

/-- `page_directory[slot] = frame | flags`: the words of the frame are the table of the slot. -/
def install (s : Paging) (slot : ℕ) (frame : Frame) (flags : UInt32) : Paging where
  dir := Function.update s.dir slot (frame.addr ||| flags)
  table := Function.update s.table slot frame.words

end Paging

/-- `page_get` -/
def pageGet (s : Paging) (vaddr : UInt32) : Except Stop UInt32 :=
  let vaddr := vaddr &&& pageMask
  if present (s.dir (dirIdx vaddr)) then do
    let entry ← s.getWord (tableIdx vaddr)
    if present entry then s.getWord (tableIdx vaddr) else pure 0
  else pure 0

/-- `page_table_touch`, where `pop_free_physical_page` returns `frame`. -/
def pageTableTouch (frame : Frame) (s : Paging) (vaddr flags : UInt32) : Except Stop Paging :=
  let vaddr := vaddr &&& pageMask
  let flags := flags &&& pageFlagMask
  if !present (s.dir (dirIdx vaddr)) then
    (s.install (dirIdx vaddr) frame flags).clearPage (tableIdx vaddr)
  else pure s

/-- `page_set` -/
def pageSet (frame : Frame) (s : Paging) (vaddr value : UInt32) : Except Stop Paging := do
  let vaddr := vaddr &&& pageMask
  let s ← pageTableTouch frame s vaddr (value &&& pageFlagMask)
  s.setWord (tableIdx vaddr) value

/-! ## The free frames -/

/-- The frames that are free: `pmm_running`, `pmm_pos`, `pmm_page_stack_max` and
`pmm_page_stack_ptr`, the entry of each page, and the words of each frame. -/
structure Pmm where
  running : Bool
  pos : UInt32
  stackMax : ℕ
  stackPtr : ℕ
  map : ℕ → UInt32
  mem : UInt32 → ℕ → UInt32

namespace Pmm

/-- The entry of a page. -/
def pageGet (s : Pmm) (vaddr : ℕ) : UInt32 := s.map (vaddr / pageSize)

/-- Set the entry of a page. -/
def pageSet (s : Pmm) (vaddr : ℕ) (value : UInt32) : Pmm :=
  { s with map := Function.update s.map (vaddr / pageSize) value }

/-- The frame that a page is mapped to. -/
def frameAt (s : Pmm) (vaddr : ℕ) : UInt32 := s.pageGet vaddr &&& pageMask

/-- `*vaddr` -/
def load (s : Pmm) (vaddr : ℕ) : Except Stop UInt32 :=
  if present (s.pageGet vaddr) then .ok (s.mem (s.frameAt vaddr) (vaddr % pageSize / 4))
  else .error (.fault "page fault")

/-- `*vaddr = value` -/
def store (s : Pmm) (vaddr : ℕ) (value : UInt32) : Except Stop Pmm :=
  if present (s.pageGet vaddr) then
    .ok
      { s with
        mem := Function.update s.mem (s.frameAt vaddr)
          (Function.update (s.mem (s.frameAt vaddr)) (vaddr % pageSize / 4) value) }
  else .error (.fault "page fault")

end Pmm

/-- `pop_free_physical_page`: the frame, and the state behind it. -/
def popFreePhysicalPage (s : Pmm) : Except Stop (UInt32 × Pmm) :=
  if s.running = false then
    let s := { s with pos := s.pos + 0x1000 }
    pure (s.pos - 0x1000, s)
  else if s.stackPtr = pageStackVaddr then
    .error (.panic "Out of memory!")
  else
    let s := { s with stackPtr := s.stackPtr - 4 }
    if s.stackPtr ≤ s.stackMax - pageSize then
      let s := { s with stackMax := s.stackMax - pageSize }
      let ret := s.pageGet (s.stackMax - pageSize) &&& pageMask
      pure (ret, s.pageSet ret.toNat 0)
    else do
      let page ← s.load s.stackPtr
      pure (page, s)

/-- `pmm_free_page` -/
def pmmFreePage (s : Pmm) (page : UInt32) : Except Stop Pmm :=
  let page := page &&& pageMask
  if page < s.pos then pure s
  else if s.stackPtr ≥ s.stackMax then
    let s := s.pageSet s.stackMax (pageVal page (pagePresent ||| pageWrite))
    pure { s with stackMax := s.stackMax + pageSize, running := true }
  else do
    let s ← s.store s.stackPtr page
    pure { s with stackPtr := s.stackPtr + 4, running := true }

end EgGS
