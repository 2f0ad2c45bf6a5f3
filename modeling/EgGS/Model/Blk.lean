import EgGS.Model.Hd
import Mathlib.Data.List.FinRange

/-!
# The request layer (`blk/blk_main.c`)

`ll_rw_block` turns a buffer into a request and `add_request` puts it on the
queue of the hard disk.  The queue is the list from `current` through `next`;
its first element is in service.

Interrupts arrive at the points where the code runs with interrupts enabled:
after `lock_buff`, while `ll_rw_block` waits for a free slot, and before
`add_request` disables them.  Between `cli` and `sti` there are none.

`add_request` starts an idle queue behind `sti`, so an interrupt could also come
while `do_hd_request` waits for the DRQ of a `WRITE`.  Here that call is one
step, as it is in a handler; the runs of `Block/Micro` have interrupts in it.
-/

namespace EgGS

open Lib

variable {n : ℕ}

/-! ## Buffer locks (`blk/buffer.c`) -/

/-- `wait_on_buff` -/
def waitOnBuff (b : Fin n) : P n Unit := do
  cli
  Prog.iterate (fun _ => do
    let s ← Prog.read
    if (s.buf b).bLock then do
      sti
      poll
      pure (.inl ())
    else
      pure (.inr ())) ()

/-- `lock_buff`; the loop that would wait for the lock is commented out in the
source. -/
def lockBuff (b : Fin n) : P n Unit := do
  cli
  Prog.update (Sys.setBuf · b fun bh => { bh with bLock := true })
  sti

/-! ## The queue -/

/-- `IN_ORDER` -/
def inOrder (s1 s2 : Request n) : Bool :=
  s1.cmd.code < s2.cmd.code ∨
    (s1.cmd.code = s2.cmd.code ∧
      (s1.dev < s2.dev ∨ (s1.dev = s2.dev ∧ s1.sector < s2.sector)))

/-- The elevator of `add_request`: the request behind which `req` is queued. -/
def elevator (req : Fin nrRequest) (head : Fin nrRequest) : P n (Fin nrRequest) :=
  Prog.iterate (fun tmp => do
    let s ← Prog.read
    match (s.request tmp).next with
    | none => pure (.inr tmp)
    | some nxt =>
      if (inOrder (s.request tmp) (s.request req) ∨
            ¬ inOrder (s.request tmp) (s.request nxt)) ∧
          inOrder (s.request req) (s.request nxt) then
        pure (.inr tmp)
      else
        pure (.inl nxt)) head

/-- `req` becomes a request of the queue: `b_dirt` of its buffer is cleared. -/
def Sys.clean (s : Sys n) (req : Fin nrRequest) : Sys n :=
  match (s.request req).bh with
  | none => s
  | some b =>
      (s.setBuf b fun bh => { bh with bDirt := false }).note (.queued b (s.request req).cmd)

/-- `req` is the only request. -/
@[simps] def Sys.start (s : Sys n) (req : Fin nrRequest) : Sys n := { s with current := some req }

/-- `req` is linked behind `tmp`. -/
def Sys.linkBehind (s : Sys n) (tmp req : Fin nrRequest) : Sys n :=
  (s.setRequest req fun r => { r with next := (s.request tmp).next }).setRequest tmp
    fun r => { r with next := some req }

/-- `add_request`; no interrupt comes during its call of `do_hd_request`. -/
def addRequest (req : Fin nrRequest) : P n Unit := do
  Prog.update (Sys.setRequest · req fun r => { r with next := none })
  cli
  Prog.update (Sys.clean · req)
  let s ← Prog.read
  match s.current with
  | none => do
      Prog.update (Sys.start · req)
      sti
      doHdRequest
  | some head => do
      let tmp ← elevator req head
      Prog.update (Sys.linkBehind · tmp req)
      sti

/-! ## Making a request -/

/-- The number of slots that requests of this kind may take: writes leave the
last third to reads. -/
def slotLimit (rw : Rw) : ℕ := if rw = .read then nrRequest else nrRequest * 2 / 3

/-- The scan for an empty request, from the last slot of the limit downwards. -/
def freeSlot (s : Sys n) (rw : Rw) : Option (Fin nrRequest) :=
  (List.finRange nrRequest).reverse.find? fun r =>
    r.val < slotLimit rw ∧ (s.request r).dev < 0

/-- The loop at the label `repeat` of `ll_rw_block`; `none` if a read-ahead
finds no slot. -/
def findSlot (rw : Rw) (ahead : Bool) : P n (Option (Fin nrRequest)) :=
  Prog.iterate (fun _ => do
    let s ← Prog.read
    match freeSlot s rw with
    | some r => pure (.inr (some r))
    | none =>
      if ahead then
        pure (.inr none)
      else do
        poll
        pure (.inl ())) ()

/-- The request for the buffer `b`. -/
def makeRequest (s : Sys n) (rw : Rw) (b : Fin n) : Request n :=
  { dev := (s.buf b).bDev
    cmd := rw
    errors := 0
    sector := (s.buf b).bBlocknr * 2 % 4294967296
    nrSectors := 2
    buffer := some ⟨b, 0⟩
    bh := some b
    next := none }

/-- `READA` and `WRITEA` are reads and writes that need not be done. -/
def Rw.plain : Rw → Rw
  | .readA => .read
  | .writeA => .write
  | rw => rw

/-- `READA` or `WRITEA` -/
def Rw.isAhead : Rw → Bool
  | .readA => true
  | .writeA => true
  | _ => false

/-- `ll_rw_block` -/
def llRwBlock (rw : Rw) (b : Fin n) : P n Unit := do
  let s ← Prog.read
  if major (s.buf b).bDev ≥ nrBlkDev ∨ ¬ (major (s.buf b).bDev = 3 ∧ s.hdEnabled) then
    pure ()
  else if rw.isAhead ∧ (s.buf b).bLock then
    pure ()
  else do
    lockBuff b
    poll
    let s ← Prog.read
    if (rw.plain = .write ∧ !(s.buf b).bDirt) ∨ (rw.plain = .read ∧ (s.buf b).bUptodate) then
      Prog.update (unlockBuff b)
    else do
      let slot ← findSlot rw.plain rw.isAhead
      match slot with
      | none => Prog.update (unlockBuff b)
      | some r => do
          Prog.update fun s => s.setRequest r fun _ => makeRequest s rw.plain b
          poll
          addRequest r

/-- `init_request_queue` -/
def initRequestQueue (s : Sys n) : Sys n :=
  { s with request := fun r => { s.request r with dev := -1, next := none } }

end EgGS
