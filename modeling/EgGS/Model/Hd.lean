import EgGS.Model.State

/-!
# The hard-disk driver (`blk/hd.c`)

The functions of `hd.c` that run a request: `do_hd_request`, which sends the
request in service to the controller, and the three interrupt handlers.

`CURRENT_REQUEST` may be `NULL` where the code uses it.  Every such access is
recorded as `Event.nullAccess`; a read gives the word that the environment says
is there, a store changes nothing that is modelled, and a handler that would
work on the request at `NULL` is not followed further.

The state changes of the handlers are plain functions on states.  Only
`doHdRequest` is a program: it can panic, fault in a division and, by its
`goto repeat`, loop.
-/

namespace EgGS

open Lib

variable {n : ℕ}

/-! ## Sectors -/

/-- The 512 bytes at offset `off` of a buffer; the model knows nothing of the
memory behind the block. -/
def Block.sectorAt (data : Block) (off : ℕ) : Sector :=
  fun i => if h : off + i.val < 1024 then data ⟨off + i.val, h⟩ else 0

/-- Store 512 bytes at offset `off` of a buffer. -/
def Block.storeSector (data : Block) (off : ℕ) (sector : Sector) : Block :=
  fun i => if h : off ≤ i.val ∧ i.val - off < 512 then sector ⟨i.val - off, h.2⟩ else data i

/-- Two sectors make a block. -/
def joinSectors (lo hi : Sector) : Block :=
  fun i => if h : i.val < 512 then lo ⟨i.val, h⟩ else hi ⟨i.val - 512, by omega⟩

/-- The drive of a device number and the address on it of a sector of the device. -/
def Geometry.lba (geo : Geometry) (dev sector : ℕ) : ℕ :=
  (sector + (geo.partitionInfo (minor dev)).startSect) % 4294967296

/-- The contents on disk of block `block` of device `dev`. -/
def Sys.diskBlock (s : Sys n) (dev block : ℕ) : Block :=
  joinSectors (s.disk (minor dev / 5) (s.geo.lba dev (2 * block)))
    (s.disk (minor dev / 5) (s.geo.lba dev (2 * block + 1)))

/-! ## Ending a request -/

/-- `unlock_buff` -/
def unlockBuff (b : Fin n) (s : Sys n) : Sys n :=
  s.setBuf b fun bh => { bh with bLock := false }

/-- The request in service has left the queue. -/
@[simps] def Sys.dequeue (s : Sys n) (r : Fin nrRequest) : Sys n :=
  { s.setRequest r (fun req => { req with dev := -1 }) with current := (s.request r).next }

/-- `end_request` -/
def endRequest (uptodate : Bool) (s : Sys n) : Sys n :=
  match s.current with
  | none => s.note .nullAccess
  | some r =>
      match (s.request r).bh with
      | none => s.dequeue r
      | some b =>
          let s := unlockBuff b (s.setBuf b fun bh => { bh with bUptodate := uptodate })
          (s.dequeue r).note <| .ended b (s.request r).cmd uptodate (s.buf b).bData
            (s.diskBlock (s.buf b).bDev (s.buf b).bBlocknr)

/-! ## Talking to the controller -/

/-- `win_result`, as the truth value of "no error": the status byte is exactly
`READY_STAT | SEEK_STAT` under the mask of the five bits looked at. -/
def winResult (status : UInt8) : Bool := status &&& 0xF1 == 0x50

/-- The controller takes a command, and `h` is installed for its interrupt. -/
@[simps] def Sys.issue (s : Sys n) (c : Command) (h : Handler) : Sys n :=
  { s with
    handler := h
    ctl := { command := c, phase := 0, outstanding := true }
    log := .command c :: s.log }

/-- `hd_out` -/
def hdOut (c : Command) (h : Handler) : P n Unit := do
  if c.drive > 1 ∨ c.head > 15 then
    panic "Trying to write bad sector"
  else
    let ready ← Prog.ask Env.ready
    if ready then
      Prog.update (Sys.issue · c h)
    else
      panic "HD controller not ready"

/-- `reset_controller`: after the reset pulse, `WIN_SPECIFY` tells the drive its
geometry. -/
def resetController (dev : ℕ) : P n Unit := do
  let s ← Prog.read
  let info := s.geo.hdInfo dev
  hdOut ⟨dev, info.sect, info.sect, unsigned (info.head - 1), info.cyl, .specify, 0⟩ .recalIntr

/-- The sector the next data phase of the command transfers. -/
def Controller.sector (ctl : Controller) : ℕ := (ctl.command.lba + ctl.phase) % 4294967296

/-- `port_read(HD_DATA, CURRENT_REQUEST->buffer, 256)`: a data phase from the
controller to memory. -/
def portRead (ptr : Option (BufPtr n)) (s : Sys n) : Sys n :=
  match ptr with
  | none => s
  | some p =>
      let sector := s.disk s.ctl.command.drive s.ctl.sector
      let s := s.setBuf p.bh fun bh => { bh with bData := bh.bData.storeSector p.off sector }
      { s with ctl := { s.ctl with phase := s.ctl.phase + 1 }, log := .dataPhase p :: s.log }

/-- `port_write(HD_DATA, CURRENT_REQUEST->buffer, 256)`: a data phase from
memory to the controller. -/
def portWrite (ptr : Option (BufPtr n)) (s : Sys n) : Sys n :=
  match ptr with
  | none => s
  | some p =>
      let sector := (s.buf p.bh).bData.sectorAt p.off
      let drive := s.ctl.command.drive
      { s with
        disk := Function.update s.disk drive (Function.update (s.disk drive) s.ctl.sector sector)
        ctl := { s.ctl with phase := s.ctl.phase + 1 }
        log := .dataPhase p :: s.log }

/-- A command whose DRQ wait timed out is no longer outstanding. -/
@[simps] def Sys.drop (s : Sys n) : Sys n := { s with ctl := { s.ctl with outstanding := false } }

/-! ## Errors and the request loop -/

/-- `++CURRENT_REQUEST->errors`, with the new value. -/
def countError (env : Env n) (s : Sys n) : Sys n × ℕ :=
  match s.current with
  | none => (s.note .nullAccess, env.nullErrors s + 1)
  | some r =>
      (s.setRequest r fun req => { req with errors := req.errors + 1 }, (s.request r).errors + 1)

/-- `CURRENT_REQUEST->errors`, and the access it is. -/
def currentErrors (env : Env n) (s : Sys n) : Sys n × ℕ :=
  match s.current with
  | none => (s.note .nullAccess, env.nullErrors s)
  | some r => (s, (s.request r).errors)

/-- The fields of `CURRENT_REQUEST` that a message prints. -/
def printCurrent (s : Sys n) : Sys n :=
  match s.current with
  | none => s.note .nullAccess
  | some _ => s

/-- `if (CURRENT_REQUEST->errors > MAX_ERRORS/2) reset = 1` -/
def checkReset (env : Env n) (s : Sys n) : Sys n :=
  let (s, errors) := currentErrors env s
  if errors > maxErrors / 2 then { s with reset := true } else s

/-- `bad_rw_intr` -/
def badRwIntr (env : Env n) (s : Sys n) : Sys n :=
  let (s, errors) := countError env s
  checkReset env (if errors ≥ maxErrors then endRequest false s else s)

/-- A transfer failed: `bad_rw_intr`, and the message its callers print. -/
def failed : P n Unit := do
  let env ← Prog.ask fun env _ => env
  Prog.update fun s => printCurrent (badRwIntr env s)

/-- The test of `do_hd_request` that fails a request at once. -/
def outOfPartition (geo : Geometry) (dev sector : ℕ) : Bool :=
  minor dev ≥ geo.nrHd * 5 ∨
    (sector + 2) % 4294967296 > (geo.partitionInfo (minor dev)).nrSects

/-- The command for the request `req` at address `lba`, by the divisions of
`do_hd_request`. -/
def chsCommand (info : HdInfo) (drive lba nsect : ℕ) (cmd : Win) : Command :=
  { drive, nsect, cmd, lba
    sec := lba % info.sect + 1
    head := lba / info.sect % info.head
    cyl := lba / info.sect / info.head }

/-- The read or write command for the request in slot `r`. -/
def Sys.transferCommand (s : Sys n) (r : Fin nrRequest) (cmd : Win) : Command :=
  let dev := unsigned (s.request r).dev
  chsCommand (s.geo.hdInfo (minor dev / 5)) (minor dev / 5) (s.geo.lba dev (s.request r).sector)
    (s.request r).nrSectors cmd

/-- One pass of `do_hd_request` from the label `repeat`: `inl` is `goto repeat`. -/
def hdRequestPass : P n (Unit ⊕ Unit) := do
  let s ← Prog.read
  match s.current with
  | none => pure (.inr ())
  | some r =>
    let req := s.request r
    let dev := unsigned req.dev
    let drive := minor dev / 5
    let info := s.geo.hdInfo drive
    if major dev ≠ 3 then
      panic "harddisk: request list destroyed"
    else if req.bh.any fun b => !(s.buf b).bLock then
      panic "harddisk: block not locked"
    else if outOfPartition s.geo dev req.sector then do
      Prog.update (endRequest false)
      pure (.inl ())
    else if info.sect = 0 ∨ info.head = 0 then
      Prog.halt (.fault "division by zero")
    else if s.reset then do
      Prog.update fun s => { s with reset := false, recalibrate := true }
      resetController drive
      pure (.inr ())
    else if s.recalibrate then do
      Prog.update fun s => { s with recalibrate := false }
      hdOut ⟨drive, info.sect, 0, 0, 0, .restore, 0⟩ .recalIntr
      pure (.inr ())
    else
      if req.cmd = .write then do
        hdOut (s.transferCommand r .write) .writeIntr
        let drq ← Prog.ask Env.drq
        if drq then do
          Prog.update (portWrite req.buffer)
          pure (.inr ())
        else do
          Prog.update Sys.drop
          failed
          pure (.inl ())
      else if req.cmd = .read then do
        hdOut (s.transferCommand r .read) .readIntr
        pure (.inr ())
      else
        panic "unknown hd-command"

/-- `do_hd_request` -/
def doHdRequest : P n Unit := Prog.iterate (fun _ => hdRequestPass) ()

/-! ## The interrupt handlers -/

/-- `--nr_sectors`, on an `unsigned long`. -/
def oneLess (nrSectors : ℕ) : ℕ := (nrSectors + 4294967295) % 4294967296

/-- The request moves on to its next sector. -/
def Request.advance (req : Request n) : Request n :=
  { req with
    buffer := req.buffer.map fun p => { p with off := p.off + 512 }
    sector := (req.sector + 1) % 4294967296 }

/-- `read_intr` -/
def readIntr (ok : Bool) : P n Unit := do
  if ok then
    let s ← Prog.read
    match s.current with
    | none => Prog.update (Sys.note · .nullAccess)
    | some r =>
      Prog.update (portRead (s.request r).buffer)
      Prog.update (Sys.setRequest · r fun req =>
        { req.advance with errors := 0, nrSectors := oneLess req.nrSectors })
      if oneLess (s.request r).nrSectors ≠ 0 then
        Prog.update fun s => { s with handler := .readIntr }
      else do
        Prog.update (endRequest true)
        doHdRequest
  else do
    failed
    doHdRequest

/-- `write_intr` -/
def writeIntr (ok : Bool) : P n Unit := do
  if ok then
    let s ← Prog.read
    match s.current with
    | none => Prog.update (Sys.note · .nullAccess)
    | some r =>
      Prog.update (Sys.setRequest · r fun req => { req with nrSectors := oneLess req.nrSectors })
      if oneLess (s.request r).nrSectors ≠ 0 then do
        Prog.update (Sys.setRequest · r Request.advance)
        Prog.update fun s => { s with handler := .writeIntr }
        Prog.update fun s => portWrite (s.request r).buffer s
      else do
        Prog.update (endRequest true)
        doHdRequest
  else do
    failed
    doHdRequest

/-- `recal_intr` -/
def recalIntr (ok : Bool) : P n Unit := do
  if ok then
    doHdRequest
  else do
    failed
    doHdRequest

/-- The controller answers: it owes another interrupt when the current sector
was transferred without error and more sectors of the command follow. -/
def Controller.answer (ctl : Controller) (ok : Bool) : Controller :=
  { ctl with
    outstanding := ctl.outstanding && ok &&
      match ctl.command.cmd with
      | .read => decide (ctl.phase + 1 < ctl.command.nsect)
      | .write => decide (ctl.phase < ctl.command.nsect)
      | _ => false }

/-- Interrupt 14: the controller answers and the installed handler runs. -/
def hdInterrupt (i : Irq) : P n Unit := do
  let ok := winResult i.status
  Prog.update fun s => { s with ctl := s.ctl.answer ok }
  let s ← Prog.read
  match s.handler with
  | .none => pure ()
  | .readIntr => readIntr ok
  | .writeIntr => writeIntr ok
  | .recalIntr => recalIntr ok

/-! ## Where interrupts happen -/

/-- At most `j` interrupts, as long as the environment raises one. -/
def interrupts : ℕ → P n Unit
  | 0 => pure ()
  | j + 1 => do
      let i ← Prog.ask Env.irq
      match i with
      | none => pure ()
      | some i => do
          hdInterrupt i
          Prog.update Sys.tick
          interrupts j

/-- A point of the code at which interrupts arrive, if they are enabled. -/
def poll : P n Unit := do
  Prog.update Sys.tick
  let s ← Prog.read
  if s.intr then do
    let burst ← Prog.ask Env.burst
    interrupts burst
  else
    pure ()

end EgGS
