import EgGS.Model.Trap

/-!
# Interrupt routines (`irq.c`, `timer.c`) and the two interrupt controllers

The functions in C of `irq.c`, the two 8259 controllers that they program, and the clock.  A
controller keeps the sets of the lines that are requested, in service and masked; line 0 comes
first.  The second controller asks on line 2 of the first.  Of the command words, those that the
code sends are modelled: the initialisation, the mask and the end of an interrupt.
-/

namespace EgGS

/-! ## The controllers -/

/-- What the data port of a controller takes next. -/
inductive PicStep where
  | mask
  | icw2
  | icw3
  | icw4
  deriving DecidableEq

/-- An 8259: the lines that are requested, in service and masked, and the command words. -/
structure Pic where
  irr : Finset (Fin 8)
  isr : Finset (Fin 8)
  imr : Finset (Fin 8)
  base : ℕ
  cascade : BitVec 8
  step : PicStep
  single : Bool
  needsIcw4 : Bool
  autoEnd : Bool

/-- The first of some lines. -/
def firstLine (lines : Finset (Fin 8)) : Option (Fin 8) := (List.finRange 8).find? (· ∈ lines)

namespace Pic

/-- The command port: `ICW1`, or the end of the first interrupt in service. -/
def command (p : Pic) (v : BitVec 8) : Pic :=
  if v.getLsbD 4 then
    { p with
      irr := ∅
      imr := ∅
      step := .icw2
      single := v.getLsbD 1
      needsIcw4 := v.getLsbD 0
      autoEnd := false }
  else if v &&& 0xF8 = 0x20 then
    { p with isr := (firstLine p.isr).elim p.isr p.isr.erase }
  else p

/-- The step behind the third command word. -/
def afterIcw3 (p : Pic) : PicStep := if p.needsIcw4 then .icw4 else .mask

/-- The data port. -/
def data (p : Pic) (v : BitVec 8) : Pic :=
  match p.step with
  | .icw2 => { p with base := (v &&& 0xF8).toNat, step := if p.single then p.afterIcw3 else .icw3 }
  | .icw3 => { p with cascade := v, step := p.afterIcw3 }
  | .icw4 => { p with autoEnd := v.getLsbD 1, step := .mask }
  | .mask => { p with imr := Finset.univ.filter fun i => v.getLsbD i }

/-- The line that a controller asks for where `lines` are requested: it is not masked, and neither
it nor a line before it is in service. -/
def output (p : Pic) (lines : Finset (Fin 8)) : Option (Fin 8) :=
  (List.finRange 8).find? fun i => i ∈ lines ∧ i ∉ p.imr ∧ ∀ j ∈ p.isr, i < j

/-- A line goes into service. -/
def serve (p : Pic) (i : Fin 8) : Pic :=
  { p with irr := p.irr.erase i, isr := if p.autoEnd then p.isr else insert i p.isr }

end Pic

/-! ## `irq.c` -/

/-- The two controllers, and `irq_routines` with routines of type `ρ`. -/
structure IrqState (ρ : Type) where
  master : Pic
  slave : Pic
  routines : Fin 16 → Option ρ

variable {ρ : Type}

/-- `outb` to a port of the controllers. -/
def picOutb (s : IrqState ρ) (value : BitVec 8) (port : ℕ) : IrqState ρ :=
  if port = 0x20 then { s with master := s.master.command value }
  else if port = 0x21 then { s with master := s.master.data value }
  else if port = 0xA0 then { s with slave := s.slave.command value }
  else if port = 0xA1 then { s with slave := s.slave.data value }
  else s

/-- `irq_install_handler` -/
def irqInstallHandler (irq : Fin 16) (handler : ρ) (s : IrqState ρ) : IrqState ρ :=
  { s with routines := Function.update s.routines irq (some handler) }

/-- `irq_uninstall_handler` -/
def irqUninstallHandler (irq : Fin 16) (s : IrqState ρ) : IrqState ρ :=
  { s with routines := Function.update s.routines irq none }

/-- `irq_remap` -/
def irqRemap (s : IrqState ρ) : IrqState ρ :=
  -- the first word: two controllers, and a fourth word follows
  let s := picOutb s 0x11 0x20
  let s := picOutb s 0x11 0xA0
  -- the numbers of their interrupts, from 32 and from 40 on
  let s := picOutb s 0x20 0x21
  let s := picOutb s 0x28 0xA1
  -- the line that joins them: a mask for the first, a number for the second
  let s := picOutb s 0x04 0x21
  let s := picOutb s 0x02 0xA1
  -- interrupts end by command
  let s := picOutb s 0x01 0x21
  let s := picOutb s 0x01 0xA1
  -- no line is masked
  let s := picOutb s 0x0 0x21
  picOutb s 0x0 0xA1

/-- `irq_handler` up to the call, with the routine that it calls.  A number whose routine would lie
outside the table is not followed. -/
def irqHandler (intNo : ℕ) (s : IrqState ρ) : Option (Option ρ × IrqState ρ) :=
  let s := if intNo ≥ 40 then picOutb s 0x20 0xA0 else s
  let s := picOutb s 0x20 0x20
  if h : 32 ≤ intNo ∧ intNo - 32 < 16 then some (s.routines ⟨intNo - 32, h.2⟩, s) else none

/-! ## Hardware -/

/-- A device raises its line. -/
def raiseLine (line : Fin 16) (s : IrqState ρ) : IrqState ρ :=
  if h : line.val < 8 then
    { s with master := { s.master with irr := insert ⟨line, h⟩ s.master.irr } }
  else
    { s with slave := { s.slave with irr := insert ⟨line - 8, by omega⟩ s.slave.irr } }

/-- The lines that are requested at the first controller. -/
def masterLines (s : IrqState ρ) : Finset (Fin 8) :=
  if (s.slave.output s.slave.irr).isSome then insert 2 s.master.irr else s.master.irr

/-- The processor takes an interrupt, if there is one, and learns its number: on a line with a
second controller, from that one. -/
def acknowledge (s : IrqState ρ) : Option (ℕ × IrqState ρ) :=
  match s.master.output (masterLines s) with
  | none => none
  | some i =>
    if s.master.cascade.getLsbD i then
      if (s.slave.cascade.setWidth 3).toNat = i then
        match s.slave.output s.slave.irr with
        | none => none
        | some j =>
          some (s.slave.base + j.val,
            { s with master := s.master.serve i, slave := s.slave.serve j })
      else none
    else some (s.master.base + i.val, { s with master := s.master.serve i })

/-- What happens to the controllers and the table of routines.  An interrupt is taken only where no
other is being entered. -/
inductive IrqEvent (ρ : Type) where
  | raise (line : Fin 16)
  | install (irq : Fin 16) (handler : ρ)
  | uninstall (irq : Fin 16)
  | interrupt

/-- One event, with the number of the interrupt that is taken and the routine that is called. -/
def IrqState.event (s : IrqState ρ) : IrqEvent ρ → Option (List (ℕ × Option ρ) × IrqState ρ)
  | .raise line => some ([], raiseLine line s)
  | .install irq handler => some ([], irqInstallHandler irq handler s)
  | .uninstall irq => some ([], irqUninstallHandler irq s)
  | .interrupt =>
    match acknowledge s with
    | none => some ([], s)
    | some (intNo, s) =>
      match irqHandler intNo s with
      | none => none
      | some (handler, s) => some ([(intNo, handler)], s)

/-- A run of events, with the interrupts that are taken; it ends without a result where
`irq_handler` leaves its table. -/
def IrqState.run (s : IrqState ρ) : List (IrqEvent ρ) → Option (List (ℕ × Option ρ) × IrqState ρ)
  | [] => some ([], s)
  | e :: es =>
    match s.event e with
    | none => none
    | some (out, s) => (s.run es).map fun r => (out ++ r.1, r.2)

/-! ## `timer.c` -/

/-- `timer_handler`; every 18th tick it prints nothing. -/
def timerHandler (timerTicks : BitVec 32) : BitVec 32 := timerTicks + 1

/-- `timer_install`; `timer` is the address of `timer_handler`. -/
def timerInstall (timer : ρ) (s : IrqState ρ) : IrqState ρ := irqInstallHandler 0 timer s

/-- `timer_ticks` after some interrupts. -/
def timerTicks [DecidableEq ρ] (timer : ρ) (ticks : BitVec 32) (taken : List (ℕ × Option ρ)) :
    BitVec 32 :=
  taken.foldl (fun ticks r => if r.2 = some timer then timerHandler ticks else ticks) ticks

/-- `timer_wait`, called at `now`: the number of the test that ends the loop, where the tests find
these values of `timer_ticks`. -/
def timerWait (now ticks : BitVec 32) (seen : List (BitVec 32)) : Option ℕ :=
  let eticks := now + ticks
  seen.findIdx? fun value => !(value < eticks)

end EgGS
