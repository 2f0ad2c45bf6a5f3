import EgGS.Lib.Machine
import EgGS.Model.State
import Mathlib.Data.List.FinRange

/-!
# Descriptor tables and entry code (`gdt.c`, `idt.c`, `isrs.c`, `irq.c`)

The two descriptor tables with the functions that fill them, the assembly code at the entry of
an exception or an interrupt, and the frame that it leaves for the function in C.  The addresses
of the entries `isr0`, …, `isr31` and `irq0`, …, `irq15` are parameters.

What the processor reads out of a descriptor is defined beside it.
-/

namespace EgGS

open Lib

instance neZero_irqs : NeZero 16 := ⟨by decide⟩

/-! ## `gdt.c` -/

/-- `struct gdt_entry` -/
structure GdtEntry where
  limitLow : BitVec 16
  baseLow : BitVec 16
  baseMiddle : BitVec 8
  access : BitVec 8
  granularity : BitVec 8
  baseHigh : BitVec 8

/-- `gdt` -/
abbrev Gdt := Fin 3 → GdtEntry

/-- `gdt_set_gate` -/
def gdtSetGate (num : Fin 3) (base limit : BitVec 32) (access gran : BitVec 8) (gdt : Gdt) : Gdt :=
  Function.update gdt num
    { baseLow := (base &&& 0xFFFF).setWidth 16
      baseMiddle := ((base >>> 16) &&& 0xFF).setWidth 8
      baseHigh := ((base >>> 24) &&& 0xFF).setWidth 8
      limitLow := (limit &&& 0xFFFF).setWidth 16
      granularity := ((limit >>> 16) &&& 0x0F).setWidth 8 ||| (gran &&& 0xF0)
      access := access }

/-- `gdt_install`, without the flush. -/
def gdtInstall (gdt : Gdt) : Gdt :=
  gdtSetGate 1 0 0xFFFFFFFF 0x92 0xCF
    (gdtSetGate 2 0 0xFFFFFFFF 0x9A 0xCF (gdtSetGate 0 0 0 0 0 gdt))

/-- `GDT_FLUSH` loads the segment registers.  `ax`, which it uses, and `ss`, which gets the
selector of `ds`, are not modelled. -/
def gdtFlush (c : Cpu) : Cpu := { c with cs := 0x10, seg := fun _ => 0x08 }

/-- A segment as the processor sees it. -/
structure Segment where
  base : BitVec 32
  last : ℕ
  present : Bool
  ring : BitVec 2
  memory : Bool
  code : Bool
  writable : Bool
  wide : Bool
  deriving DecidableEq

/-- What the processor reads out of an entry: `last` is the last offset in the segment. -/
def GdtEntry.segment (e : GdtEntry) : Segment where
  base := e.baseHigh ++ e.baseMiddle ++ e.baseLow
  last :=
    let limit := (e.granularity.setWidth 4 ++ e.limitLow).toNat
    if e.granularity.getLsbD 7 then limit * 4096 + 4095 else limit
  present := e.access.getLsbD 7
  ring := e.access.extractLsb' 5 2
  memory := e.access.getLsbD 4
  code := e.access.getLsbD 3
  writable := e.access.getLsbD 1
  wide := e.granularity.getLsbD 6

/-- The segment that a selector names: bit 2 chooses the other kind of table, and index 0 none. -/
def Gdt.select (gdt : Gdt) (sel : BitVec 16) : Option Segment :=
  let index := sel.toNat / 8
  if h : index < 3 then
    if sel.getLsbD 2 ∨ index = 0 then none else some (gdt ⟨index, h⟩).segment
  else
    none

/-! ## `idt.c` -/

/-- `struct idt_entry` -/
structure IdtEntry where
  baseLo : BitVec 16
  sel : BitVec 16
  always0 : BitVec 8
  flags : BitVec 8
  baseHi : BitVec 16

/-- `idt`; the index is an `unsigned char`. -/
abbrev Idt := BitVec 8 → IdtEntry

/-- `idt_set_gate` -/
def idtSetGate (num : BitVec 8) (base : BitVec 32) (sel : BitVec 16) (flags : BitVec 8)
    (idt : Idt) : Idt :=
  Function.update idt num
    { baseLo := (base &&& 0xFFFF).setWidth 16
      baseHi := ((base >>> 16) &&& 0xFFFF).setWidth 16
      sel := sel
      always0 := 0
      flags := flags }

/-- `idt_install` clears the table. -/
def idtInstall (_ : Idt) : Idt := fun _ => ⟨0, 0, 0, 0, 0⟩

/-- A gate as the processor sees it. -/
structure Gate where
  sel : BitVec 16
  offset : BitVec 32
  ring : BitVec 2
  deriving DecidableEq

/-- The 32-bit interrupt gate in an entry, if it is present. -/
def IdtEntry.gate (e : IdtEntry) : Option Gate :=
  if e.flags.getLsbD 7 ∧ e.flags.setWidth 5 = 14#5 then
    some ⟨e.sel, e.baseHi ++ e.baseLo, e.flags.extractLsb' 5 2⟩
  else
    none

/-! ## Entry code -/

/-- `struct regs`, up to the last word that the processor pushes. -/
structure Regs where
  gs : BitVec 32
  fs : BitVec 32
  es : BitVec 32
  ds : BitVec 32
  edi : BitVec 32
  esi : BitVec 32
  ebp : BitVec 32
  esp : BitVec 32
  ebx : BitVec 32
  edx : BitVec 32
  ecx : BitVec 32
  eax : BitVec 32
  intNo : BitVec 32
  errCode : BitVec 32
  eip : BitVec 32
  cs : BitVec 32
  eflags : BitVec 32
  deriving DecidableEq

/-- The words of a frame, from the lowest address on. -/
def Regs.words (r : Regs) : List (BitVec 32) :=
  [r.gs, r.fs, r.es, r.ds, r.edi, r.esi, r.ebp, r.esp, r.ebx, r.edx, r.ecx, r.eax, r.intNo,
    r.errCode, r.eip, r.cs, r.eflags]

/-- `struct regs *r` -/
def Regs.at (m : Ram) (r : BitVec 32) : Regs where
  gs := m.load r
  fs := m.load (r + 4)
  es := m.load (r + 8)
  ds := m.load (r + 12)
  edi := m.load (r + 16)
  esi := m.load (r + 20)
  ebp := m.load (r + 24)
  esp := m.load (r + 28)
  ebx := m.load (r + 32)
  edx := m.load (r + 36)
  ecx := m.load (r + 40)
  eax := m.load (r + 44)
  intNo := m.load (r + 48)
  errCode := m.load (r + 52)
  eip := m.load (r + 56)
  cs := m.load (r + 60)
  eflags := m.load (r + 64)

/-- The numbers of the entries that rely on an error code of the processor. -/
def bareIsrs : List (Fin 32) := [8, 10, 11, 12, 13, 14]

/-- `isr0`, …, `isr31`, up to the jump. -/
def isr (v : Fin 32) : List Instr :=
  if v ∈ bareIsrs then [.cli, .pushl v.val] else [.cli, .pushl 0, .pushl v.val]

/-- `irq0`, …, `irq15`, up to the jump. -/
def irq (k : Fin 16) : List Instr := [.cli, .pushl 0, .pushl (32 + k.val : ℕ)]

/-- `isr_common_stub` and `irq_common_stub` up to the call. -/
def saveState : List Instr :=
  [.pusha, .pushSeg .ds, .pushSeg .es, .pushSeg .fs, .pushSeg .gs, .movAx 0x08, .movSeg .ds,
    .movSeg .es, .movSeg .fs, .movSeg .gs, .mov .eax .esp, .pushReg .eax]

/-- The common stubs after the call, up to `iret`. -/
def restoreState : List Instr :=
  [.popReg .eax, .popSeg .gs, .popSeg .fs, .popSeg .es, .popSeg .ds, .popa, .add .esp 8, .sti]

/-- The state in which the function in C is entered: a call pushes the address behind it. -/
def enter (stub : List Instr) (back : BitVec 32) (c : Cpu) : Cpu :=
  (Cpu.exec (stub ++ saveState) c).push back

/-- What follows the call. -/
def leave (c : Cpu) : Cpu := (Cpu.exec restoreState c).iret

/-- The argument of the function in C. -/
def frame (c : Cpu) : Regs := Regs.at c.ram (c.ram.load (c.reg .esp + 4))

/-! ## `isrs.c` -/

/-- The exceptions for which an 80486 pushes an error code. -/
def errorCodes : List (Fin 32) := [8, 10, 11, 12, 13, 14, 17]

/-- The processor raises an exception. -/
def raiseException (gate : Gate) (v : Fin 32) (code : BitVec 32) (c : Cpu) : Cpu :=
  if v ∈ errorCodes then (c.interrupt gate.sel gate.offset).push code
  else c.interrupt gate.sel gate.offset

/-- `exception_messages` -/
def exceptionMessages : List String :=
  ["Division By Zero", "Debug", "Non Maskable Interrupt", "Breakpoint", "Into Detected Overflow",
    "Out of Bounds", "Invalid Opcode", "No Coprocessor", "Double Fault",
    "Coprocessor Segment Overrun", "Bad TSS", "Segment Not Present", "Stack Fault",
    "General Protection Fault", "Page Fault", "Unknown Interrupt", "Coprocessor Fault",
    "Alignment Check", "Machine Check", "Reserved", "Reserved", "Reserved", "Reserved", "Reserved",
    "Reserved", "Reserved", "Reserved", "Reserved", "Reserved", "Reserved", "Reserved", "Reserved"]

/-- `fault_handler`: the texts it prints before it loops for ever, and `none` if it returns. -/
def faultHandler (r : Regs) : Option (List String) :=
  if r.intNo.toNat < 32 then
    exceptionMessages[r.intNo.toNat]?.map fun text => [text, " Exception. System Halted!\n"]
  else
    none

/-- `isrs_install` -/
def isrsInstall (isrAt : Fin 32 → BitVec 32) (idt : Idt) : Idt :=
  (List.finRange 32).foldl (fun idt v => idtSetGate v.val (isrAt v) 0x10 0x8E idt) idt

/-- The gates of `irq_install`. -/
def irqGates (irqAt : Fin 16 → BitVec 32) (idt : Idt) : Idt :=
  (List.finRange 16).foldl (fun idt k => idtSetGate (32 + k.val : ℕ) (irqAt k) 0x10 0x8E idt) idt

end EgGS
