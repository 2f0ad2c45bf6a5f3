import Mathlib.Data.Nat.Notation
import Mathlib.Logic.Basic
import Mathlib.Order.Basic
import Mathlib.Tactic.Common

/-!
# A 32-bit machine with a stack in its memory

The part of the `x86` that the entry code of an interrupt uses: byte memory, the registers and
segment registers, and the instructions that push and pop them.  The stack grows down, and the
words on it are a list: a push puts a word in front of the list and changes no byte at or above
the old stack pointer, a pop takes the first word away.
-/

namespace EgGS.Lib

/-! ## Byte memory -/

/-- Byte memory. -/
abbrev Ram := BitVec 32 → BitVec 8

namespace Ram

variable {m m' : Ram} {a x : BitVec 32} {v w : BitVec 32} {ws : List (BitVec 32)}

/-- The word at an address, lowest byte first. -/
def load (m : Ram) (a : BitVec 32) : BitVec 32 := m (a + 3) ++ m (a + 2) ++ m (a + 1) ++ m a

/-- Store a word. -/
def store (m : Ram) (a v : BitVec 32) : Ram := fun x =>
  if (x - a).toNat < 4 then v.extractLsb' (8 * (x - a).toNat) 8 else m x

theorem store_of_ge (h : 4 ≤ (x - a).toNat) : m.store a v x = m x := if_neg (by omega)

theorem load_congr (h : ∀ x, (x - a).toNat < 4 → m x = m' x) : m.load a = m'.load a := by
  have h0 : m a = m' a := h a (by simp)
  have h1 : m (a + 1) = m' (a + 1) := h _ (by bv_omega)
  have h2 : m (a + 2) = m' (a + 2) := h _ (by bv_omega)
  have h3 : m (a + 3) = m' (a + 3) := h _ (by bv_omega)
  simp only [load, h0, h1, h2, h3]

/-- A word is made of its bytes. -/
theorem append_bytes (v : BitVec 32) :
    v.extractLsb' 24 8 ++ v.extractLsb' 16 8 ++ v.extractLsb' 8 8 ++ v.extractLsb' 0 8 = v := by
  ext i hi
  simp only [BitVec.getElem_append, BitVec.getElem_extractLsb']
  split
  · rw [Nat.zero_add]
    exact BitVec.getLsbD_eq_getElem hi
  · split
    · rw [show 8 + (i - 8) = i by omega]
      exact BitVec.getLsbD_eq_getElem hi
    · split
      · rw [show 16 + (i - 8 - 8) = i by omega]
        exact BitVec.getLsbD_eq_getElem hi
      · rw [show 24 + (i - 8 - 8 - 8) = i by omega]
        exact BitVec.getLsbD_eq_getElem hi

/-- A word that was stored is loaded. -/
theorem load_store_self (m : Ram) (a v : BitVec 32) : (m.store a v).load a = v := by
  have h0 : (a - a).toNat = 0 := by simp
  have h1 : (a + 1 - a).toNat = 1 := by bv_omega
  have h2 : (a + 2 - a).toNat = 2 := by bv_omega
  have h3 : (a + 3 - a).toNat = 3 := by bv_omega
  simp only [load, store, h0, h1, h2, h3]
  exact append_bytes v

/-! ### Words one after the other -/

/-- The words from an address on. -/
def Holds (m : Ram) (a : BitVec 32) : List (BitVec 32) → Prop
  | [] => True
  | w :: ws => m.load a = w ∧ Holds m (a + 4) ws

@[simp] theorem holds_nil : Holds m a [] := trivial

@[simp] theorem holds_cons : Holds m a (w :: ws) ↔ m.load a = w ∧ Holds m (a + 4) ws := Iff.rfl

theorem Holds.congr (h : Holds m a ws) (hlen : 4 * ws.length ≤ 4294967296)
    (heq : ∀ x, (x - a).toNat < 4 * ws.length → m x = m' x) : Holds m' a ws := by
  induction ws generalizing a with
  | nil => trivial
  | cons w ws ih =>
      rw [List.length_cons] at hlen heq
      have hload : m'.load a = m.load a := load_congr fun x hx => (heq x (by omega)).symm
      refine ⟨hload.trans h.1, ih h.2 (by omega) fun x hx => ?_⟩
      by_cases hlow : (x - a).toNat < 4
      · exact heq x (by omega)
      · exact heq x (by bv_omega)

theorem Holds.left {us : List (BitVec 32)} (h : Holds m a (us ++ ws)) : Holds m a us := by
  induction us generalizing a with
  | nil => trivial
  | cons w us ih => exact ⟨h.1, ih h.2⟩

/-- A word in front of the others. -/
theorem Holds.push (h : Holds m a ws) (hlen : 4 * (ws.length + 1) ≤ 4294967296) (v : BitVec 32) :
    Holds (m.store (a - 4) v) (a - 4) (v :: ws) := by
  refine ⟨load_store_self m _ v, ?_⟩
  rw [BitVec.sub_add_cancel]
  exact h.congr (by omega) fun x hx => (store_of_ge (by bv_omega)).symm

end Ram

/-! ## Registers and instructions -/

/-- The general registers. -/
inductive Reg
  | edi | esi | ebp | esp | ebx | edx | ecx | eax
  deriving DecidableEq

/-- The segment registers of data. -/
inductive Seg
  | gs | fs | es | ds
  deriving DecidableEq

/-- The processor and its memory. -/
structure Cpu where
  reg : Reg → BitVec 32
  seg : Seg → BitVec 16
  cs : BitVec 16
  eip : BitVec 32
  eflags : BitVec 32
  ram : Ram

/-- The instructions of the entry code. -/
inductive Instr
  | cli | sti
  | pushl (v : BitVec 32)
  | pushReg (r : Reg) | popReg (r : Reg)
  | pushSeg (g : Seg) | popSeg (g : Seg)
  | pusha | popa
  | movAx (v : BitVec 16)
  | movSeg (g : Seg)
  | mov (dst src : Reg)
  | add (r : Reg) (v : BitVec 32)

namespace Cpu

variable {c d : Cpu} {r r' : Reg} {g : Seg} {v w : BitVec 32} {ws : List (BitVec 32)}

/-- Set a register. -/
def set (r : Reg) (v : BitVec 32) (c : Cpu) : Cpu :=
  { c with reg := fun r' => if r' = r then v else c.reg r' }

/-- Set a segment register. -/
def setSeg (g : Seg) (v : BitVec 16) (c : Cpu) : Cpu :=
  { c with seg := fun g' => if g' = g then v else c.seg g' }

/-- Push a word. -/
def push (v : BitVec 32) (c : Cpu) : Cpu :=
  { c.set .esp (c.reg .esp - 4) with ram := c.ram.store (c.reg .esp - 4) v }

/-- The word on top of the stack. -/
def top (c : Cpu) : BitVec 32 := c.ram.load (c.reg .esp)

/-- Drop the word on top of the stack. -/
def drop (c : Cpu) : Cpu := c.set .esp (c.reg .esp + 4)

/-- Pop a word into a register. -/
def pop (r : Reg) (c : Cpu) : Cpu := c.drop.set r c.top

/-- The arithmetic flags of a sum: carry, parity, auxiliary carry, zero, sign and overflow. -/
def addFlags (flags x y : BitVec 32) : BitVec 32 :=
  let sum := x + y
  let bit (b : Bool) (i : ℕ) : BitVec 32 := if b then BitVec.twoPow 32 i else 0
  (flags &&& ~~~0x8D5#32) ||| bit (sum < x) 0 |||
    bit ((List.range 8).countP (sum.getLsbD ·) % 2 = 0) 2 |||
    bit (x.toNat % 16 + y.toNat % 16 ≥ 16) 4 ||| bit (sum = 0) 6 ||| bit sum.msb 7 |||
    bit (x.msb = y.msb ∧ sum.msb ≠ x.msb) 11

/-- The interrupt flag. -/
def interruptFlag : BitVec 32 := 0x200

/-- One instruction.  A segment register is pushed with zeros in front; `eip` is not followed. -/
def exec1 : Instr → Cpu → Cpu
  | .cli, c => { c with eflags := c.eflags &&& ~~~interruptFlag }
  | .sti, c => { c with eflags := c.eflags ||| interruptFlag }
  | .pushl v, c => c.push v
  | .pushReg r, c => c.push (c.reg r)
  | .popReg r, c => c.pop r
  | .pushSeg g, c => c.push ((c.seg g).setWidth 32)
  | .popSeg g, c => c.drop.setSeg g (c.top.setWidth 16)
  | .pusha, c =>
      (((((((c.push (c.reg .eax)).push (c.reg .ecx)).push (c.reg .edx)).push (c.reg .ebx)).push
        (c.reg .esp)).push (c.reg .ebp)).push (c.reg .esi)).push (c.reg .edi)
  | .popa, c =>
      (((((((c.pop .edi).pop .esi).pop .ebp).drop.pop .ebx).pop .edx).pop .ecx).pop .eax)
  | .movAx v, c => c.set .eax (c.reg .eax >>> 16 <<< 16 ||| v.setWidth 32)
  | .movSeg g, c => c.setSeg g ((c.reg .eax).setWidth 16)
  | .mov dst src, c => c.set dst (c.reg src)
  | .add r v, c => { c.set r (c.reg r + v) with eflags := addFlags c.eflags (c.reg r) v }

/-- A sequence of instructions. -/
def exec (code : List Instr) (c : Cpu) : Cpu := code.foldl (fun c i => exec1 i c) c

@[simp] theorem exec_nil : exec [] c = c := rfl

@[simp] theorem exec_cons (i : Instr) (code : List Instr) :
    exec (i :: code) c = exec code (exec1 i c) := rfl

theorem exec_append (code code' : List Instr) (c : Cpu) :
    exec (code ++ code') c = exec code' (exec code c) :=
  List.foldl_append

/-- The processor takes an interrupt through an interrupt gate, without a change of privilege: it
pushes `eflags`, `cs` and `eip`, and clears the flags `TF`, `IF`, `NT`, `RF` and `VM`. -/
def interrupt (sel : BitVec 16) (base : BitVec 32) (c : Cpu) : Cpu :=
  { ((c.push c.eflags).push (c.cs.setWidth 32)).push c.eip with
    cs := sel
    eip := base
    eflags := c.eflags &&& ~~~0x34300#32 }

/-- `iret`, without a change of privilege. -/
def iret (c : Cpu) : Cpu :=
  { c.drop.drop.drop with
    eip := c.top
    cs := c.drop.top.setWidth 16
    eflags := c.drop.drop.top }

/-! ## The words on the stack -/

/-- The words were pushed since the state `c`. -/
structure Pushed (c : Cpu) (ws : List (BitVec 32)) (d : Cpu) : Prop where
  esp : d.reg .esp + BitVec.ofNat 32 (4 * ws.length) = c.reg .esp
  holds : d.ram.Holds (d.reg .esp) ws
  outside : ∀ x, 4 * ws.length ≤ (x - d.reg .esp).toNat → d.ram x = c.ram x

theorem Pushed.refl (c : Cpu) : Pushed c [] c := ⟨by simp, trivial, fun _ _ => rfl⟩

/-- **A push** puts a word in front. -/
theorem Pushed.push (h : Pushed c ws d) (hlen : ws.length + 1 < 1073741824) (v : BitVec 32) :
    Pushed c (v :: ws) (d.push v) := by
  have hesp : (d.push v).reg .esp = d.reg .esp - 4 := by simp [Cpu.push, Cpu.set]
  constructor
  · have hold := h.esp
    rw [hesp, List.length_cons]
    bv_omega
  · rw [hesp]
    exact h.holds.push (by omega) v
  · intro x hx
    rw [hesp, List.length_cons] at hx
    show (d.ram.store (d.reg .esp - 4) v) x = c.ram x
    rw [Ram.store_of_ge (by omega)]
    exact h.outside x (by bv_omega)

/-- Nothing but the registers changed. -/
theorem Pushed.congr (h : Pushed c ws d) {e : Cpu} (hesp : e.reg .esp = d.reg .esp)
    (hram : e.ram = d.ram) :
    Pushed c ws e :=
  ⟨by rw [hesp]; exact h.esp, by rw [hesp, hram]; exact h.holds, fun x hx => by
    rw [hram]; exact h.outside x (hesp ▸ hx)⟩

/-- `pusha` -/
theorem Pushed.pusha (h : Pushed c ws d) (hlen : ws.length + 8 < 1073741824) :
    Pushed c (d.reg .edi :: d.reg .esi :: d.reg .ebp :: d.reg .esp :: d.reg .ebx :: d.reg .edx ::
      d.reg .ecx :: d.reg .eax :: ws) (exec1 .pusha d) := by
  have h1 := h.push (by omega) (d.reg .eax)
  have h2 := h1.push (by simp only [List.length_cons]; omega) (d.reg .ecx)
  have h3 := h2.push (by simp only [List.length_cons]; omega) (d.reg .edx)
  have h4 := h3.push (by simp only [List.length_cons]; omega) (d.reg .ebx)
  have h5 := h4.push (by simp only [List.length_cons]; omega) (d.reg .esp)
  have h6 := h5.push (by simp only [List.length_cons]; omega) (d.reg .ebp)
  have h7 := h6.push (by simp only [List.length_cons]; omega) (d.reg .esi)
  exact h7.push (by simp only [List.length_cons]; omega) (d.reg .edi)

end Cpu

end EgGS.Lib
