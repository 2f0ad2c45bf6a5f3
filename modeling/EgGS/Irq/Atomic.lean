import EgGS.Irq.Frames
import EgGS.Irq.Tables

/-!
# An interrupt is one step

The code that an interrupt runs, from the gate over the entry and the common stub through the
function in C back to `iret`, does to the interrupted code what the function does to the memory,
and nothing else: no register changes, and no byte but those below the stack pointer.

So a run in which interrupts arrive between any two instructions is, for whoever does not look
below the stack pointer, a run in which the function is one step.  The model of the disk driver
takes an interrupt as such a step.
-/

namespace EgGS

open Lib

variable {lo hi back : BitVec 32} {effect : BitVec 32 → Ram → Ram} {call : Cpu → Cpu → Prop}
variable {instr : Cpu → Cpu} {idt : Idt} {code : BitVec 32 → List Instr} {c d e : Cpu} {k : Fin 16}

/-! ## States that are the same to the interrupted code -/

/-- Two states that differ in the memory from `lo` to the stack pointer, if anywhere. -/
structure Same (lo : BitVec 32) (c d : Cpu) : Prop where
  reg : c.reg = d.reg
  seg : c.seg = d.seg
  cs : c.cs = d.cs
  eip : c.eip = d.eip
  eflags : c.eflags = d.eflags
  ram : ∀ x, ¬ (lo ≤ x ∧ x < c.reg .esp) → c.ram x = d.ram x

theorem Same.refl (lo : BitVec 32) (c : Cpu) : Same lo c c :=
  ⟨rfl, rfl, rfl, rfl, rfl, fun _ _ => rfl⟩

theorem Same.trans (h : Same lo c d) (h' : Same lo d e) : Same lo c e :=
  ⟨h.reg.trans h'.reg, h.seg.trans h'.seg, h.cs.trans h'.cs, h.eip.trans h'.eip,
    h.eflags.trans h'.eflags, fun x hx => (h.ram x hx).trans (h'.ram x (h.reg ▸ hx))⟩

/-! ## The function in C -/

/-- The compiled function keeps to the calling convention: it returns to where it was called from,
and beyond its own stack and its argument it does `effect`, which works on the data of the kernel
and looks at nothing but `int_no` in the frame. -/
structure Obeys (lo hi : BitVec 32) (effect : BitVec 32 → Ram → Ram) (call : Cpu → Cpu → Prop) :
    Prop where
  returns : ∀ c d, call c d → d.reg .esp = c.reg .esp + 4
  does : ∀ c d, call c d → ∀ x, ¬ (lo ≤ x ∧ x < c.reg .esp + 8) →
    d.ram x = effect (frame c).intNo c.ram x
  stack : ∀ n m x, lo ≤ x → x < hi → effect n m x = m x
  blind : ∀ n m m' a, a ≤ hi → (∀ x, ¬ (lo ≤ x ∧ x < a) → m x = m' x) →
    ∀ x, ¬ (lo ≤ x ∧ x < a) → effect n m x = effect n m' x

/-- Interrupt `k` is taken, through its gate, and returned from. -/
structure Interrupted (code : BitVec 32 → List Instr) (idt : Idt) (call : Cpu → Cpu → Prop)
    (k : Fin 16) (c : Cpu) (g : Gate) (back : BitVec 32) (e d : Cpu) : Prop where
  enabled : c.eflags &&& Cpu.interruptFlag ≠ 0
  gate : (idt ((32 + k.val : ℕ) : BitVec 8)).gate = some g
  call : call (enter (code g.offset) back (c.interrupt g.sel g.offset)) e
  leave : d = leave e

/-- The function as one step. -/
def atomic (effect : BitVec 32 → Ram → Ram) (k : Fin 16) (c : Cpu) : Cpu :=
  { c with ram := effect ((32 + k.val : ℕ) : BitVec 32) c.ram }

theorem Same.atomic (hobeys : Obeys lo hi effect call) (h : Same lo c d) (hhi : c.reg .esp ≤ hi) :
    Same lo (atomic effect k c) (atomic effect k d) :=
  ⟨h.reg, h.seg, h.cs, h.eip, h.eflags, hobeys.blind _ _ _ _ hhi h.ram⟩

/-! ## One interrupt -/

/-- The frame outlives the function. -/
theorem Obeys.holds {ws : List (BitVec 32)} (hobeys : Obeys lo hi effect call) (hcall : call c d)
    (hlen : ws.length = 17) (h : c.ram.Holds (c.reg .esp + 8) ws)
    (hlo : lo.toNat ≤ (c.reg .esp).toNat) (hhi : (c.reg .esp).toNat + 76 ≤ hi.toNat) :
    d.ram.Holds (c.reg .esp + 8) ws := by
  refine h.congr (by omega) fun x hx => ?_
  rw [hlen] at hx
  have hbelow : ¬ (lo ≤ x ∧ x < c.reg .esp + 8) := by bv_omega
  rw [hobeys.does c d hcall x hbelow]
  exact (hobeys.stack _ _ x (by bv_omega) (by bv_omega)).symm

/-- **One interrupt** is one step of its function. -/
theorem Interrupted.same {g : Gate} (hobeys : Obeys lo hi effect call)
    (h : Interrupted code idt call k c g back e d) (hcode : code g.offset = irq k)
    (hlo : lo.toNat + 76 ≤ (c.reg .esp).toNat) (hhi : c.reg .esp ≤ hi) :
    Same lo d (atomic effect k c) := by
  have hcall := h.call
  rw [hcode] at hcall
  have hpushed := pushed_irq g k back c
  have hint := congrArg Regs.intNo (frame_of_pushed hpushed)
  generalize enter (irq k) back (c.interrupt g.sel g.offset) = c₁ at hcall hpushed hint
  rw [List.append_nil] at hpushed
  obtain ⟨hesp, ⟨-, -, hwords⟩, houtside⟩ := hpushed
  rw [BitVec.add_assoc, show (4 + 4 : BitVec 32) = 8 from rfl] at hwords
  have htop : c₁.reg .esp + 76 = c.reg .esp := hesp
  have hroom : (c₁.reg .esp).toNat + 76 = (c.reg .esp).toNat := by bv_omega
  have hkept := hobeys.holds hcall rfl hwords (by omega) (by bv_omega)
  have hback : e.reg .esp + 4 = c₁.reg .esp + 8 := by
    rw [hobeys.returns c₁ e hcall]
    bv_omega
  rw [← hback] at hkept
  rw [h.leave, leave_of_holds hkept]
  have hsp : e.reg .esp + 72 = c.reg .esp := by
    rw [hobeys.returns c₁ e hcall]
    bv_omega
  refine ⟨funext fun x => ?_, funext fun g => ?_, ?_, rfl, rfl, fun x hx => ?_⟩
  · cases x with
    | esp => exact hsp
    | _ => rfl
  · cases g <;> simp [savedRegs, Cpu.set, atomic]
  · simp [savedRegs, atomic]
  · -- beyond the stack the function sees what was there before the interrupt
    have hbeyond : ¬ (lo ≤ x ∧ x < c.reg .esp) := fun hin => hx ⟨hin.1, hsp ▸ hin.2⟩
    have hsame : ∀ y, ¬ (lo ≤ y ∧ y < c.reg .esp) → c₁.ram y = c.ram y := fun y hy =>
      houtside y (by
        show 76 ≤ (y - c₁.reg .esp).toNat
        bv_omega)
    have hdone := hobeys.does c₁ e hcall x (by bv_omega)
    rw [hint] at hdone
    exact hdone.trans (hobeys.blind _ _ _ _ hhi hsame x hbeyond)

/-! ## Runs -/

/-- What happens next: an instruction of the program, or an interrupt. -/
inductive Tick where
  | instr
  | irq (k : Fin 16)

/-- A run of a program in which interrupts arrive between instructions, newest first.  Where one
arrives, the stack has room for 19 words. -/
inductive Interleaved (lo hi : BitVec 32) (code : BitVec 32 → List Instr) (idt : Idt)
    (call : Cpu → Cpu → Prop) (instr : Cpu → Cpu) (c : Cpu) : List Tick → Cpu → Prop
  | start : Interleaved lo hi code idt call instr c [] c
  | instr {ticks d} : Interleaved lo hi code idt call instr c ticks d →
      Interleaved lo hi code idt call instr c (.instr :: ticks) (instr d)
  | irq {ticks d k g back e d'} : Interleaved lo hi code idt call instr c ticks d →
      lo.toNat + 76 ≤ (d.reg .esp).toNat → d.reg .esp ≤ hi →
      Interrupted code idt call k d g back e d' →
      Interleaved lo hi code idt call instr c (.irq k :: ticks) d'

/-- The same run, with every interrupt as one step. -/
def stepwise (effect : BitVec 32 → Ram → Ram) (instr : Cpu → Cpu) (c : Cpu) : List Tick → Cpu
  | [] => c
  | .instr :: ticks => instr (stepwise effect instr c ticks)
  | .irq k :: ticks => atomic effect k (stepwise effect instr c ticks)

/-- **Interrupts are atomic.**  Let the table of interrupts be the one that the kernel installs, and
let no instruction of the program look below the stack pointer.  Whenever interrupts arrive in a
run, and whatever the compiled function does with its registers and its stack, the run ends with the
registers, the flags and the memory, but for that below the stack pointer, that it has if every
interrupt is one step. -/
theorem interrupts_atomic {isrAt : Fin 32 → BitVec 32} {irqAt : Fin 16 → BitVec 32}
    {ticks : List Tick} (hobeys : Obeys lo hi effect call) (hcode : ∀ k, code (irqAt k) = irq k)
    (hinstr : ∀ c d, Same lo c d → Same lo (instr c) (instr d))
    (hrun : Interleaved lo hi code (installedIdt isrAt irqAt idt) call instr c ticks d) :
    Same lo d (stepwise effect instr c ticks) := by
  induction hrun with
  | start => exact .refl lo c
  | instr _ ih => exact hinstr _ _ ih
  | @irq ticks d k g back e d' _ hroom hhi htaken ih =>
      obtain rfl : (⟨0x10, irqAt k, 0⟩ : Gate) = g :=
        Option.some_injective _ ((gate_irq isrAt irqAt idt k).symm.trans htaken.gate)
      exact (htaken.same hobeys (hcode k) hroom hhi).trans (ih.atomic hobeys hhi)

/-! ## A clock -/

/-- Interrupt 0 counts a byte up. -/
def clockEffect (n : BitVec 32) (m : Ram) : Ram := fun x =>
  if n = 32 ∧ x = 0x5000 then m x + 1 else m x

/-- What a function without a stack of its own returns. -/
def clockReturn (c : Cpu) : Cpu :=
  { c.set .esp (c.reg .esp + 4) with
    ram := fun x =>
      if 0x8000 ≤ x ∧ x < c.reg .esp + 8 then c.ram x else clockEffect (frame c).intNo c.ram x }

theorem clockReturn_obeys : Obeys 0x8000 0x9000 clockEffect fun c d => d = clockReturn c where
  returns c d h := by
    rw [h]
    rfl
  does c d h x hx := by
    rw [h]
    exact if_neg hx
  stack n m x hlo _ := if_neg fun h => by
    rw [h.2] at hlo
    exact absurd hlo (by decide)
  blind n m m' a _ h x hx := by
    unfold clockEffect
    rw [h x hx]

/-- The entry of interrupt `k` is at `16 * k`. -/
def clockCode (a : BitVec 32) : List Instr := irq ⟨a.toNat / 16 % 16, Nat.mod_lt _ (by decide)⟩

theorem clockCode_irq : ∀ k : Fin 16, clockCode (BitVec.ofNat 32 (16 * k)) = irq k := by
  intro k
  unfold clockCode
  congr
  have hk := k.isLt
  rw [BitVec.toNat_ofNat]
  omega

/-- A state with interrupts enabled. -/
def clockStart : Cpu where
  reg r := if r = .esp then 0x9000 else 0
  seg _ := 0x08
  cs := 0x10
  eip := 0
  eflags := 0x200
  ram _ := 0

/-- The program counts `eax` up. -/
def countUp (c : Cpu) : Cpu := c.set .eax (c.reg .eax + 1)

theorem countUp_same (h : Same lo c d) : Same lo (countUp c) (countUp d) := by
  have hreg : (countUp c).reg = (countUp d).reg := by
    simp only [countUp, Cpu.set, h.reg]
  exact ⟨hreg, h.seg, h.cs, h.eip, h.eflags, h.ram⟩

/-- The table of interrupts for these entries. -/
def clockIdt : Idt :=
  installedIdt (fun _ => 0) (fun k => BitVec.ofNat 32 (16 * k)) fun _ => ⟨0, 0, 0, 0, 0⟩

/-- The state in which the function is entered, after one instruction. -/
def clockEntered : Cpu := enter (clockCode 0) 0 ((countUp clockStart).interrupt 0x10 0)

theorem clockEntered_taken :
    Interrupted clockCode clockIdt (fun c d => d = clockReturn c) 0 (countUp clockStart)
      ⟨0x10, 0, 0⟩ 0 (clockReturn clockEntered) (leave (clockReturn clockEntered)) :=
  ⟨by decide, gate_irq _ _ _ 0, rfl, rfl⟩

/-- The clock ticks between two instructions. -/
theorem interrupts_atomic_clock :
    (countUp (leave (clockReturn clockEntered))).reg .eax = 2 ∧
    (countUp (leave (clockReturn clockEntered))).ram 0x5000 = 1 := by
  have hrun : Interleaved 0x8000 0x9000 clockCode clockIdt (fun c d => d = clockReturn c) countUp
      clockStart [.instr, .irq 0, .instr] (countUp (leave (clockReturn clockEntered))) :=
    .instr (.irq (.instr .start) (by decide) (by decide) clockEntered_taken)
  have hsame := interrupts_atomic clockReturn_obeys clockCode_irq (fun _ _ => countUp_same) hrun
  refine ⟨?_, ?_⟩
  · rw [hsame.reg]
    decide
  · rw [hsame.ram 0x5000 fun h => absurd h.1 (by decide)]
    decide

end EgGS
