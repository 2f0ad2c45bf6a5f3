import EgGS.Model.Trap

/-!
# The frame of an exception or an interrupt

The entry code pushes the words of a `struct regs` in the order of its fields, whatever the
registers hold, and hands its address to the function in C.  This is so for every interrupt, and
for every exception but one: an alignment check pushes an error code of its own, for which `isr17`
does not allow, so all that lies above `int_no` is off by one word.
-/

namespace EgGS

open Lib

variable {c d : Cpu} {ws : List (BitVec 32)} {r : Regs} {m : Ram} {a : BitVec 32}

/-! ## Frames in memory -/

/-- The frame that its words make up. -/
theorem Regs.at_of_holds (h : m.Holds a r.words) : Regs.at m a = r := by
  simp only [Regs.words, Ram.holds_cons, Ram.holds_nil, and_true, BitVec.add_assoc,
    BitVec.ofNat_eq_ofNat, BitVec.reduceAdd] at h
  obtain ⟨h1, h2, h3, h4, h5, h6, h7, h8, h9, h10, h11, h12, h13, h14, h15, h16, h17⟩ := h
  simp only [Regs.at, BitVec.ofNat_eq_ofNat, h1, h2, h3, h4, h5, h6, h7, h8, h9, h10, h11, h12,
    h13, h14, h15, h16, h17]

/-- The processor pushes three words. -/
theorem pushed_interrupt (sel : BitVec 16) (base : BitVec 32) (c : Cpu) :
    c.Pushed [c.eip, c.cs.setWidth 32, c.eflags] (c.interrupt sel base) := by
  have hflags := (Cpu.Pushed.refl c).push (by simp) c.eflags
  have hcs := hflags.push (by simp) (c.cs.setWidth 32)
  exact (hcs.push (by simp) c.eip).congr rfl rfl

/-- The frame that the common stub makes above the words `n` and `err`. -/
def savedRegs (d : Cpu) (n err eip cs eflags : BitVec 32) : Regs where
  gs := (d.seg .gs).setWidth 32
  fs := (d.seg .fs).setWidth 32
  es := (d.seg .es).setWidth 32
  ds := (d.seg .ds).setWidth 32
  edi := d.reg .edi
  esi := d.reg .esi
  ebp := d.reg .ebp
  esp := d.reg .esp
  ebx := d.reg .ebx
  edx := d.reg .edx
  ecx := d.reg .ecx
  eax := d.reg .eax
  intNo := n
  errCode := err
  eip := eip
  cs := cs
  eflags := eflags

/-- **The common stub** leaves the frame, its address and the address behind the call. -/
theorem pushed_saveState {n err eip cs eflags : BitVec 32}
    (h : c.Pushed (n :: err :: eip :: cs :: eflags :: ws) d) (hlen : ws.length ≤ 100)
    (back : BitVec 32) :
    c.Pushed (back :: (((Cpu.exec saveState d).push back).reg .esp + 8) ::
      ((savedRegs d n err eip cs eflags).words ++ ws)) ((Cpu.exec saveState d).push back) := by
  have hall := h.pusha (by simp only [List.length_cons]; omega)
  have hds := hall.push (by simp only [List.length_cons]; omega) ((d.seg .ds).setWidth 32)
  have hes := hds.push (by simp only [List.length_cons]; omega) ((d.seg .es).setWidth 32)
  have hfs := hes.push (by simp only [List.length_cons]; omega) ((d.seg .fs).setWidth 32)
  have hgs := hfs.push (by simp only [List.length_cons]; omega) ((d.seg .gs).setWidth 32)
  have hmoved : c.Pushed _ (Cpu.exec saveState.dropLast d) := hgs.congr rfl rfl
  have hback := (hmoved.push (by simp only [List.length_cons]; omega)
    ((Cpu.exec saveState.dropLast d).reg .eax)).push (by simp only [List.length_cons]; omega) back
  have hptr : ((Cpu.exec saveState d).push back).reg .esp + 8 =
      (Cpu.exec saveState.dropLast d).reg .eax := by
    show (Cpu.exec saveState.dropLast d).reg .esp - 4 - 4 + 8 =
      (Cpu.exec saveState.dropLast d).reg .esp
    bv_omega
  rw [hptr]
  exact hback

/-- What the code behind the call makes of a frame. -/
theorem leave_of_holds (h : d.ram.Holds (d.reg .esp + 4) r.words) :
    leave d =
      { reg := fun x => match x with
          | .edi => r.edi
          | .esi => r.esi
          | .ebp => r.ebp
          | .esp => d.reg .esp + 72
          | .ebx => r.ebx
          | .edx => r.edx
          | .ecx => r.ecx
          | .eax => r.eax
        seg := fun g => match g with
          | .gs => r.gs.setWidth 16
          | .fs => r.fs.setWidth 16
          | .es => r.es.setWidth 16
          | .ds => r.ds.setWidth 16
        cs := r.cs.setWidth 16
        eip := r.eip
        eflags := r.eflags
        ram := d.ram } := by
  simp only [Regs.words, Ram.holds_cons, Ram.holds_nil, and_true, BitVec.add_assoc,
    BitVec.ofNat_eq_ofNat, BitVec.reduceAdd] at h
  obtain ⟨h1, h2, h3, h4, h5, h6, h7, h8, h9, h10, h11, h12, h13, h14, h15, h16, h17⟩ := h
  simp only [leave, restoreState, Cpu.exec_cons, Cpu.exec_nil, Cpu.exec1, Cpu.iret, Cpu.pop,
    Cpu.drop, Cpu.top, Cpu.set, Cpu.setSeg, reduceCtorEq, if_true, if_false, BitVec.add_assoc,
    BitVec.ofNat_eq_ofNat, BitVec.reduceAdd, h1, h2, h3, h4, h5, h6, h7, h9, h10, h11, h12, h15,
    h16, h17]
  refine congrArg₂ (fun reg seg => Cpu.mk reg seg _ _ _ _) (funext fun x => ?_) (funext fun g => ?_)
  · cases x <;> simp
  · cases g <;> simp

/-! ## Interrupts and exceptions -/

/-- The words that an entry with two words of its own pushes. -/
theorem pushed_entry (h : c.Pushed ws d) (hlen : ws.length ≤ 100) (v : BitVec 32) :
    c.Pushed (v :: 0 :: ws) (Cpu.exec [.cli, .pushl 0, .pushl v] d) := by
  have hcli : c.Pushed ws (Cpu.exec1 .cli d) := h.congr rfl rfl
  exact (hcli.push (by omega) 0).push (by simp only [List.length_cons]; omega) v

/-- The word that an entry with one word of its own pushes. -/
theorem pushed_bare (h : c.Pushed ws d) (hlen : ws.length ≤ 100) (v : BitVec 32) :
    c.Pushed (v :: ws) (Cpu.exec [.cli, .pushl v] d) := by
  have hcli : c.Pushed ws (Cpu.exec1 .cli d) := h.congr rfl rfl
  exact hcli.push (by omega) v

/-- Only the stack pointer of the registers matters for the entry. -/
theorem savedRegs_entry {n err eip cs eflags esp : BitVec 32} (hseg : d.seg = c.seg)
    (hreg : ∀ x, x ≠ .esp → d.reg x = c.reg x) (hesp : d.reg .esp = esp) :
    savedRegs d n err eip cs eflags = savedRegs (c.set .esp esp) n err eip cs eflags := by
  subst hesp
  have hset : (c.set .esp (d.reg .esp)).reg = d.reg := by
    funext x
    by_cases hx : x = .esp
    · simp [Cpu.set, hx]
    · simp [Cpu.set, hx, hreg x hx]
  have hsetSeg : (c.set .esp (d.reg .esp)).seg = d.seg := hseg.symm
  simp only [savedRegs, hset, hsetSeg]

/-- The function in C finds the frame. -/
theorem frame_of_pushed {back : BitVec 32}
    (h : c.Pushed (back :: (d.reg .esp + 8) :: (r.words ++ ws)) d) :
    frame d = r := by
  obtain ⟨-, hptr, hwords⟩ := h.holds
  have hat := Regs.at_of_holds (Ram.Holds.left hwords)
  rwa [BitVec.add_assoc, show (4 + 4 : BitVec 32) = 8 from rfl, ← hptr] at hat

/-- What the stack holds when the function in C is entered. -/
theorem pushed_enter {stub : List Instr} {n err eip cs eflags esp : BitVec 32}
    (h : c.Pushed (n :: err :: eip :: cs :: eflags :: ws) (Cpu.exec stub d))
    (hlen : ws.length ≤ 100) (hseg : (Cpu.exec stub d).seg = c.seg)
    (hreg : ∀ x, x ≠ .esp → (Cpu.exec stub d).reg x = c.reg x)
    (hesp : (Cpu.exec stub d).reg .esp = esp) (back : BitVec 32) :
    c.Pushed (back :: ((enter stub back d).reg .esp + 8) ::
      ((savedRegs (c.set .esp esp) n err eip cs eflags).words ++ ws)) (enter stub back d) := by
  have hpushed := pushed_saveState h hlen back
  rw [← Cpu.exec_append, savedRegs_entry hseg hreg hesp] at hpushed
  exact hpushed

/-- The frame of an entry that has pushed a number and an error code. -/
theorem frame_enter {stub : List Instr} {n err eip cs eflags esp : BitVec 32}
    (h : c.Pushed (n :: err :: eip :: cs :: eflags :: ws) (Cpu.exec stub d))
    (hlen : ws.length ≤ 100) (hseg : (Cpu.exec stub d).seg = c.seg)
    (hreg : ∀ x, x ≠ .esp → (Cpu.exec stub d).reg x = c.reg x)
    (hesp : (Cpu.exec stub d).reg .esp = esp) (back : BitVec 32) :
    frame (enter stub back d) = savedRegs (c.set .esp esp) n err eip cs eflags :=
  frame_of_pushed (pushed_enter h hlen hseg hreg hesp back)

/-- The stack of an interrupt. -/
theorem pushed_irq (gate : Gate) (k : Fin 16) (back : BitVec 32) (c : Cpu) :
    c.Pushed (back :: ((enter (irq k) back (c.interrupt gate.sel gate.offset)).reg .esp + 8) ::
      ((savedRegs (c.set .esp (c.reg .esp - 20)) (32 + k.val : ℕ) 0 c.eip (c.cs.setWidth 32)
        c.eflags).words ++ []))
      (enter (irq k) back (c.interrupt gate.sel gate.offset)) := by
  have hpushed := pushed_entry (pushed_interrupt gate.sel gate.offset c) (by simp) (32 + k.val : ℕ)
  refine pushed_enter hpushed (by simp) rfl (fun x hx => ?_) ?_ back
  · simp [Cpu.exec1, Cpu.push, Cpu.set, Cpu.interrupt, hx]
  · show c.reg .esp - 4 - 4 - 4 - 4 - 4 = c.reg .esp - 20
    bv_omega

/-- The frame of an exception that is not an alignment check. -/
theorem frame_isr (gate : Gate) (v : Fin 32) (hv : v ≠ 17) (code back : BitVec 32) (c : Cpu) :
    frame (enter (isr v) back (raiseException gate v code c)) =
      savedRegs (c.set .esp (c.reg .esp - 20)) v.val (if v ∈ errorCodes then code else 0) c.eip
        (c.cs.setWidth 32) c.eflags := by
  have hpushed := pushed_interrupt gate.sel gate.offset c
  have hcodes : v ∈ errorCodes ↔ v ∈ bareIsrs := by
    revert v
    decide
  -- without an error code of the processor, the entry pushes a 0 in its place
  by_cases hbare : v ∈ bareIsrs
  · have hcode : v ∈ errorCodes := hcodes.mpr hbare
    rw [raiseException, if_pos hcode, isr, if_pos hbare, if_pos hcode]
    refine frame_enter (pushed_bare (hpushed.push (by simp) code) (by simp) _) (by simp) rfl
      (fun x hx => ?_) ?_ back
    · simp [Cpu.exec1, Cpu.push, Cpu.set, Cpu.interrupt, hx]
    · show c.reg .esp - 4 - 4 - 4 - 4 - 4 = c.reg .esp - 20
      bv_omega
  · have hcode : v ∉ errorCodes := fun h => hbare (hcodes.mp h)
    rw [raiseException, if_neg hcode, isr, if_neg hbare, if_neg hcode]
    refine frame_enter (pushed_entry hpushed (by simp) _) (by simp) rfl (fun x hx => ?_) ?_ back
    · simp [Cpu.exec1, Cpu.push, Cpu.set, Cpu.interrupt, hx]
    · show c.reg .esp - 4 - 4 - 4 - 4 - 4 = c.reg .esp - 20
      bv_omega

/-- The frame of an alignment check is off by the error code. -/
theorem frame_isr17 (gate : Gate) (code back : BitVec 32) (c : Cpu) :
    frame (enter (isr 17) back (raiseException gate 17 code c)) =
      savedRegs (c.set .esp (c.reg .esp - 24)) 17 0 code c.eip (c.cs.setWidth 32) := by
  have hcode := (pushed_interrupt gate.sel gate.offset c).push (by simp) code
  refine frame_enter (pushed_entry hcode (by simp) 17) (by simp) rfl (fun x hx => ?_) ?_ back
  · simp [Cpu.exec1, Cpu.push, Cpu.set, Cpu.interrupt, hx]
  · show c.reg .esp - 4 - 4 - 4 - 4 - 4 - 4 = c.reg .esp - 24
    bv_omega

/-- **The frame of an exception.**  The handler prints the message of the exception.  The frame has
the registers of the interrupted code, and the error code of the processor or 0; an alignment check
pushes an error code in addition to the 0 of `isr17`, so that the error code stands in the place of
`eip`. -/
theorem exception_frame (gate : Gate) (v : Fin 32) (code back : BitVec 32) (c : Cpu) :
    let r := frame (enter (isr v) back (raiseException gate v code c))
    (∃ text, exceptionMessages[v.val]? = some text ∧
      faultHandler r = some [text, " Exception. System Halted!\n"]) ∧
    r = if v = 17 then
        savedRegs (c.set .esp (c.reg .esp - 24)) 17 0 code c.eip (c.cs.setWidth 32)
      else
        savedRegs (c.set .esp (c.reg .esp - 20)) v.val (if v ∈ errorCodes then code else 0) c.eip
          (c.cs.setWidth 32) c.eflags := by
  intro r
  have hr : r = if v = 17 then
      savedRegs (c.set .esp (c.reg .esp - 24)) 17 0 code c.eip (c.cs.setWidth 32)
    else
      savedRegs (c.set .esp (c.reg .esp - 20)) v.val (if v ∈ errorCodes then code else 0) c.eip
        (c.cs.setWidth 32) c.eflags := by
    by_cases hv : v = 17
    · subst hv
      exact frame_isr17 gate code back c
    · rw [if_neg hv]
      exact frame_isr gate v hv code back c
  have hno : r.intNo = (v.val : ℕ) := by
    rw [hr]
    by_cases hv : v = 17
    · subst hv
      rfl
    · rw [if_neg hv]
      rfl
  have hto : r.intNo.toNat = v.val := by
    rw [hno]
    exact Nat.mod_eq_of_lt (by omega)
  obtain ⟨text, htext⟩ : ∃ text, exceptionMessages[v.val]? = some text :=
    ⟨_, List.getElem?_eq_getElem v.isLt⟩
  refine ⟨⟨text, htext, ?_⟩, hr⟩
  rw [faultHandler, hto, if_pos v.isLt, htext]
  rfl

end EgGS
