import EgGS.Model.Trap

/-!
# The descriptor tables after the installation

`gdt_set_gate` and `idt_set_gate` take a base apart, and the processor puts it together again.
After `gdt_install`, `idt_install`, `isrs_install` and `irq_install` every vector below 48 leads to
its own entry, in a segment for code at ring 0, and no other vector is present.
-/

namespace EgGS

open Lib

variable {gdt : Gdt} {idt : Idt} {num num' : BitVec 8} {base : BitVec 32}
variable {sel : BitVec 16} {flags : BitVec 8}

/-! ## One entry -/

/-- The two halves of a base. -/
theorem append_halves (base : BitVec 32) :
    ((base >>> 16) &&& 0xFFFF).setWidth 16 ++ (base &&& 0xFFFF).setWidth 16 = base := by
  have hmask : ∀ i < 16, (0xFFFF : BitVec 32).getLsbD i = true := by decide
  ext i hi
  simp only [BitVec.getElem_append, BitVec.getElem_setWidth, BitVec.getLsbD_and,
    BitVec.getLsbD_ushiftRight]
  split
  · rename_i hlow
    rw [hmask i hlow, Bool.and_true]
    exact BitVec.getLsbD_eq_getElem hi
  · rw [hmask (i - 16) (by omega), Bool.and_true, show 16 + (i - 16) = i by omega]
    exact BitVec.getLsbD_eq_getElem hi

/-- The four parts of a base in `gdt`. -/
theorem append_quarters (base : BitVec 32) :
    ((base >>> 24) &&& 0xFF).setWidth 8 ++ ((base >>> 16) &&& 0xFF).setWidth 8 ++
      (base &&& 0xFFFF).setWidth 16 = base := by
  have hbyte : ∀ i < 8, (0xFF : BitVec 32).getLsbD i = true := by decide
  have hmask : ∀ i < 16, (0xFFFF : BitVec 32).getLsbD i = true := by decide
  ext i hi
  simp only [BitVec.getElem_append, BitVec.getElem_setWidth, BitVec.getLsbD_and,
    BitVec.getLsbD_ushiftRight]
  split
  · rename_i hlow
    rw [hmask i hlow, Bool.and_true]
    exact BitVec.getLsbD_eq_getElem hi
  · split
    · rename_i hmid
      rw [hbyte (i - 16) hmid, Bool.and_true, show 16 + (i - 16) = i by omega]
      exact BitVec.getLsbD_eq_getElem hi
    · rw [hbyte (i - 16 - 8) (by omega), Bool.and_true, show 24 + (i - 16 - 8) = i by omega]
      exact BitVec.getLsbD_eq_getElem hi

/-- The two parts of a limit in `gdt`; its upper 12 bits are dropped. -/
theorem append_limit (limit : BitVec 32) (gran : BitVec 8) :
    (((limit >>> 16) &&& 0x0F).setWidth 8 ||| (gran &&& 0xF0)).setWidth 4 ++
    (limit &&& 0xFFFF).setWidth 16 =
      limit.setWidth 20 := by
  have hlow : ∀ i < 4, (0x0F : BitVec 32).getLsbD i = true := by decide
  have hhigh : ∀ i < 4, (0xF0 : BitVec 8).getLsbD i = false := by decide
  have hmask : ∀ i < 16, (0xFFFF : BitVec 32).getLsbD i = true := by decide
  ext i hi
  simp only [BitVec.getElem_append, BitVec.getElem_setWidth, BitVec.getLsbD_and, BitVec.getLsbD_or,
    BitVec.getLsbD_setWidth, BitVec.getLsbD_ushiftRight]
  split
  · rename_i hin
    rw [hmask i hin, Bool.and_true]
  · rw [hlow (i - 16) (by omega), hhigh (i - 16) (by omega), Bool.and_true, Bool.and_false,
      Bool.or_false, show 16 + (i - 16) = i by omega, decide_eq_true (by omega : i - 16 < 8),
      Bool.true_and]

theorem gdtSetGate_of_ne {i j : Fin 3} {limit : BitVec 32} {access gran : BitVec 8} (h : j ≠ i) :
    gdtSetGate i base limit access gran gdt j = gdt j := Function.update_of_ne h ..

/-- **A segment** has the base that was set, 20 bits of the limit, and the bits of the other two
bytes. -/
theorem segment_gdtSetGate (num : Fin 3) (base limit : BitVec 32) (access gran : BitVec 8)
    (gdt : Gdt) : (gdtSetGate num base limit access gran gdt num).segment =
      { base := base
        last := if gran.getLsbD 7 then (limit.setWidth 20).toNat * 4096 + 4095
          else (limit.setWidth 20).toNat
        present := access.getLsbD 7
        ring := access.extractLsb' 5 2
        memory := access.getLsbD 4
        code := access.getLsbD 3
        writable := access.getLsbD 1
        wide := gran.getLsbD 6 } := by
  have hseven : (((limit >>> 16) &&& 0x0F).setWidth 8 ||| (gran &&& 0xF0)).getLsbD 7 =
      gran.getLsbD 7 := by
    simp
  have hsix : (((limit >>> 16) &&& 0x0F).setWidth 8 ||| (gran &&& 0xF0)).getLsbD 6 =
      gran.getLsbD 6 := by
    simp
  rw [gdtSetGate, Function.update_self]
  simp only [GdtEntry.segment, append_quarters, append_limit, hseven, hsix]

/-- **A gate** is read as it was set. -/
theorem gate_idtSetGate (hflags : flags.getLsbD 7 = true ∧ flags.setWidth 5 = 14#5) :
    (idtSetGate num base sel flags idt num).gate = some ⟨sel, base, flags.extractLsb' 5 2⟩ := by
  rw [idtSetGate, Function.update_self, IdtEntry.gate, if_pos hflags, append_halves]

theorem idtSetGate_of_ne (h : num' ≠ num) : idtSetGate num base sel flags idt num' = idt num' :=
  Function.update_of_ne h ..

/-! ## A list of entries -/

section

variable {n : ℕ} {vector : Fin n → BitVec 8} {entry : Fin n → BitVec 32}

/-- The table after the entries of a list were set. -/
theorem foldl_of_notMem (vs : List (Fin n)) (idt : Idt) (h : ∀ v ∈ vs, num ≠ vector v) :
    vs.foldl (fun idt v => idtSetGate (vector v) (entry v) sel flags idt) idt num = idt num := by
  induction vs generalizing idt with
  | nil => rfl
  | cons v vs ih =>
      rw [List.foldl_cons, ih _ fun w hw => h w (List.mem_cons_of_mem v hw)]
      exact idtSetGate_of_ne (h v List.mem_cons_self)

theorem gate_foldl (hinj : Function.Injective vector)
    (hflags : flags.getLsbD 7 = true ∧ flags.setWidth 5 = 14#5)
    (vs : List (Fin n)) (idt : Idt) {v : Fin n} (hv : v ∈ vs) :
    (vs.foldl (fun idt v => idtSetGate (vector v) (entry v) sel flags idt) idt (vector v)).gate =
      some ⟨sel, entry v, flags.extractLsb' 5 2⟩ := by
  induction vs generalizing idt with
  | nil => exact absurd hv List.not_mem_nil
  | cons w vs ih =>
      rw [List.foldl_cons]
      -- the last entry for a vector counts
      by_cases hin : v ∈ vs
      · exact ih _ hin
      · obtain rfl : v = w := (List.mem_cons.mp hv).resolve_right hin
        have hne : ∀ u ∈ vs, vector v ≠ vector u := fun u hu heq => hin (hinj heq ▸ hu)
        rw [foldl_of_notMem vs _ hne]
        exact gate_idtSetGate hflags

end

/-! ## Both tables -/

/-- The table of interrupts at the end of `kmain`. -/
def installedIdt (isrAt : Fin 32 → BitVec 32) (irqAt : Fin 16 → BitVec 32) (idt : Idt) : Idt :=
  irqGates irqAt (isrsInstall isrAt (idtInstall idt))

/-- A segment of all addresses at ring 0. -/
def flatSegment (code : Bool) : Segment where
  base := 0
  last := 0xFFFFFFFF
  present := true
  ring := 0
  memory := true
  code := code
  writable := true
  wide := true

theorem select_of_index {sel : BitVec 16} {i : Fin 3} (hi : i.val ≠ 0)
    (hsel : sel.toNat / 8 = i.val)
    (hkind : sel.getLsbD 2 = false) (gdt : Gdt) : gdt.select sel = some (gdt i).segment := by
  have hnot : ¬ (sel.getLsbD 2 = true ∨ i.val = 0) := by
    rw [hkind]
    rintro (h | h)
    · cases h
    · exact hi h
  simp only [Gdt.select, hsel]
  rw [dif_pos i.isLt, if_neg hnot]

theorem select_code (gdt : Gdt) : (gdtInstall gdt).select 0x10 = some (flatSegment true) := by
  have hentry : gdtInstall gdt 2 =
      gdtSetGate 2 0 0xFFFFFFFF 0x9A 0xCF (gdtSetGate 0 0 0 0 0 gdt) 2 :=
    gdtSetGate_of_ne (by decide)
  rw [select_of_index (i := 2) (by decide) (by decide) (by decide), hentry,
    segment_gdtSetGate]
  decide

theorem select_data (gdt : Gdt) : (gdtInstall gdt).select 0x08 = some (flatSegment false) := by
  rw [select_of_index (i := 1) (by decide) (by decide) (by decide), gdtInstall, segment_gdtSetGate]
  decide

/-- The vectors of the exceptions are apart, and below those of the interrupts. -/
theorem isr_vector_injective : Function.Injective fun v : Fin 32 => (v.val : BitVec 8) :=
  fun v w => (by decide : ∀ v w : Fin 32, (v.val : BitVec 8) = w.val → v = w) v w

theorem irq_vector_injective : Function.Injective fun k : Fin 16 => ((32 + k.val : ℕ) : BitVec 8) :=
  fun k l => (by decide : ∀ k l : Fin 16,
    ((32 + k.val : ℕ) : BitVec 8) = ((32 + l.val : ℕ) : BitVec 8) → k = l) k l

theorem isr_ne_irq : ∀ (v : Fin 32) (k : Fin 16),
    (v.val : BitVec 8) ≠ ((32 + k.val : ℕ) : BitVec 8) := by decide

/-- The flags of every gate: present, for ring 0, a 32-bit interrupt gate. -/
theorem gate_flags :
    (0x8E : BitVec 8).getLsbD 7 = true ∧ (0x8E : BitVec 8).setWidth 5 = 14#5 := by decide

theorem gate_isr (isrAt : Fin 32 → BitVec 32) (irqAt : Fin 16 → BitVec 32) (idt : Idt)
    (v : Fin 32) :
    (installedIdt isrAt irqAt idt (v.val : BitVec 8)).gate = some ⟨0x10, isrAt v, 0⟩ := by
  unfold installedIdt irqGates
  rw [foldl_of_notMem _ _ fun k _ => isr_ne_irq v k]
  exact gate_foldl isr_vector_injective gate_flags _ _ (List.mem_finRange v)

theorem gate_irq (isrAt : Fin 32 → BitVec 32) (irqAt : Fin 16 → BitVec 32) (idt : Idt)
    (k : Fin 16) :
    (installedIdt isrAt irqAt idt ((32 + k.val : ℕ) : BitVec 8)).gate = some ⟨0x10, irqAt k, 0⟩ :=
  gate_foldl irq_vector_injective gate_flags _ _ (List.mem_finRange k)

/-- No other vector has a gate. -/
theorem gate_none (isrAt : Fin 32 → BitVec 32) (irqAt : Fin 16 → BitVec 32) (idt : Idt)
    (h : 48 ≤ num.toNat) :
    (installedIdt isrAt irqAt idt num).gate = none := by
  have hisr : ∀ v ∈ List.finRange 32, num ≠ (v.val : BitVec 8) := by
    rintro v - rfl
    have hv := v.isLt
    rw [BitVec.natCast_eq_ofNat, BitVec.toNat_ofNat] at h
    omega
  have hirq : ∀ k ∈ List.finRange 16, num ≠ ((32 + k.val : ℕ) : BitVec 8) := by
    rintro k - rfl
    have hk := k.isLt
    rw [BitVec.natCast_eq_ofNat, BitVec.toNat_ofNat] at h
    omega
  unfold installedIdt irqGates isrsInstall
  rw [foldl_of_notMem _ _ hirq, foldl_of_notMem _ _ hisr]
  simp [idtInstall, IdtEntry.gate]

/-- **The vectors.**  Whatever the tables held before, the vector of an exception or an interrupt
leads to its entry through a 32-bit interrupt gate, whose selector names the segment for code; the
segment registers that `GDT_FLUSH` loads name the segment for data; and every other vector has no
gate. -/
theorem vectors_lead (gdt : Gdt) (idt : Idt) (isrAt : Fin 32 → BitVec 32)
    (irqAt : Fin 16 → BitVec 32) (num : BitVec 8) (c : Cpu) (g : Seg) :
    (installedIdt isrAt irqAt idt num).gate =
      (if h : num.toNat < 32 then some ⟨0x10, isrAt ⟨num.toNat, h⟩, 0⟩
      else if h : num.toNat - 32 < 16 then some ⟨0x10, irqAt ⟨num.toNat - 32, h⟩, 0⟩
      else none) ∧
    (gdtInstall gdt).select 0x10 = some (flatSegment true) ∧
    (gdtInstall gdt).select (gdtFlush c).cs = some (flatSegment true) ∧
    (gdtInstall gdt).select ((gdtFlush c).seg g) = some (flatSegment false) := by
  have hcode : (gdtInstall gdt).select 0x10 = some (flatSegment true) := select_code gdt
  refine ⟨?_, hcode, hcode, select_data gdt⟩
  by_cases hisr : num.toNat < 32
  · rw [dif_pos hisr]
    have hgate := gate_isr isrAt irqAt idt ⟨num.toNat, hisr⟩
    rwa [BitVec.natCast_eq_ofNat, BitVec.ofNat_toNat, BitVec.setWidth_eq] at hgate
  · rw [dif_neg hisr]
    by_cases hirq : num.toNat - 32 < 16
    · rw [dif_pos hirq]
      have hgate := gate_irq isrAt irqAt idt ⟨num.toNat - 32, hirq⟩
      rwa [show 32 + (num.toNat - 32) = num.toNat by omega, BitVec.natCast_eq_ofNat,
        BitVec.ofNat_toNat, BitVec.setWidth_eq] at hgate
    · rw [dif_neg hirq]
      exact gate_none isrAt irqAt idt (by omega)

end EgGS
