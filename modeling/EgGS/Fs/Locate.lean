import EgGS.Fs.Scan
import EgGS.Fs.Truncate

/-!
# Looking for a block of an inode

Block `block` of an inode has a place in the tree of the inode, `blockPos block`, and
`locate_by_inode` goes to it over the index blocks above it.

* `Mapped.locate`: without `create` it returns the zone that is named there, 0 if none is, and
  changes nothing.
-/

namespace EgGS

open Lib Prog

variable {n : ℕ} {env : Env n} {s t u : Sys n} {dev x w block : ℕ} {sb : Fin nrSuper}
variable {which : Rw → Prop} {used loose : ℕ × ℕ → Prop} {M M₁ : Contents}
variable {refs : Refs n} {i : Fin nrInode} {b : Fin n} {p q : ZonePos}

/-! ## The places of blocks -/

/-- The place of a block in the tree of an inode. -/
def blockPos (block : ℕ) : ZonePos :=
  if h : block < 7 then .root ⟨block, h.trans (by decide)⟩
  else if h : block - 7 < 512 then .single ⟨block - 7, h⟩
  else .double ⟨(block - 7 - 512) / 512 % 512, Nat.mod_lt _ (by decide)⟩
    ⟨(block - 7 - 512) % 512, Nat.mod_lt _ (by decide)⟩

/-- The index blocks over a place of the tree, from the root. -/
def ZonePos.above : ZonePos → List ZonePos
  | .root _ => []
  | .single _ => [.root 7]
  | .table _ => [.root 8]
  | .double w _ => [.root 8, .table w]

/-- The zone of a block, 0 if it has none. -/
def DInode.blockZone (d : DInode) (M : Contents) (dev block : ℕ) : ℕ :=
  d.zoneAt M dev (blockPos block)

theorem blockPos_root (h : block < 7) : blockPos block = .root ⟨block, h.trans (by decide)⟩ :=
    dif_pos h

theorem blockPos_single (h : ¬ block < 7) (h' : block - 7 < 512) :
    blockPos block = .single ⟨block - 7, h'⟩ := by
  rw [blockPos, dif_neg h, dif_pos h']

theorem blockPos_double (h : ¬ block < 7) (h' : ¬ block - 7 < 512) (hblock : block < maxBlocks) :
    blockPos block = .double ⟨(block - 7 - 512) / 512, by unfold maxBlocks at hblock; omega⟩
      ⟨(block - 7 - 512) % 512, Nat.mod_lt _ (by decide)⟩ := by
  have hlt : (block - 7 - 512) / 512 < 512 := by
    unfold maxBlocks at hblock
    omega
  rw [blockPos, dif_neg h, dif_neg h']
  simp only [Nat.mod_eq_of_lt hlt]

/-- Two blocks have two places. -/
theorem blockPos_injective {block' : ℕ} (hblock : block < maxBlocks) (hblock' : block' < maxBlocks)
    (h : blockPos block = blockPos block') : block = block' := by
  unfold maxBlocks at hblock hblock'
  unfold blockPos at h
  split at h <;> split at h <;> (try split at h) <;> (try split at h) <;>
    simp only [ZonePos.root.injEq, ZonePos.single.injEq, ZonePos.double.injEq, Fin.mk.injEq,
      reduceCtorEq] at h <;> omega

/-- No block is an index block. -/
theorem blockPos_notMem_above (block : ℕ) (p : ZonePos) : blockPos block ∉ p.above := by
  unfold blockPos
  intro hin
  split at hin
  · rename_i hlt
    cases p with
    | root z => simp [ZonePos.above] at hin
    | single w =>
        simp only [ZonePos.above, List.mem_singleton, ZonePos.root.injEq] at hin
        have := congrArg Fin.val hin
        simp at this
        omega
    | table w =>
        simp only [ZonePos.above, List.mem_singleton, ZonePos.root.injEq] at hin
        have := congrArg Fin.val hin
        simp at this
        omega
    | double w w' =>
        simp only [ZonePos.above, List.mem_cons, ZonePos.root.injEq, List.not_mem_nil, or_false,
          reduceCtorEq] at hin
        have := congrArg Fin.val hin
        simp at this
        omega
  · split at hin <;> cases p <;> simp [ZonePos.above] at hin

/-- What is named at a place depends only on the index blocks above it. -/
theorem DInode.zoneAt_congr (d : DInode)
    (h : ∀ q ∈ p.above, d.zoneAt M dev q ≠ 0 →
      M₁ (dev, d.zoneAt M dev q) = M (dev, d.zoneAt M dev q)) :
    d.zoneAt M₁ dev p = d.zoneAt M dev p := by
  cases p with
  | root z => rfl
  | single w => exact namedBy_congr (h (.root 7) (by simp [ZonePos.above])) _
  | table w => exact namedBy_congr (h (.root 8) (by simp [ZonePos.above])) _
  | double w w' =>
      have htable : namedBy M₁ dev (d.iZone 8).toNat w = namedBy M dev (d.iZone 8).toNat w :=
        namedBy_congr (h (.root 8) (by simp [ZonePos.above])) _
      simp only [DInode.zoneAt, htable]
      exact namedBy_congr (h (.table w) (by simp [ZonePos.above])) _

/-! ## Looking without creating -/

namespace Mapped

section

variable (henv : env.Works which) (hall : ∀ cmd, which cmd)
include henv hall

/-- A word of an index block that is held is read, and the buffer given back. -/
theorem indexedZone (hold : Holds which used loose M refs dev x b u) (hused : used (dev, x))
    (hfirm : ¬ loose (dev, x)) :
    Does (EgGS.indexedZone i b w false) env u fun z t => z = ((M (dev, x)).word w).toNat ∧
      Mapped which used loose M refs t ∧ Beside refs u t := by
  have hdata := hold.data hused
  have hpos : 0 < (refs.add b) b := by simp [Refs.add]
  unfold EgGS.indexedZone
  refine .bind_read (.ite (fun hbad => absurd hbad.1 (by decide)) fun _ => ?_)
  refine (hold.mapped.putBuff henv (hall .write) hpos (hold.key ▸ hfirm)).bind ?_
  rintro _ t ⟨ht, hput⟩
  rw [Refs.sub_add] at ht
  exact .pure ⟨by rw [hdata], ht, hput.mono (refs.le_add b)⟩

/-- **`locate_by_inode`** without `create` returns the zone of the block. -/
theorem locate (h : Mapped which used loose M refs s) (hblock : block < maxBlocks)
    (hdev : (s.inode i).iDev = dev)
    (hread : ∀ q ∈ (blockPos block).above, (s.inode i).zoneAt M dev q ≠ 0 →
      s.Readable used loose refs dev ((s.inode i).zoneAt M dev q)) :
    Does (locateByInode i block false) env s fun z t => z = (s.inode i).blockZone M dev block ∧
      Mapped which used loose M refs t ∧ Beside refs s t := by
  subst hdev
  have hwhich := hall .write
  have hkeep (z : Fin 9) : Does (createZone i z false) env s fun _ t => s = t :=
    .bind_read (.ite (fun hbad => absurd hbad.1 (by decide)) fun _ => .pure rfl)
  unfold locateByInode
  refine .ite (fun hneg => absurd hneg (by omega)) fun _ => .ite (fun hbig => ?_) fun _ => ?_
  · unfold maxBlocks at hblock
    omega
  simp only [Int.toNat_natCast]
  unfold DInode.blockZone
  -- the zone is named by the inode, by one index block or by two
  by_cases hroot : block < 7
  · rw [dif_pos hroot, blockPos_root hroot]
    refine (hkeep _).bind ?_
    rintro _ _ rfl
    exact .bind_read (.pure ⟨rfl, h, .refl refs s⟩)
  rw [dif_neg hroot]
  by_cases hsingle : block - 7 < 512
  · rw [if_pos hsingle]
    -- one index block, that of `i_zone[7]`
    rw [blockPos_single hroot hsingle] at hread ⊢
    refine (hkeep 7).bind ?_
    rintro _ _ rfl
    refine .bind_read (.ite (fun h0 => .pure ⟨?_, h, .refl refs s⟩) fun hne => ?_)
    · simp [DInode.zoneAt, h0, namedBy_zero]
    · have hx : ((s.inode i).iZone 7).toNat ≠ 0 := fun h0 => hne (UInt16.toNat_inj.mp h0)
      have hr := hread (.root 7) (by simp [ZonePos.above]) hx
      refine (h.readBuff henv hwhich hr.used hr.room hr.header).bind ?_
      rintro (_ | b) t hres
      · exact absurd hall hres.2.2
      obtain ⟨hold, hbeside, -⟩ := hres
      refine (indexedZone henv hall hold hr.used hr.firm).mono ?_
      rintro _ v ⟨rfl, hv, hput⟩
      exact ⟨(namedBy_of_ne hx _).symm, hv, hbeside.trans hput⟩
  · rw [if_neg hsingle]
    -- two index blocks: `i_zone[8]` names the first
    rw [blockPos_double hroot hsingle hblock] at hread ⊢
    refine (hkeep 8).bind ?_
    rintro _ _ rfl
    refine .bind_read (.ite (fun h0 => .pure ⟨?_, h, .refl refs s⟩) fun hne => ?_)
    · simp [DInode.zoneAt, h0, namedBy_zero]
    · have hx : ((s.inode i).iZone 8).toNat ≠ 0 := fun h0 => hne (UInt16.toNat_inj.mp h0)
      have hr := hread (.root 8) (by simp [ZonePos.above]) hx
      refine (h.readBuff henv hwhich hr.used hr.room hr.header).bind ?_
      rintro (_ | b) t hres
      · exact absurd hall hres.2.2
      obtain ⟨hold, hbeside, -⟩ := hres
      refine (indexedZone henv hall hold hr.used hr.firm).bind ?_
      rintro _ v ⟨rfl, hv, hput⟩
      have hlt : (block - 7 - 512) / 512 < 512 := by
        unfold maxBlocks at hblock
        omega
      have hword : ((M ((s.inode i).iDev, (s.inode i).zoneAt M (s.inode i).iDev (.root 8))).word
          ((block - 7 - 512) / 512)).toNat =
          (s.inode i).zoneAt M (s.inode i).iDev (.table ⟨(block - 7 - 512) / 512, hlt⟩) :=
        (namedBy_of_ne hx _).symm
      rw [hword]
      have hboth := hbeside.trans hput
      refine .ite (fun h0 => .pure ⟨?_, hv, hboth⟩) fun hne' => ?_
      · exact (namedBy_zero M _ _).symm.trans (congrArg (namedBy M _ · _) h0.symm)
      · -- the index block that the first one names
        have hr' := (hread (.table ⟨(block - 7 - 512) / 512, hlt⟩)
          (by simp [ZonePos.above]) hne').beside hboth
        have hdev : (v.inode i).iDev = (s.inode i).iDev := by rw [hboth.inode]
        refine .bind_read ?_
        rw [hdev]
        refine (hv.readBuff henv hwhich hr'.used hr'.room hr'.header).bind ?_
        rintro (_ | c) t' hres'
        · exact absurd hall hres'.2.2
        obtain ⟨hold', hbeside', -⟩ := hres'
        refine (indexedZone henv hall hold' hr'.used hr'.firm).mono ?_
        rintro _ v' ⟨rfl, hv', hput'⟩
        refine ⟨(namedBy_of_ne hne' _).symm, hv', hboth.trans (hbeside'.trans hput')⟩

end

end Mapped

end EgGS
