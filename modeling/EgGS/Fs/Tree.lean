import EgGS.Fs.Table

/-!
# The zones of an inode

The zones of an inode form a tree: seven are named by the inode, 512 by the index block in
`i_zone[7]` and 512 * 512 by the index blocks that the one in `i_zone[8]` names.  A `ZonePos` is a
place of this tree, and `zoneAt` is the zone that is named there, 0 if none is.

`delete_block`, `delete_indirecte_block` and `delete_double_indirecte_block` clear the bits of the
zones they come to.  `Freed` says which these are, and that nothing else has changed.
-/

namespace EgGS

open Lib Prog

variable {n : ℕ} {env : Env n} {s t u : Sys n} {dev x z : ℕ} {sb : Fin nrSuper}
variable {which : Rw → Prop} {used loose : ℕ × ℕ → Prop} {M M₁ M₂ : Contents}
variable {refs refs' : Refs n} {i : Fin nrInode} {b : Fin n} {Z Z' : Set ℕ}

/-! ## Names of zones -/

/-- The zone that word `w` of the index block in the zone `x` names. -/
def namedBy (M : Contents) (dev x w : ℕ) : ℕ := if x = 0 then 0 else ((M (dev, x)).word w).toNat

/-- The places of the tree of an inode. -/
inductive ZonePos where
  | root (z : Fin 9)
  | single (w : Fin 512)
  | table (w : Fin 512)
  | double (w w' : Fin 512)
  deriving DecidableEq

/-- The zone that is named at a place of the tree. -/
def DInode.zoneAt (d : DInode) (M : Contents) (dev : ℕ) : ZonePos → ℕ
  | .root z => (d.iZone z).toNat
  | .single w => namedBy M dev (d.iZone 7).toNat w
  | .table w => namedBy M dev (d.iZone 8).toNat w
  | .double w w' => namedBy M dev (namedBy M dev (d.iZone 8).toNat w) w'

/-- The zones of the tree. -/
def DInode.zones (d : DInode) (M : Contents) (dev : ℕ) : Set ℕ :=
  {z | z ≠ 0 ∧ ∃ p, d.zoneAt M dev p = z}

theorem namedBy_zero (M : Contents) (dev w : ℕ) : namedBy M dev 0 w = 0 := if_pos rfl

theorem namedBy_of_ne (hx : x ≠ 0) (w : ℕ) :
    namedBy M dev x w = ((M (dev, x)).word w).toNat := if_neg hx

theorem namedBy_congr (h : x ≠ 0 → M₁ (dev, x) = M (dev, x)) (w : ℕ) :
    namedBy M₁ dev x w = namedBy M dev x w := by
  by_cases hx : x = 0
  · rw [hx, namedBy_zero, namedBy_zero]
  · rw [namedBy_of_ne hx, namedBy_of_ne hx, h hx]

/-- The zones that the index block in the zone `x` names. -/
def namedZones (M : Contents) (dev x : ℕ) : Set ℕ := {z | z ≠ 0 ∧ ∃ w < 512, namedBy M dev x w = z}

/-- The zone `x` and those that it names as an index block. -/
def indirectZones (M : Contents) (dev x : ℕ) : Set ℕ := {z | z ≠ 0 ∧ z = x} ∪ namedZones M dev x

/-- The zone `x`, the index blocks that it names, and the zones that these name. -/
def doubleZones (M : Contents) (dev x : ℕ) : Set ℕ :=
  {z | z ≠ 0 ∧ z = x} ∪ {z | ∃ w < 512, z ∈ indirectZones M dev (namedBy M dev x w)}

theorem indirectZones_zero (M : Contents) (dev : ℕ) : indirectZones M dev 0 = ∅ := by
  ext z
  simp only [indirectZones, namedZones, namedBy_zero, Set.mem_union, Set.mem_ofPred_eq,
    Set.mem_empty_iff_false, iff_false, not_or, not_and, not_exists]
  exact ⟨fun hz => hz, fun hz w _ heq => hz heq.symm⟩

theorem doubleZones_zero (M : Contents) (dev : ℕ) : doubleZones M dev 0 = ∅ := by
  ext z
  simp only [doubleZones, namedBy_zero, indirectZones_zero, Set.mem_union, Set.mem_ofPred_eq,
    Set.mem_empty_iff_false, iff_false, not_or, not_and, not_exists]
  exact ⟨fun hz => hz, fun _ _ => not_false⟩

theorem indirectZones_congr (h : x ≠ 0 → M₁ (dev, x) = M (dev, x)) :
    indirectZones M₁ dev x = indirectZones M dev x := by
  unfold indirectZones namedZones
  simp only [namedBy_congr h]

theorem doubleZones_congr (h : x ≠ 0 → M₁ (dev, x) = M (dev, x))
    (hindex : ∀ w < 512, namedBy M dev x w ≠ 0 →
      M₁ (dev, namedBy M dev x w) = M (dev, namedBy M dev x w)) :
    doubleZones M₁ dev x = doubleZones M dev x := by
  unfold doubleZones
  simp only [namedBy_congr h]
  refine congrArg _ (Set.ext fun z => ⟨?_, ?_⟩)
  · rintro ⟨w, hw, hz⟩
    exact ⟨w, hw, indirectZones_congr (hindex w hw) ▸ hz⟩
  · rintro ⟨w, hw, hz⟩
    exact ⟨w, hw, (indirectZones_congr (hindex w hw)).symm ▸ hz⟩

/-- The zones of the tree are those that the inode names directly, and those below its two index
blocks. -/
theorem DInode.zones_eq (d : DInode) (M : Contents) (dev : ℕ) : d.zones M dev =
    {y | y ≠ 0 ∧ ∃ z : Fin 9, z.val < 7 ∧ (d.iZone z).toNat = y} ∪
      indirectZones M dev (d.iZone 7).toNat ∪ doubleZones M dev (d.iZone 8).toNat := by
  ext y
  simp only [DInode.zones, indirectZones, doubleZones, namedZones, Set.mem_union, Set.mem_ofPred_eq]
  constructor
  · rintro ⟨hy, p, hp⟩
    cases p with
    | root z =>
        rcases Nat.lt_or_ge z.val 7 with hz | hz
        · exact .inl (.inl ⟨hy, z, hz, hp⟩)
        · obtain rfl | rfl : z = 7 ∨ z = 8 := by omega
          · exact .inl (.inr (.inl ⟨hy, hp.symm⟩))
          · exact .inr (.inl ⟨hy, hp.symm⟩)
    | single w => exact .inl (.inr (.inr ⟨hy, w, w.isLt, hp⟩))
    | table w => exact .inr (.inr ⟨w, w.isLt, .inl ⟨hy, hp.symm⟩⟩)
    | double w w' => exact .inr (.inr ⟨w, w.isLt, .inr ⟨hy, w', w'.isLt, hp⟩⟩)
  · rintro ((⟨hy, z, -, hz⟩ | ⟨hy, hz⟩ | ⟨hy, w, hw, hz⟩) | ⟨hy, hz⟩ |
      ⟨w, hw, ⟨hy, hz⟩ | ⟨hy, w', hw', hz⟩⟩)
    · exact ⟨hy, .root z, hz⟩
    · exact ⟨hy, .root 7, hz.symm⟩
    · exact ⟨hy, .single ⟨w, hw⟩, hz⟩
    · exact ⟨hy, .root 8, hz.symm⟩
    · exact ⟨hy, .table ⟨w, hw⟩, hz.symm⟩
    · exact ⟨hy, .double ⟨w, hw⟩ ⟨w', hw'⟩, hz⟩

/-! ## Zones that are freed -/

/-- The zone can be freed: it is a data zone with a bit, and nobody holds its buffer. -/
structure Erasable (loose : ℕ × ℕ → Prop) (refs : Refs n) (s : Sys n) (dev : ℕ) (sb : Fin nrSuper)
    (z : ℕ) : Prop where
  data : (s.superBlock sb).DataZone z
  bit : ∃ v, s.zmap sb ((s.superBlock sb).zoneBit z) = some v
  unheld : s.Unheld refs dev z
  firm : ¬ loose (dev, z)

/-- From `s` to `t` the zones in `Z` were freed: their bits are clear, all others are as before, and
nothing but the bitmap and the contents of these zones has changed. -/
structure Freed (which : Rw → Prop) (used loose : ℕ × ℕ → Prop) (M : Contents) (refs : Refs n)
    (s : Sys n) (dev : ℕ) (sb : Fin nrSuper) (Z : Set ℕ) (M₁ : Contents) (t : Sys n) : Prop where
  mapped : Mapped which used loose M₁ refs t
  beside : Beside refs s t
  contents : ∀ y, y ∉ s.mapKeys (s.superBlock sb).sZmap → (∀ z ∈ Z, y ≠ (dev, z)) → M₁ y = M y
  cleared : ∀ z ∈ Z, t.zmap sb ((s.superBlock sb).zoneBit z) = some false
  others : ∀ m, (∀ z ∈ Z, (s.superBlock sb).zoneBit z ≠ m) → t.zmap sb m = s.zmap sb m

namespace Freed

variable (hv : Volume used refs s dev sb)

theorem refl (h : Mapped which used loose M refs s) :
    Freed which used loose M refs s dev sb ∅ M s where
  mapped := h
  beside := .refl refs s
  contents _ _ _ := rfl
  cleared _ hz := absurd hz (Set.notMem_empty _)
  others _ _ := rfl

theorem congr (h : Freed which used loose M refs s dev sb Z M₁ t) (heq : Z = Z') :
    Freed which used loose M refs s dev sb Z' M₁ t := heq ▸ h

theorem super (h : Freed which used loose M refs s dev sb Z M₁ t) :
    t.superBlock = s.superBlock := h.beside.superBlock

theorem erasable (h : Freed which used loose M refs s dev sb Z M₁ t)
    (hz : Erasable loose refs s dev sb z) : Erasable loose refs t dev sb z where
  data := by
    rw [h.super]
    exact hz.data
  bit := by
    rw [h.super]
    by_cases hin : ∃ y ∈ Z, (s.superBlock sb).zoneBit y = (s.superBlock sb).zoneBit z
    · obtain ⟨y, hy, heq⟩ := hin
      exact ⟨false, heq ▸ h.cleared y hy⟩
    · rw [h.others _ fun y hy heq => hin ⟨y, hy, heq⟩]
      exact hz.bit
  unheld := hz.unheld.beside h.beside
  firm := hz.firm

include hv

theorem volume (h : Freed which used loose M refs s dev sb Z M₁ t) : Volume used refs t dev sb :=
  hv.beside h.beside

/-- The contents of a data zone that was not freed. -/
theorem same (h : Freed which used loose M refs s dev sb Z M₁ t)
    (hz : (s.superBlock sb).DataZone z) (hout : z ∉ Z) : M₁ (dev, z) = M (dev, z) := by
  refine h.contents _ (hv.zapart z hz) fun y hy heq => ?_
  obtain rfl : z = y := (Prod.ext_iff.mp heq).2
  exact hout hy

/-- The inode bitmap is as before. -/
theorem imap (h : Freed which used loose M refs s dev sb Z M₁ t)
    (hm : Mapped which used loose M refs s)
    (hdata : ∀ z ∈ Z, (s.superBlock sb).DataZone z) : t.imap sb = s.imap sb := by
  unfold Sys.imap
  rw [h.super]
  refine hv.iheld.bitmap_eq h.beside hm.coherent h.mapped.coherent fun y hy => ?_
  refine h.contents y (fun hz => Set.disjoint_left.mp hv.split hz hy) ?_
  rintro z hz rfl
  exact hv.iapart z (hdata z hz) hy

/-- **Freeing more zones.** -/
theorem trans (h : Freed which used loose M refs s dev sb Z M₁ t)
    (h' : Freed which used loose M₁ refs t dev sb Z' M₂ u) :
    Freed which used loose M refs s dev sb (Z ∪ Z') M₂ u where
  mapped := h'.mapped
  beside := h.beside.trans h'.beside
  contents y hy hne := by
    have hkeys := hv.zheld.mapKeys_eq h.beside
    rw [h'.contents y (by rwa [h.super, hkeys]) fun z hz => hne z (.inr hz),
      h.contents y hy fun z hz => hne z (.inl hz)]
  cleared z hz := by
    by_cases hin : ∃ y ∈ Z', (s.superBlock sb).zoneBit y = (s.superBlock sb).zoneBit z
    · obtain ⟨y, hy, heq⟩ := hin
      have hcleared := h'.cleared y hy
      rwa [h.super, heq] at hcleared
    · have hother := h'.others ((s.superBlock sb).zoneBit z) fun y hy heq => hin
        ⟨y, hy, h.super ▸ heq⟩
      rw [hother]
      exact h.cleared z (hz.resolve_right fun hz' => hin ⟨z, hz', rfl⟩)
  others m hm := by
    rw [h'.others m fun z hz => h.super ▸ hm z (.inr hz), h.others m fun z hz => hm z (.inl hz)]

end Freed

/-- The bitmap of a volume stays where the contents do. -/
theorem Volume.zmap_eq (hv : Volume used refs s dev sb) (hbeside : Beside refs s t)
    (h : Mapped which used loose M refs' s) {refs₁ : Refs n}
    (ht : Mapped which used loose M refs₁ t) :
    t.zmap sb = s.zmap sb := by
  unfold Sys.zmap
  rw [hbeside.superBlock]
  exact hv.zheld.bitmap_eq hbeside h.coherent ht.coherent (Set.eqOn_refl _ _)

/-- Zones are freed by a holder of another buffer, who then gives it back. -/
theorem Freed.within (hv : Volume used refs s dev sb) (hs : Mapped which used loose M refs s)
    {s' : Sys n} (hs' : Mapped which used loose M refs' s') (hbeside : Beside refs s s')
    (hle : refs ≤ refs') (h : Freed which used loose M refs' s' dev sb Z M₁ t)
    (hu : Mapped which used loose M₁ refs u) (hput : Beside refs' t u) :
    Freed which used loose M refs s dev sb Z M₁ u := by
  have hsuper := hbeside.superBlock
  have hstart : s'.zmap sb = s.zmap sb := hv.zmap_eq hbeside hs hs'
  have hend : u.zmap sb = t.zmap sb :=
    (((hv.beside hbeside).mono hle).beside h.beside).zmap_eq hput h.mapped hu
  refine ⟨hu, hbeside.trans ((h.beside.trans hput).mono hle), fun y hy hne => ?_, fun z hz => ?_,
    fun m hm => ?_⟩
  · refine h.contents y ?_ hne
    rwa [hsuper, hv.zheld.mapKeys_eq hbeside]
  · rw [hend]
    exact hsuper ▸ h.cleared z hz
  · rw [hend, h.others m (hsuper.symm ▸ hm), hstart]

namespace Mapped

/-- **The loop over an index block** frees what its body frees for each word. -/
theorem forEachZone {F : ℕ → Set ℕ} {body : ℕ → P n Unit} (hv : Volume used refs s dev sb)
    (h : Mapped which used loose M refs s) (hb : Firm refs s b) (hkey : s.key b = (dev, x))
    (hx : (s.superBlock sb).DataZone x)
    (hx0 : x ≠ 0) (hout : ∀ w < 512, x ∉ F w) (hzero : ∀ w < 512, namedBy M dev x w = 0 → F w = ∅)
    (hbody : ∀ w < 512, namedBy M dev x w ≠ 0 → ∀ M₁ t,
      Freed which used loose M refs s dev sb {z | ∃ w' < w, z ∈ F w'} M₁ t →
      Does (body (namedBy M dev x w)) env t fun _ u =>
        ∃ M₂, Freed which used loose M₁ refs t dev sb (F w) M₂ u) :
    Does (EgGS.forEachZone b body) env s fun _ u =>
      ∃ M₂, Freed which used loose M refs s dev sb {z | ∃ w < 512, z ∈ F w} M₂ u := by
  -- behind the words before `k` their zones are freed
  let I (l : List ℕ) (t : Sys n) : Prop := ∃ k ≤ 512, l = List.range' k (512 - k) ∧
    ∃ M₁, Freed which used loose M refs s dev sb {z | ∃ w < k, z ∈ F w} M₁ t
  have hstart : I (List.range 512) s :=
    ⟨0, Nat.zero_le _, List.range_eq_range', M, (Freed.refl h).congr (by simp)⟩
  unfold EgGS.forEachZone
  refine (Does.forEach (I := I) (fun w l t ht => ?_) _ s hstart).mono ?_
  · obtain ⟨k, hk, hl, M₁, hfreed⟩ := ht
    have hlt : k < 512 := by
      by_contra hge
      rw [show 512 - k = 0 by omega] at hl
      exact absurd hl (by simp)
    rw [show 512 - k = (512 - (k + 1)) + 1 by omega, List.range'_succ] at hl
    obtain ⟨rfl, rfl⟩ := List.cons.inj hl
    have hdata : (t.buf b).bData = M (dev, x) := by
      have hfirm := hb.beside hfreed.beside
      have hsame := hfreed.same hv hx fun hin => by
        obtain ⟨w', hw', hin⟩ := hin
        exact hout w' (hw'.trans hlt) hin
      rw [hfreed.mapped.coherent.cached b hfirm.dev hfirm.uptodate,
        hfreed.beside.key b hb.held, hkey, hsame]
    have hset : {z | ∃ w' < w, z ∈ F w'} ∪ F w = {z | ∃ w' < w + 1, z ∈ F w'} := by
      ext z
      simp only [Set.mem_union, Set.mem_ofPred_eq]
      constructor
      · rintro (⟨w', hw', hz⟩ | hz)
        · exact ⟨w', by omega, hz⟩
        · exact ⟨w, by omega, hz⟩
      · rintro ⟨w', hw', hz⟩
        rcases Nat.lt_succ_iff_lt_or_eq.mp hw' with hlt' | rfl
        · exact .inl ⟨w', hlt', hz⟩
        · exact .inr hz
    refine .bind_read ?_
    dsimp only
    rw [hdata, ← namedBy_of_ne hx0]
    -- a word 0 names no zone, and its set is empty
    refine .ite (fun h0 => .pure ⟨w + 1, hlt, rfl, M₁, hfreed.congr ?_⟩) fun hne => ?_
    · rw [← hset, hzero w hlt h0, Set.union_empty]
    · refine (hbody w hlt hne M₁ t hfreed).mono ?_
      rintro _ u ⟨M₂, hu⟩
      exact ⟨w + 1, hlt, rfl, M₂, (hfreed.trans hv hu).congr hset⟩
  · rintro _ u ⟨k, hk, hl, M₁, hfreed⟩
    have hlen : 512 - k = 0 := by
      have := congrArg List.length hl
      simpa using this.symm
    obtain rfl : k = 512 := by omega
    exact ⟨M₁, hfreed⟩

section

variable (henv : env.Works which) (hwhich : which .write) (hv : Volume used refs s dev sb)
include henv hwhich hv

/-- **`delete_block`** frees one zone. -/
theorem deleteOne (h : Mapped which used loose M refs s) (hz : Erasable loose refs s dev sb z) :
    Does (EgGS.deleteBlock dev z) env s fun _ u =>
      ∃ M₂, Freed which used loose M refs s dev sb {z} M₂ u := by
  obtain ⟨v, hbit⟩ := hz.bit
  refine (h.deleteBlock henv hwhich hv hz.data hbit hz.unheld hz.firm).mono ?_
  rintro _ u ⟨M₂, hu, hbeside, hsame, hzmap⟩
  refine ⟨M₂, hu, hbeside, fun y hy hne => hsame ?_, ?_, fun m hm => ?_⟩
  · rintro (rfl | hin)
    · exact hne z rfl rfl
    · exact hy hin
  · rintro y rfl
    rw [hzmap, Function.update_self]
  · rw [hzmap, Function.update_of_ne (hm z rfl).symm]

end

end Mapped

/-! ## Index blocks -/

/-- Two headers are free, so that a block can be read while an index block is held. -/
def Spare (refs : Refs n) : Prop := ∃ c c', c ≠ c' ∧ refs c = 0 ∧ refs c' = 0

theorem Spare.add (h : Spare refs) (b : Fin n) : ∃ c, (refs.add b) c = 0 := by
  obtain ⟨c, c', hne, hc, hc'⟩ := h
  by_cases hb : c = b
  · exact ⟨c', by rw [Refs.add_apply, hc', if_neg (hb ▸ hne.symm)]⟩
  · exact ⟨c, by rw [Refs.add_apply, hc, if_neg hb]⟩

theorem Erasable.add (h : Erasable loose refs s dev sb z) (hne : s.key b ≠ (dev, z)) :
    Erasable loose (refs.add b) s dev sb z where
  data := h.data
  bit := h.bit
  unheld c hc := by
    have hcb : c ≠ b := by
      rintro rfl
      exact hne ((Sys.key_eq _).mpr hc)
    rw [Refs.add_apply, if_neg hcb, h.unheld c hc]
  firm := h.firm

/-- The index block in the zone `x` is held in `u`, and the other zones can be freed as before. -/
structure UnderIndex (used loose : ℕ × ℕ → Prop) (refs : Refs n) (s : Sys n) (dev : ℕ)
    (sb : Fin nrSuper) (x : ℕ) (refs' : Refs n) (u : Sys n) : Prop where
  volume : Volume used refs' u dev sb
  super : u.superBlock = s.superBlock
  erasable : ∀ z, z ≠ x → Erasable loose refs s dev sb z → Erasable loose refs' u dev sb z
  spare : Spare refs → ∃ c, refs' c = 0

/-- The index block in the zone `x` can be freed, and so can the zones that it names. -/
structure ErasableIndex (loose : ℕ × ℕ → Prop) (M : Contents) (refs : Refs n) (s : Sys n) (dev : ℕ)
    (sb : Fin nrSuper) (x : ℕ) : Prop where
  block : x ≠ 0 → Erasable loose refs s dev sb x
  leaves : ∀ z ∈ namedZones M dev x, Erasable loose refs s dev sb z ∧ z ≠ x

/-- The index block in the zone `x` can be freed, and so can the index blocks that it names, no
two of which have a zone in common. -/
structure ErasableTable (loose : ℕ × ℕ → Prop) (M : Contents) (refs : Refs n) (s : Sys n) (dev : ℕ)
    (sb : Fin nrSuper) (x : ℕ) : Prop where
  block : x ≠ 0 → Erasable loose refs s dev sb x
  index : ∀ w < 512, ErasableIndex loose M refs s dev sb (namedBy M dev x w)
  apart : ∀ w < 512, x ∉ indirectZones M dev (namedBy M dev x w)
  once : ∀ w < 512, ∀ w' < w, namedBy M dev x w ∉ indirectZones M dev (namedBy M dev x w')

theorem ErasableIndex.congr (h : ErasableIndex loose M refs s dev sb x)
    (hsame : x ≠ 0 → M₁ (dev, x) = M (dev, x))
    (herase : ∀ z, (z = x ∨ z ∈ namedZones M dev x) → Erasable loose refs s dev sb z →
      Erasable loose refs' t dev sb z) : ErasableIndex loose M₁ refs' t dev sb x where
  block hx := herase x (.inl rfl) (h.block hx)
  leaves z hz := by
    unfold namedZones at hz
    simp only [namedBy_congr hsame] at hz
    exact ⟨herase z (.inr hz) (h.leaves z hz).1, (h.leaves z hz).2⟩

theorem ErasableTable.congr (h : ErasableTable loose M refs s dev sb x)
    (hsame : x ≠ 0 → M₁ (dev, x) = M (dev, x))
    (hindex : ∀ w < 512, namedBy M dev x w ≠ 0 →
      M₁ (dev, namedBy M dev x w) = M (dev, namedBy M dev x w))
    (herase : ∀ z, Erasable loose refs s dev sb z → Erasable loose refs t dev sb z) :
    ErasableTable loose M₁ refs t dev sb x where
  block hx := herase x (h.block hx)
  index w hw := by
    rw [namedBy_congr hsame]
    exact (h.index w hw).congr (hindex w hw) fun z _ => herase z
  apart w hw := by
    rw [namedBy_congr hsame, indirectZones_congr (hindex w hw)]
    exact h.apart w hw
  once w hw w' hw' := by
    rw [namedBy_congr hsame, namedBy_congr hsame, indirectZones_congr (hindex w' (hw'.trans hw))]
    exact h.once w hw w' hw'

namespace Mapped

section

variable (henv : env.Works which) (hall : ∀ cmd, which cmd) (hv : Volume used refs s dev sb)
include henv hall hv

/-- **An index block** was read: the zones that it names are freed, and then its own. -/
theorem throughIndex {F : ℕ → Set ℕ} {f : ℕ → P n Unit} (h : Mapped which used loose M refs s)
    (hread : ReadBuff which used loose M refs dev x s (some b) u) (hx0 : x ≠ 0)
    (hx : Erasable loose refs s dev sb x) (hout : ∀ w < 512, x ∉ F w)
    (hzero : ∀ w < 512, namedBy M dev x w = 0 → F w = ∅)
    (hbody : ∀ refs' u, UnderIndex used loose refs s dev sb x refs' u → ∀ w < 512,
      namedBy M dev x w ≠ 0 → ∀ M₁ t,
      Freed which used loose M refs' u dev sb {z | ∃ w' < w, z ∈ F w'} M₁ t →
      Does (f (namedBy M dev x w)) env t fun _ t' =>
        ∃ M₂, Freed which used loose M₁ refs' t dev sb (F w) M₂ t') :
    Does (do
      EgGS.forEachZone b f
      EgGS.putBuff (some b)
      EgGS.deleteBlock dev x : P n Unit) env u fun _ t =>
      ∃ M₂, Freed which used loose M refs s dev sb ({z | ∃ w < 512, z ∈ F w} ∪ {x}) M₂ t := by
  have hused := hv.zones x hx.data
  obtain ⟨⟨hu, hkey, hup, -⟩, hbeside, -⟩ := hread
  have hle := refs.le_add b
  have hv' := (hv.beside hbeside).mono hle
  have hsuper := hbeside.superBlock
  have hzmap : u.zmap sb = s.zmap sb := hv.zmap_eq hbeside h hu
  have hfirm : Firm (refs.add b) u b :=
    ⟨by simp [Refs.add], hup, hu.dev_of_key hused hkey⟩
  -- while the index block is in a buffer, what lies under it can still be freed
  have hunder : UnderIndex used loose refs s dev sb x (refs.add b) u := by
    refine ⟨hv', hsuper, fun z hne hz => ?_, fun h => h.add b⟩
    have hz' : Erasable loose refs u dev sb z :=
      ⟨by rw [hsuper]; exact hz.data, by rw [hsuper, hzmap]; exact hz.bit,
        hz.unheld.beside hbeside, hz.firm⟩
    refine hz'.add ?_
    rw [hkey]
    exact fun heq => hne (Prod.ext_iff.mp heq).2.symm
  have hdata : (u.superBlock sb).DataZone x := by
    rw [hsuper]
    exact hx.data
  refine (hu.forEachZone hv' hfirm hkey hdata hx0 hout hzero (hbody _ u hunder)).bind ?_
  rintro _ t ⟨M₁, ht⟩
  have hkey' : t.key b = (dev, x) := (ht.beside.key b hfirm.held).trans hkey
  refine (ht.mapped.putBuff henv (hall .write) hfirm.held (hkey' ▸ hx.firm)).bind ?_
  rintro _ t' ⟨ht', hput⟩
  rw [Refs.sub_add] at ht'
  -- with its buffer given back, the index block is the last zone to go
  have hfreed := Freed.within hv h hu hbeside hle ht ht' hput
  refine (ht'.deleteOne henv (hall .write) (hfreed.volume hv) (hfreed.erasable hx)).mono ?_
  rintro _ v ⟨M₂, hv₂⟩
  exact ⟨M₂, hfreed.trans hv hv₂⟩

/-- **`delete_indirecte_block`** frees the zones that an index block names, and its own. -/
theorem deleteIndirecte (h : Mapped which used loose M refs s)
    (hx : ErasableIndex loose M refs s dev sb x) (hspare : ∃ c, refs c = 0) :
    Does (EgGS.deleteIndirecteBlock dev x) env s fun _ u =>
      ∃ M₂, Freed which used loose M refs s dev sb (indirectZones M dev x) M₂ u := by
  unfold EgGS.deleteIndirecteBlock
  refine .ite (fun h0 => .pure ⟨M, ?_⟩) fun hx0 => ?_
  · rw [h0, indirectZones_zero]
    exact .refl h
  · have hblock := hx.block hx0
    refine (h.readBuff henv (hall .write) (hv.zones x hblock.data) hblock.unheld.roomy
      (.inr hspare)).bind ?_
    rintro (_ | b) u hread
    · -- `read_buff` fails only on a disk that does not work
      exact absurd hall hread.2.2
    dsimp only
    refine (h.throughIndex henv hall hv (F := fun w => {z | z ≠ 0 ∧ z = namedBy M dev x w})
      hread hx0 hblock ?_ ?_ ?_).mono ?_
    · intro w hw hin
      obtain ⟨-, heq⟩ := hin
      exact (hx.leaves x ⟨hx0, w, hw, heq.symm⟩).2 rfl
    · intro w hw h0
      ext z
      simp [h0]
    · intro refs' u hunder w hw hne M₁ t ht
      -- one turn frees the zone that the word names
      obtain ⟨hleaf, hleafx⟩ := hx.leaves _ ⟨hne, w, hw, rfl⟩
      have hz := ht.erasable (hunder.erasable _ hleafx hleaf)
      refine (ht.mapped.deleteOne henv (hall .write) (ht.volume hunder.volume) hz).mono ?_
      rintro _ t' ⟨M₂, ht'⟩
      refine ⟨M₂, ht'.congr ?_⟩
      ext z
      simp only [Set.mem_singleton_iff, Set.mem_ofPred_eq]
      exact ⟨fun heq => ⟨heq ▸ hne, heq⟩, fun hz => hz.2⟩
    · rintro _ u ⟨M₂, hu⟩
      refine ⟨M₂, hu.congr ?_⟩
      ext z
      simp only [indirectZones, namedZones, Set.mem_union, Set.mem_ofPred_eq, Set.mem_singleton_iff]
      constructor
      · rintro (⟨w, hw, hz, heq⟩ | rfl)
        · exact .inr ⟨hz, w, hw, heq.symm⟩
        · exact .inl ⟨hx0, rfl⟩
      · rintro (⟨-, rfl⟩ | ⟨hz, w, hw, heq⟩)
        · exact .inr rfl
        · exact .inl ⟨w, hw, hz, heq.symm⟩

/-- **`delete_double_indirecte_block`** frees all zones below an index block, and its own. -/
theorem deleteDouble (h : Mapped which used loose M refs s)
    (hx : ErasableTable loose M refs s dev sb x) (hspare : Spare refs) :
    Does (EgGS.deleteDoubleIndirecteBlock dev x) env s fun _ u =>
      ∃ M₂, Freed which used loose M refs s dev sb (doubleZones M dev x) M₂ u := by
  unfold EgGS.deleteDoubleIndirecteBlock
  refine .ite (fun h0 => .pure ⟨M, ?_⟩) fun hx0 => ?_
  · rw [h0, doubleZones_zero]
    exact .refl h
  · have hspare' : ∃ c, refs c = 0 := by
      obtain ⟨c, -, -, hc, -⟩ := hspare
      exact ⟨c, hc⟩
    have hblock := hx.block hx0
    refine (h.readBuff henv (hall .write) (hv.zones x hblock.data) hblock.unheld.roomy
      (.inr hspare')).bind ?_
    rintro (_ | b) u hread
    · exact absurd hall hread.2.2
    dsimp only
    -- each word of the block names an index block, which `delete_indirecte_block` frees
    refine (h.throughIndex henv hall hv (F := fun w => indirectZones M dev (namedBy M dev x w))
      hread hx0 hblock hx.apart ?_ ?_).mono ?_
    · intro w hw h0
      rw [h0, indirectZones_zero]
    · intro refs' u hunder w hw hne M₁ t ht
      have hindexed := (hx.index w hw).block hne
      have hnex : namedBy M dev x w ≠ x := fun heq =>
        hx.apart w hw (.inl ⟨hx0, heq.symm⟩)
      -- the index block and what it names were not freed before
      have hsame : M₁ (dev, namedBy M dev x w) = M (dev, namedBy M dev x w) := by
        refine ht.same hunder.volume ?_ ?_
        · rw [hunder.super]
          exact hindexed.data
        · rintro ⟨w', hw', hin⟩
          exact hx.once w hw w' hw' hin
      have hindex : ErasableIndex loose M₁ refs' t dev sb (namedBy M dev x w) := by
        refine (hx.index w hw).congr (fun _ => hsame) fun z hz hleaf => ?_
        refine ht.erasable (hunder.erasable z ?_ hleaf)
        rintro rfl
        rcases hz with heq | hz
        · exact hnex heq.symm
        · exact hx.apart w hw (.inr hz)
      refine (ht.mapped.deleteIndirecte henv hall (ht.volume hunder.volume) hindex
        (hunder.spare hspare)).mono ?_
      rintro _ t' ⟨M₂, ht'⟩
      exact ⟨M₂, ht'.congr (indirectZones_congr fun _ => hsame)⟩
    · rintro _ u ⟨M₂, hu⟩
      refine ⟨M₂, hu.congr ?_⟩
      ext z
      simp only [doubleZones, Set.mem_union, Set.mem_ofPred_eq, Set.mem_singleton_iff]
      constructor
      · rintro (hz | rfl)
        · exact .inr hz
        · exact .inl ⟨hx0, rfl⟩
      · rintro (⟨-, rfl⟩ | hz)
        · exact .inr rfl
        · exact .inl hz

end

end Mapped

end EgGS
