import EgGS.Fs.Locate

/-!
# Zones for blocks of an inode

`locate_by_inode` with `create` gives zones to the places on the way to a block that have none.
`OwnsTrees` says that every zone which the trees of some inodes name belongs to one place.  A zone
that is given to a place is fresh, because its bit was clear and the bits of all named zones are
set.

* `Mapped.locateCreate`: only places on the way to the block get zones, and no zone belongs to two
  places then.
-/

namespace EgGS

open Lib Prog

variable {n : ℕ} {ι : Type} {env : Env n} {s t u : Sys n} {dev x z block : ℕ}
variable {sb : Fin nrSuper} {w : Fin 512} {which : Rw → Prop} {used loose : ℕ × ℕ → Prop}
  {M M₁ M₂ : Contents}
variable {refs : Refs n} {i : Fin nrInode} {b : Fin n} {p q : ZonePos} {d : ι → DInode} {o : ι}

/-! ## Places below index blocks -/

/-- The place `p` is word `w` of the index block at the place `q`. -/
inductive ZonePos.Under : ZonePos → ZonePos → Fin 512 → Prop
  | single (w : Fin 512) : Under (.single w) (.root 7) w
  | table (w : Fin 512) : Under (.table w) (.root 8) w
  | double (w w' : Fin 512) : Under (.double w w') (.table w) w'

namespace ZonePos.Under

theorem zoneAt (h : p.Under q w) (d : DInode) (M : Contents) (dev : ℕ) :
    d.zoneAt M dev p = namedBy M dev (d.zoneAt M dev q) w := by
  cases h with
  | single w => rfl
  | table w => rfl
  | double w w' => rfl

theorem mem_above (h : p.Under q w) : q ∈ p.above := by
  cases h with
  | single w => simp [ZonePos.above]
  | table w => simp [ZonePos.above]
  | double w w' => simp [ZonePos.above]

/-- A word is one place. -/
theorem unique {p' : ZonePos} (h : p.Under q w) (h' : p'.Under q w) : p = p' := by
  cases h with
  | single w => cases h' with | single w' => rfl
  | table w => cases h' with | table w' => rfl
  | double w w' => cases h' with | double v v' => rfl

theorem parent {q' : ZonePos} {w' : Fin 512} (h : p.Under q w) (h' : p.Under q' w') :
    q = q' ∧ w = w' := by
  cases h with
  | single w => cases h' with | single w' => exact ⟨rfl, rfl⟩
  | table w => cases h' with | table w' => exact ⟨rfl, rfl⟩
  | double w w' => cases h' with | double v v' => exact ⟨rfl, rfl⟩

theorem ne_root (h : p.Under q w) (r : Fin 9) : ZonePos.root r ≠ p := by
  cases h <;> simp

end ZonePos.Under

/-- The word of an index block whose zone is given to the place `p`, which had none. -/
theorem zoneAt_grown {d d' : DInode} (hnone : d.zoneAt M dev p = 0)
    (hroot : ∀ r, (d'.iZone r).toNat = if ZonePos.root r = p then z else (d.iZone r).toNat)
    (hword : ∀ q q₀ (w : Fin 512), q.Under q₀ w → q₀ ≠ p → d.zoneAt M dev q₀ ≠ 0 →
      ((M₁ (dev, d.zoneAt M dev q₀)).word w).toNat =
        if q = p then z else ((M (dev, d.zoneAt M dev q₀)).word w).toNat)
    (hparent : ∀ q₀ w, p.Under q₀ w → d.zoneAt M dev q₀ ≠ 0)
    (hzero : z ≠ 0 → M₁ (dev, z) = zeroBlock) (q : ZonePos) :
    d'.zoneAt M₁ dev q = if q = p then z else d.zoneAt M dev q := by
  have hchild {q q₀ : ZonePos} {w : Fin 512} (hunder : q.Under q₀ w)
      (h₀ : d'.zoneAt M₁ dev q₀ = if q₀ = p then z else d.zoneAt M dev q₀) :
      d'.zoneAt M₁ dev q = if q = p then z else d.zoneAt M dev q := by
    have hqp : q₀ = p → q ≠ p := by
      rintro rfl rfl
      cases hunder
    rw [hunder.zoneAt, h₀]
    by_cases heq : q₀ = p
    · -- the new block is an index block without zones
      have hbefore : d.zoneAt M dev q = 0 := by rw [hunder.zoneAt, heq, hnone, namedBy_zero]
      rw [if_pos heq, if_neg (hqp heq), hbefore]
      by_cases hz : z = 0
      · rw [hz, namedBy_zero]
      · rw [namedBy_of_ne hz, hzero hz]
        simp [Block.word, zeroBlock]
    · rw [if_neg heq]
      by_cases hne : d.zoneAt M dev q₀ = 0
      · have hq : q ≠ p := by
          rintro rfl
          exact hparent q₀ w hunder hne
        rw [hne, namedBy_zero, if_neg hq, hunder.zoneAt, hne, namedBy_zero]
      · rw [namedBy_of_ne hne, hword q q₀ w hunder heq hne, hunder.zoneAt d M dev,
          namedBy_of_ne hne]
  cases q with
  | root r => exact hroot r
  | single w => exact hchild (.single w) (hroot 7)
  | table w => exact hchild (.table w) (hroot 8)
  | double w w' => exact hchild (.double w w') (hchild (.table w) (hroot 8))

/-! ## Owners -/

/-- Every zone that the inodes `d` name is named at one place of one tree.  It is a data zone, its
bit is set, and nobody holds its buffer. -/
structure OwnsTrees (M : Contents) (refs : Refs n) (s : Sys n) (dev : ℕ) (sb : Fin nrSuper)
    (d : ι → DInode) : Prop where
  once : ∀ o p o' q, (d o).zoneAt M dev p ≠ 0 → (d o).zoneAt M dev p = (d o').zoneAt M dev q →
    o = o' ∧ p = q
  data : ∀ o p, (d o).zoneAt M dev p ≠ 0 → (s.superBlock sb).DataZone ((d o).zoneAt M dev p)
  taken : ∀ o p, (d o).zoneAt M dev p ≠ 0 →
    s.zmap sb ((s.superBlock sb).zoneBit ((d o).zoneAt M dev p)) = some true
  unheld : ∀ o p, (d o).zoneAt M dev p ≠ 0 → s.Unheld refs dev ((d o).zoneAt M dev p)

theorem OwnsTrees.tree (h : OwnsTrees M refs s dev sb d) (o : ι) :
    OwnsTree M refs s dev sb (d o) where
  once p q hp heq := (h.once o p o q hp heq).2
  data := h.data o
  taken := h.taken o
  unheld := h.unheld o

/-- The allocator gives data zones only: the bits 0 and behind the last zone are set.  Block 0 of
the device is neither a data zone nor a block of a bitmap. -/
structure Fenced (used : ℕ × ℕ → Prop) (s : Sys n) (dev : ℕ) (sb : Fin nrSuper) : Prop where
  zero : s.zmap sb 0 = some true
  behind : ∀ m, s.zmap sb m = some false → (s.superBlock sb).bitZone m < (s.superBlock sb).sNzones
  first : 1 ≤ (s.superBlock sb).sFirstdatazone
  boot : used (dev, 0)
  zboot : (dev, 0) ∉ s.mapKeys (s.superBlock sb).sZmap
  iboot : (dev, 0) ∉ s.mapKeys (s.superBlock sb).sImap

theorem Fenced.setInode (hf : Fenced used s dev sb) (i : Fin nrInode) (f : MInode → MInode) :
    Fenced used (s.setInode i f) dev sb :=
    ⟨hf.zero, hf.behind, hf.first, hf.boot, hf.zboot, hf.iboot⟩

/-- Block 0 and the first zone stay where they are. -/
theorem Fenced.beside (hf : Fenced used s dev sb) (hv : Volume used refs s dev sb)
    (hbeside : Beside refs s t) (hzero : t.zmap sb 0 = some true)
    (hbehind : ∀ m, t.zmap sb m = some false →
      (s.superBlock sb).bitZone m < (s.superBlock sb).sNzones) :
    Fenced used t dev sb where
  zero := hzero
  behind := by
    rw [hbeside.superBlock]
    exact hbehind
  first := by
    rw [hbeside.superBlock]
    exact hf.first
  boot := hf.boot
  zboot := by
    rw [hbeside.superBlock, hv.zheld.mapKeys_eq hbeside]
    exact hf.zboot
  iboot := by
    rw [hbeside.superBlock, hv.iheld.mapKeys_eq hbeside]
    exact hf.iboot

/-! ## One block -/

/-- The zone was free: its bit was clear, and nobody holds its buffer. -/
structure FreshZone (refs : Refs n) (s : Sys n) (dev : ℕ) (sb : Fin nrSuper) (z : ℕ) : Prop where
  data : (s.superBlock sb).DataZone z
  free : s.zmap sb ((s.superBlock sb).zoneBit z) = some false
  unheld : s.Unheld refs dev z

/-- The zone bitmap when the zone `z` was given away; 0 stands for no zone. -/
def SuperBlock.given (p : SuperBlock n) (map : ℕ → Option Bool) (z : ℕ) : ℕ → Option Bool :=
  if z = 0 then map else Function.update map (p.zoneBit z) (some true)

/-- What `create_block` does: block `z` has zeros, and if `z` is not 0, it was free and its bit is
set. -/
structure BlockMade (which : Rw → Prop) (used loose : ℕ × ℕ → Prop) (M : Contents) (refs : Refs n)
    (s : Sys n) (dev : ℕ) (sb : Fin nrSuper) (z : ℕ) (M₁ : Contents) (t : Sys n) : Prop where
  mapped : Mapped which used loose M₁ refs t
  beside : Beside refs s t
  contents : ∀ y, y ∉ s.mapKeys (s.superBlock sb).sZmap → y ≠ (dev, z) → M₁ y = M y
  fresh : z ≠ 0 → FreshZone refs s dev sb z
  zeroed : M₁ (dev, z) = zeroBlock
  zmap : t.zmap sb = (s.superBlock sb).given (s.zmap sb) z

/-- Zones that the allocator gives are data zones, and not zone 0. -/
theorem Fenced.dataZone {m : ℕ} (hf : Fenced used s dev sb) (h : s.zmap sb m = some false) :
    (s.superBlock sb).DataZone ((s.superBlock sb).bitZone m) ∧
      (s.superBlock sb).bitZone m ≠ 0 ∧
        (s.superBlock sb).zoneBit ((s.superBlock sb).bitZone m) = m := by
  have hm : m ≠ 0 := by
    rintro rfl
    rw [hf.zero] at h
    exact absurd h (by decide)
  have hlt := hf.behind m h
  have hfirst := hf.first
  unfold SuperBlock.DataZone SuperBlock.zoneBit SuperBlock.bitZone at *
  exact ⟨⟨by omega, hlt⟩, by omega, by omega⟩

namespace Mapped

variable (henv : env.Works which) (hwhich : which .write) (hv : Volume used refs s dev sb)
  (hf : Fenced used s dev sb)
include henv hwhich hv hf

/-- **`create_block`**, whether or not there is a free zone. -/
theorem blockMade (h : Mapped which used (fun _ => False) M refs s) (hspare : ∃ c, refs c = 0) :
    Ensures (EgGS.createBlock dev) env s fun z t =>
      ∃ M₁, BlockMade which used (fun _ => False) M refs s dev sb z M₁ t := by
  by_cases hfree : ∃ m, s.FreeZoneBit sb m
  · obtain ⟨m, hm⟩ := hfree
    obtain ⟨hdata, hne, hbit⟩ := hf.dataZone hm.1
    refine (h.createBlock henv hwhich hv hf.zero hm hdata (.inr hspare) not_false).mono ?_
    rintro _ t ⟨rfl, hunheld, ht, hbeside, hzmap⟩
    refine ⟨_, ht, hbeside, fun y hy hne => ?_, fun _ => ⟨hdata, hbit.symm ▸ hm.1, hunheld⟩,
      Function.update_self .., ?_⟩
    · rw [Function.update_of_ne hne]
      exact s.marked_eqOn _ _ _ _ hy
    · rw [hzmap, SuperBlock.given, if_neg hne, hbit]
  · -- there is no free zone: block 0 of the device is taken instead
    obtain ⟨z, t, heval, hadded, -⟩ := hv.mounted.addZoneBitmap env hf.zero
    have hfull : z = 0 ∧ t = s.setIntr false := by
      cases hadded with
      | full _ => exact ⟨rfl, rfl⟩
      | @behind m hm _ => exact absurd ⟨m, hm⟩ hfree
      | @added m _ hm _ _ => exact absurd ⟨m, hm⟩ hfree
    obtain ⟨rfl, rfl⟩ := hfull
    have hs := h.setIntr henv hwhich false
    refine ((addZoneBitmap_stable dev).ensures (heval.does (Q := fun a u =>
      a = 0 ∧ u = s.setIntr false) ⟨rfl, rfl⟩)).bind ?_
    rintro _ _ ⟨rfl, rfl⟩
    refine (hs.clearNew henv hwhich hf.boot (.inr hspare) not_false).mono ?_
    rintro _ t ⟨rfl, -, ht, hbeside⟩
    have hbeside' : Beside refs s t :=
      (⟨rfl, rfl, rfl, rfl, fun _ _ => rfl, fun _ _ => id⟩ : Beside refs s
      (s.setIntr false)).trans hbeside
    refine ⟨_, ht, hbeside', fun y _ hne => Function.update_of_ne hne _ _,
      fun hbad => absurd rfl hbad, Function.update_self .., ?_⟩
    unfold Sys.zmap
    rw [hbeside'.superBlock, SuperBlock.given, if_pos rfl]
    refine hv.zheld.bitmap_eq hbeside' h.coherent ht.coherent fun y hy =>
      Function.update_of_ne ?_ _ _
    rintro rfl
    exact hf.zboot hy

end Mapped

/-! ## One place -/

/-- From `s` to `t` the place `p` of the inode `i` was looked at: it has the zone `z`, which is what
it had, or a fresh one.  Nothing else has changed, but the index block with the place and the
bitmap. -/
structure Grown (which : Rw → Prop) (used : ℕ × ℕ → Prop) (M : Contents) (refs : Refs n) (s : Sys n)
    (dev : ℕ) (sb : Fin nrSuper) (i : Fin nrInode) (p : ZonePos) (z : ℕ) (M₁ : Contents)
    (t : Sys n) :
    Prop where
  mapped : Mapped which used (fun _ => False) M₁ refs t
  beside : Beside refs (s.setInode i fun x =>
    { x with iZone := (t.inode i).iZone, iDirt := (t.inode i).iDirt }) t
  zoneAt : ∀ q, (t.inode i).zoneAt M₁ dev q = if q = p then z else (s.inode i).zoneAt M dev q
  kept : (s.inode i).zoneAt M dev p ≠ 0 → z = (s.inode i).zoneAt M dev p
  fresh : (s.inode i).zoneAt M dev p = 0 → z ≠ 0 →
    FreshZone refs s dev sb z ∧ M₁ (dev, z) = zeroBlock
  contents : ∀ y, y ∉ s.mapKeys (s.superBlock sb).sZmap →
    ((s.inode i).zoneAt M dev p = 0 → y ≠ (dev, z)) →
    (∀ q ∈ p.above, y ≠ (dev, (s.inode i).zoneAt M dev q)) → M₁ y = M y
  zmap : t.zmap sb = (s.superBlock sb).given (s.zmap sb) z

theorem SuperBlock.zoneBit_injective {P : SuperBlock n} {z' : ℕ} (hz : P.DataZone z)
    (hz' : P.DataZone z') (h : P.zoneBit z = P.zoneBit z') : z = z' := by
  unfold SuperBlock.DataZone at hz hz'
  unfold SuperBlock.zoneBit at h
  omega

/-- A bit that was set stays set. -/
theorem SuperBlock.given_true {P : SuperBlock n} {map : ℕ → Option Bool} {m : ℕ}
    (h : map m = some true) :
    P.given map z m = some true := by
  unfold SuperBlock.given
  split
  · exact h
  · by_cases hm : m = P.zoneBit z
    · rw [hm, Function.update_self]
    · rw [Function.update_of_ne hm, h]

/-- A bit that is clear was clear. -/
theorem SuperBlock.given_false {P : SuperBlock n} {map : ℕ → Option Bool} {m : ℕ}
    (h : P.given map z m = some false) : map m = some false := by
  unfold SuperBlock.given at h
  split at h
  · exact h
  · by_cases hm : m = P.zoneBit z
    · rw [hm, Function.update_self] at h
      exact absurd h (by decide)
    · rwa [Function.update_of_ne hm] at h

namespace Grown

theorem super (h : Grown which used M refs s dev sb i p z M₁ t) : t.superBlock = s.superBlock :=
  h.beside.superBlock

theorem bits {m : ℕ} (h : Grown which used M refs s dev sb i p z M₁ t)
    (hm : s.zmap sb m = some true) :
    t.zmap sb m = some true := by
  rw [h.zmap]
  exact SuperBlock.given_true hm

theorem clear {m : ℕ} (h : Grown which used M refs s dev sb i p z M₁ t)
    (hm : t.zmap sb m = some false) :
    s.zmap sb m = some false := by
  rw [h.zmap] at hm
  exact SuperBlock.given_false hm

theorem unheld {y : ℕ} (h : Grown which used M refs s dev sb i p z M₁ t)
    (hy : s.Unheld refs dev y) :
    t.Unheld refs dev y :=
  Sys.Unheld.beside (s := s.setInode i fun x =>
    { x with iZone := (t.inode i).iZone, iDirt := (t.inode i).iDirt }) hy h.beside

/-- A zone that the trees name is not the fresh one. -/
theorem ne_fresh (h : Grown which used M refs s dev sb i p z M₁ t)
    (howned : OwnsTrees M refs s dev sb d) (hnone : (s.inode i).zoneAt M dev p = 0)
    (hq : (d o).zoneAt M dev q ≠ 0) : (d o).zoneAt M dev q ≠ z := by
  rintro rfl
  have hfree := (h.fresh hnone hq).1.free
  rw [howned.taken o q hq] at hfree
  exact absurd hfree (by decide)

section

variable [DecidableEq ι] (h : Grown which used M refs s dev sb i p z M₁ t)
  (hv : Volume used refs s dev sb) (howned : OwnsTrees M refs s dev sb d)
  (ho : d o = (s.inode i).toDInode)
include h hv howned ho

/-- What the trees name afterwards. -/
theorem trees (o' : ι) (q : ZonePos) :
    (Function.update d o (t.inode i).toDInode o').zoneAt M₁ dev q =
      if o' = o ∧ q = p then z else (d o').zoneAt M dev q := by
  by_cases heq : o' = o
  · subst heq
    rw [Function.update_self, h.zoneAt q, ho]
    simp
  · rw [Function.update_of_ne heq, if_neg fun hboth => heq hboth.1]
    refine DInode.zoneAt_congr _ fun q' _ hne => ?_
    refine h.contents _ (hv.zapart _ (howned.data o' q' hne)) (fun hnone hz => ?_) fun q'' _ hz =>
      ?_
    · exact h.ne_fresh howned hnone hne (Prod.ext_iff.mp hz).2
    · rw [← ho] at hz
      exact heq (howned.once o' q' o q'' hne (Prod.ext_iff.mp hz).2).1

/-- **No zone belongs to two places** afterwards. -/
theorem owns : OwnsTrees M₁ refs t dev sb (Function.update d o (t.inode i).toDInode) := by
  have htrees := h.trees hv howned ho
  -- the zone of the place is fresh, or it was the zone of the place before
  have hcases : (d o).zoneAt M dev p = 0 ∨ z = (d o).zoneAt M dev p := by
    rw [ho]
    exact or_iff_not_imp_left.mpr h.kept
  have hother {o' : ι} {q : ZonePos} (hne : ¬ (o' = o ∧ q = p)) (hq : (d o').zoneAt M dev q ≠ 0) :
      (d o').zoneAt M dev q ≠ z := by
    rcases hcases with hnone | hkept
    · exact h.ne_fresh howned (ho ▸ hnone) hq
    · rw [hkept]
      intro heq
      exact hne (howned.once o' q o p hq heq)
  have hnew (hz : z ≠ 0) : (t.superBlock sb).DataZone z ∧
      t.zmap sb ((t.superBlock sb).zoneBit z) = some true ∧ t.Unheld refs dev z := by
    rw [h.super]
    refine ⟨?_, ?_, ?_⟩
    · rcases hcases with hnone | hkept
      · exact (h.fresh (ho ▸ hnone) hz).1.data
      · exact hkept ▸ howned.data o p (hkept ▸ hz)
    · rw [h.zmap, SuperBlock.given, if_neg hz, Function.update_self]
    · rcases hcases with hnone | hkept
      · exact h.unheld (h.fresh (ho ▸ hnone) hz).1.unheld
      · exact h.unheld (hkept ▸ howned.unheld o p (hkept ▸ hz))
  -- the one place that changed against all others, for each conjunct of `OwnsTrees`
  refine ⟨fun o₁ p₁ o₂ p₂ hne heq => ?_, fun o' q hq => ?_, fun o' q hq => ?_, fun o' q hq => ?_⟩
  · rw [htrees] at hne
    rw [htrees, htrees] at heq
    by_cases h₁ : o₁ = o ∧ p₁ = p
    · by_cases h₂ : o₂ = o ∧ p₂ = p
      · exact ⟨h₁.1.trans h₂.1.symm, h₁.2.trans h₂.2.symm⟩
      · rw [if_pos h₁] at hne
        rw [if_pos h₁, if_neg h₂] at heq
        exact absurd heq.symm (hother h₂ (heq ▸ hne))
    · rw [if_neg h₁] at hne heq
      by_cases h₂ : o₂ = o ∧ p₂ = p
      · rw [if_pos h₂] at heq
        exact absurd heq (hother h₁ hne)
      · rw [if_neg h₂] at heq
        exact howned.once o₁ p₁ o₂ p₂ hne heq
  · rw [htrees] at hq ⊢
    split at hq
    · rename_i hp
      rw [if_pos hp]
      exact (hnew hq).1
    · rename_i hp
      rw [if_neg hp, h.super]
      exact howned.data o' q hq
  · rw [htrees] at hq ⊢
    split at hq
    · rename_i hp
      rw [if_pos hp]
      exact (hnew hq).2.1
    · rename_i hp
      rw [if_neg hp, h.super]
      exact h.bits (howned.taken o' q hq)
  · rw [htrees] at hq ⊢
    split at hq
    · rename_i hp
      rw [if_pos hp]
      exact (hnew hq).2.2
    · rename_i hp
      rw [if_neg hp]
      exact h.unheld (howned.unheld o' q hq)

end

/-- The inode bitmap stays. -/
theorem imap (h : Grown which used M refs s dev sb i p z M₁ t) (hv : Volume used refs s dev sb)
    (hf : Fenced used s dev sb) (hs : Mapped which used (fun _ => False) M refs s)
    (htree : OwnsTree M refs s dev sb (s.inode i).toDInode) : t.imap sb = s.imap sb := by
  -- a zone that is named, or no zone, has no block of the inode bitmap
  have hnamed {y : ℕ} (hy : y ≠ 0 → (s.superBlock sb).DataZone y) :
      (dev, y) ∉ s.mapKeys (s.superBlock sb).sImap := by
    by_cases h0 : y = 0
    · exact h0 ▸ hf.iboot
    · exact hv.iapart y (hy h0)
  unfold Sys.imap
  rw [h.super]
  refine Sys.MapHeld.bitmap_eq (s := s.setInode i fun x =>
    { x with iZone := (t.inode i).iZone, iDirt := (t.inode i).iDirt })
    (hv.setInode i _).iheld h.beside
    (hs.setInode i _).coherent h.mapped.coherent fun y hy => ?_
  refine h.contents y (fun hz => Set.disjoint_left.mp hv.split hz hy) ?_ ?_
  · rintro hnone rfl
    exact hnamed (fun hz => (h.fresh hnone hz).1.data) hy
  · rintro q - rfl
    exact hnamed (htree.data q) hy

/-- The allocator still gives data zones only. -/
theorem fenced (h : Grown which used M refs s dev sb i p z M₁ t) (hv : Volume used refs s dev sb)
    (hf : Fenced used s dev sb) : Fenced used t dev sb :=
  (hf.setInode i _).beside (hv.setInode i _) h.beside (h.bits hf.zero) fun m hm => hf.behind m
  (h.clear hm)

/-- A call that leaves the inodes alone. -/
theorem names (hbeside : Beside refs s t) : Beside refs (s.setInode i fun x =>
    { x with iZone := (t.inode i).iZone, iDirt := (t.inode i).iDirt }) t := by
  rw [hbeside.inode, Sys.setInode_self]
  · exact hbeside
  · rfl

/-- The place has a zone, and nothing has changed. -/
theorem same (ht : Mapped which used (fun _ => False) M refs t) (hbeside : Beside refs s t)
    (hzmap : t.zmap sb = s.zmap sb) (htree : OwnsTree M refs s dev sb (s.inode i).toDInode)
    (hne : (s.inode i).zoneAt M dev p ≠ 0) :
    Grown which used M refs s dev sb i p ((s.inode i).zoneAt M dev p) M t where
  mapped := ht
  beside := names hbeside
  zoneAt q := by
    rw [hbeside.inode]
    split
    · rename_i hq
      rw [hq]
    · rfl
  kept _ := rfl
  fresh hnone := absurd hnone hne
  contents _ _ _ _ := rfl
  zmap := by
    rw [hzmap, SuperBlock.given, if_neg hne, ← htree.taken p hne, Function.update_eq_self]

end Grown

theorem Sys.Unheld.before {refs' : Refs n} (h : t.Unheld refs' dev z) (hbeside : Beside refs s t)
    (hle : refs ≤ refs') : s.Unheld refs dev z := by
  intro c hc
  rcases Nat.eq_zero_or_pos (refs c) with h0 | hpos
  · exact h0
  · have hkey : t.Keyed c dev z :=
      (Sys.key_eq (dev, z)).mp ((hbeside.key c hpos).trans ((Sys.key_eq (dev, z)).mpr hc))
    have hzero : refs' c = 0 := h c hkey
    have hle : refs c ≤ refs' c := hle c
    omega

/-- Another word of a block is left alone. -/
theorem Block.word_setWord_ne (data : Block) {v w : Fin 512} (h : v ≠ w) (word : UInt16) :
    (data.setWord w word).word v = data.word v := by
  have hval : v.val ≠ w.val := fun heq => h (Fin.ext heq)
  have hv := v.isLt
  have hw := w.isLt
  unfold Block.word Block.setWord
  simp only [Function.update_apply, Fin.mk.injEq]
  repeat rw [if_neg (by omega)]

/-- A fresh zone fits into a word. -/
theorem FreshZone.toNat (h : FreshZone refs s dev sb z) (hm : Mounted s dev sb) :
    (UInt16.ofNat z).toNat = z := by
  have hlt := h.data.2
  have hshort := hm.short
  rw [UInt16.toNat_ofNat']
  exact Nat.mod_eq_of_lt (by omega)

theorem BlockMade.toNat (h : BlockMade which used loose M refs s dev sb z M₁ t)
    (hm : Mounted s dev sb) :
    (UInt16.ofNat z).toNat = z := by
  by_cases hz : z = 0
  · rw [hz]
    rfl
  · exact (h.fresh hz).toNat hm

namespace Mapped

section

variable (henv : env.Works which) (hall : ∀ cmd, which cmd) (hv : Volume used refs s dev sb)
  (hf : Fenced used s dev sb) (htree : OwnsTree M refs s dev sb (s.inode i).toDInode)
  (hdev : (s.inode i).iDev = dev)
include henv hall hv hf htree hdev

/-- A name in the inode is given a zone, if it has none. -/
theorem growRoot (h : Mapped which used (fun _ => False) M refs s) (hspare : ∃ c, refs c = 0)
    (r : Fin 9) : Ensures (createZone i r true) env s fun _ t =>
      ∃ z M₁, Grown which used M refs s dev sb i (.root r) z M₁ t := by
  subst hdev
  refine .bind_read (.ite (fun hnone => ?_) fun hne => .pure ?_)
  · have hnone' : (s.inode i).zoneAt M (s.inode i).iDev (.root r) = 0 :=
      UInt16.toNat_inj.mpr hnone.2
    refine (h.blockMade henv (hall .write) hv hf hspare).bind ?_
    rintro z t ⟨M₁, hmade⟩
    have hnat := hmade.toNat hv.mounted
    have hinode := congrFun hmade.beside.inode i
    have hnamed {q : ZonePos} (hq : (s.inode i).zoneAt M (s.inode i).iDev q ≠ 0) :
        M₁ ((s.inode i).iDev, (s.inode i).zoneAt M (s.inode i).iDev q) =
          M ((s.inode i).iDev, (s.inode i).zoneAt M (s.inode i).iDev q) := by
      refine hmade.contents _ (hv.zapart _ (htree.data q hq)) fun heq => ?_
      have hz : (s.inode i).zoneAt M (s.inode i).iDev q = z := (Prod.ext_iff.mp heq).2
      have hfree := (hmade.fresh (hz ▸ hq)).free
      rw [← hz, htree.taken q hq] at hfree
      exact absurd hfree (by decide)
    -- the inode names the block, and is dirty then
    have hgrown (dirt : MInode → Bool) : Grown which used M refs s (s.inode i).iDev sb i
      (.root r) z M₁
        (t.setInode i fun x =>
          { x with iZone := Function.update x.iZone r (UInt16.ofNat z), iDirt := dirt x }) := by
      refine ⟨hmade.mapped.setInode i _, ?_, fun q => zoneAt_grown hnone' (fun r' => ?_) ?_ ?_ ?_ q,
        fun hne => absurd hnone' hne, fun _ hz => ⟨hmade.fresh hz, hmade.zeroed⟩, fun y hy hyz _ =>
          hmade.contents y hy (hyz hnone'), hmade.zmap⟩
      · refine (Sys.setInode_congr ?_) ▸ hmade.beside.setInode i _
        simp [Sys.setInode, hinode]
      · simp only [Sys.setInode, Function.update_self, hinode, ZonePos.root.injEq]
        by_cases heq : r' = r
        · subst heq
          simp [hnat]
        · simp [heq]
      · intro q q₀ w hunder _ hq₀
        rw [hnamed hq₀, if_neg (hunder.ne_root r).symm]
      · intro q₀ w hunder
        cases hunder
      · exact fun _ => hmade.zeroed
    refine .bind_update (.ite (fun _ => .update ⟨z, M₁, ?_⟩) fun _ => .pure ⟨z, M₁, ?_⟩)
    · rw [Sys.setInode_setInode]
      exact hgrown fun _ => true
    · exact hgrown MInode.iDirt
  · have hne' : (s.inode i).zoneAt M (s.inode i).iDev (.root r) ≠ 0 :=
      fun h0 => hne ⟨rfl, UInt16.toNat_inj.mp h0⟩
    exact ⟨_, M, .same h (.refl refs s) rfl htree hne'⟩

/-- A word of an index block that is held is given a zone, if it has none, and the buffer is given
back. -/
theorem growWord (h : Mapped which used (fun _ => False) M refs s) (hspare : Spare refs)
    (hunder : p.Under q w) (hx : (s.inode i).zoneAt M dev q ≠ 0)
    (hold : Holds which used (fun _ => False) M refs dev ((s.inode i).zoneAt M dev q) b u)
    (hbeside : Beside refs s u) : Ensures (EgGS.indexedZone i b w true) env u fun z t =>
      ∃ M₁, Grown which used M refs s dev sb i p z M₁ t := by
  have hwhich := hall .write
  set x := (s.inode i).zoneAt M dev q with hxdef
  have hdata := htree.data q hx
  have hused := hv.zones x hdata
  have hle := refs.le_add b
  have hpos : 0 < (refs.add b) b := by simp [Refs.add]
  have hzmap : u.zmap sb = s.zmap sb := hv.zmap_eq hbeside h hold.mapped
  have hsuper := hbeside.superBlock
  have hword : (s.inode i).zoneAt M dev p = ((M (dev, x)).word w).toNat := by
    rw [hunder.zoneAt, namedBy_of_ne hx]
  unfold EgGS.indexedZone
  refine .bind_read ?_
  rw [hold.data hused, congrFun hbeside.inode i, hdev]
  dsimp only
  -- the word is 0 and a block is made for it, or it names a zone already
  refine .ite (fun hnone => ?_) fun hne => ?_
  · have hnone' : (s.inode i).zoneAt M dev p = 0 := hword.trans hnone.2
    have hv' := (hv.beside hbeside).mono hle
    have hf' : Fenced used u dev sb :=
      hf.beside hv hbeside ((congrFun hzmap 0).trans hf.zero) fun m hm => hf.behind m (hzmap ▸ hm)
    refine (hold.mapped.blockMade henv hwhich hv' hf' (hspare.add b)).bind ?_
    rintro z t ⟨M₁, hmade⟩
    have hkey : t.key b = (dev, x) := (hmade.beside.key b hpos).trans hold.key
    have hup := hmade.beside.uptodate b hpos hold.uptodate
    have hbdev := hmade.mapped.dev_of_key hused hkey
    have hfresh (hz : z ≠ 0) : FreshZone refs s dev sb z := by
      obtain ⟨hzdata, hfree, hunheld⟩ := hmade.fresh hz
      rw [hsuper] at hzdata hfree
      exact ⟨hzdata, hzmap ▸ hfree, hunheld.before hbeside hle⟩
    have hne {q' : ZonePos} (hq' : (s.inode i).zoneAt M dev q' ≠ 0) :
        (s.inode i).zoneAt M dev q' ≠ z := by
      rintro rfl
      have hfree := (hfresh hq').free
      rw [htree.taken q' hq'] at hfree
      exact absurd hfree (by decide)
    have hsame {y : ℕ × ℕ} (hy : y ∉ s.mapKeys (s.superBlock sb).sZmap) (hyz : y ≠ (dev, z)) :
        M₁ y = M y := by
      refine hmade.contents y ?_ hyz
      rwa [hsuper, hv.zheld.mapKeys_eq hbeside]
    have hnamed {q' : ZonePos} (hq' : (s.inode i).zoneAt M dev q' ≠ 0) :
        M₁ (dev, (s.inode i).zoneAt M dev q') = M (dev, (s.inode i).zoneAt M dev q') :=
      hsame (hv.zapart _ (htree.data q' hq')) fun heq => hne hq' (Prod.ext_iff.mp heq).2
    -- the buffer is given back when the word has the zone
    have hend : ∀ M₂ t₂, Mapped which used (fun _ => False) M₂ (refs.add b) t₂ →
        Beside (refs.add b) t t₂ → (∀ y, y ≠ (dev, x) → M₂ y = M₁ y) →
        (∀ v : Fin 512, ((M₂ (dev, x)).word v).toNat =
          if v = w then z else ((M (dev, x)).word v).toNat) →
        Ensures (do
          EgGS.putBuff (some b)
          pure z) env t₂ fun z' t' => ∃ M', Grown which used M refs s dev sb i p z' M' t' := by
      intro M₂ t₂ ht₂ hbeside₂ hother hwords
      refine ((putBuff_stable (some b)).ensures (ht₂.putBuff henv hwhich hpos not_false)).bind ?_
      rintro _ t₃ ⟨ht₃, hput⟩
      rw [Refs.sub_add] at ht₃
      have hlast := hbeside₂.trans hput
      have hboth := hbeside.trans ((hmade.beside.trans hlast).mono hle)
      have hzero (hz : z ≠ 0) : M₂ (dev, z) = zeroBlock := by
        rw [hother _ fun heq => hne hx (Prod.ext_iff.mp heq).2.symm]
        exact hmade.zeroed
      have hlastmap : t₃.zmap sb = t.zmap sb := by
        have hvt := hv'.beside hmade.beside
        unfold Sys.zmap
        rw [hlast.superBlock]
        refine hvt.zheld.bitmap_eq hlast hmade.mapped.coherent ht₃.coherent fun y hy => hother y ?_
        rintro rfl
        refine hvt.zapart x ?_ hy
        rwa [hmade.beside.superBlock, hsuper]
      refine .pure ⟨M₂, ht₃, Grown.names hboth, fun q' => ?_, fun hbad => absurd hnone' hbad,
        fun _ hz => ⟨hfresh hz, hzero hz⟩, fun y hy hyz habove => ?_, ?_⟩
      · rw [hboth.inode]
        refine zoneAt_grown hnone' (fun r => by rw [if_neg (hunder.ne_root r)]) ?_ ?_ hzero q'
        · intro q₁ q₀ v hunder' _ hq₀
          -- a place under `q` reads the changed word only if it is `p`
          by_cases hq : q₀ = q
          · subst hq
            rw [hwords v]
            by_cases hvw : v = w
            · subst hvw
              rw [if_pos rfl, if_pos (hunder'.unique hunder)]
            · rw [if_neg hvw, if_neg]
              rintro rfl
              exact hvw (hunder'.parent hunder).2
          · have hq₁ : q₁ ≠ p := by
              rintro rfl
              exact hq (hunder'.parent hunder).1
            rw [if_neg hq₁, hother _ fun heq => htree.ne hq₀ hq (Prod.ext_iff.mp heq).2, hnamed hq₀]
        · intro q₀ v hunder'
          rw [(hunder'.parent hunder).1]
          exact hx
      · rw [hother y (habove q hunder.mem_above), hsame hy (hyz hnone')]
      · rw [hlastmap, hmade.zmap, hsuper, hzmap]
    have hold₁ : M₁ (dev, x) = M (dev, x) := hnamed hx
    have hdata₁ : (t.buf b).bData = M (dev, x) := by
      rw [hmade.mapped.coherent.cached b hbdev hup, hkey, hold₁]
    -- `create_block` found a zone, which is stored, or the device is full and the word stays 0
    refine .ite (fun hz => .bind_update ?_) fun hz => ?_
    · have hstore := hmade.mapped.store ((t.buf b).bData.setWord w (UInt16.ofNat z)) hbdev hup
      rw [hkey] at hstore
      refine hend _ _ hstore ?_ (fun y hy => Function.update_of_ne hy _ _) fun v => ?_
      · refine .of_rest (store_rest b _ t) fun c hc => ?_
        by_cases hcb : c = b
        · subst hcb
          simpa [EgGS.store] using hc
        · simpa [EgGS.store, hcb] using hc
      · rw [Function.update_self, hdata₁]
        by_cases hvw : v = w
        · subst hvw
          rw [Block.word_setWord, if_pos rfl, (hfresh hz).toNat hv.mounted]
        · rw [Block.word_setWord_ne _ hvw, if_neg hvw]
    · refine hend M₁ t hmade.mapped (.refl _ t) (fun _ _ => rfl) fun v => ?_
      rw [hold₁]
      by_cases hvw : v = w
      · rw [hvw, if_pos rfl, not_not.mp hz]
        exact hnone.2
      · rw [if_neg hvw]
  · -- nothing is made, and the buffer is given back
    have hne' : (s.inode i).zoneAt M dev p ≠ 0 := fun h0 => hne ⟨rfl, hword ▸ h0⟩
    refine ((putBuff_stable (some b)).ensures
      (hold.mapped.putBuff henv hwhich hpos not_false)).bind ?_
    rintro _ t ⟨ht, hput⟩
    rw [Refs.sub_add] at ht
    have hboth := hbeside.trans (hput.mono hle)
    refine .pure ⟨M, ?_⟩
    rw [← hword]
    exact .same ht hboth (hv.zmap_eq hboth h ht) htree hne'

end

end Mapped

/-! ## The way to a block -/

/-- From `s` to `t` the places `P` of the inode `i` were looked at, one after the other. -/
structure Located (which : Rw → Prop) (used : ℕ × ℕ → Prop) (M : Contents) (refs : Refs n)
    (s : Sys n) (dev : ℕ) (sb : Fin nrSuper) (i : Fin nrInode) (P : List ZonePos)
    (M₁ : Contents) (t : Sys n) : Prop where
  mapped : Mapped which used (fun _ => False) M₁ refs t
  beside : Beside refs (s.setInode i fun x =>
    { x with iZone := (t.inode i).iZone, iDirt := (t.inode i).iDirt }) t
  fenced : Fenced used t dev sb
  zoneAt : ∀ q, q ∉ P → (t.inode i).zoneAt M₁ dev q = (s.inode i).zoneAt M dev q
  kept : ∀ q, (s.inode i).zoneAt M dev q ≠ 0 →
    (t.inode i).zoneAt M₁ dev q = (s.inode i).zoneAt M dev q
  fresh : ∀ q, (s.inode i).zoneAt M dev q = 0 → (t.inode i).zoneAt M₁ dev q ≠ 0 →
    FreshZone refs s dev sb ((t.inode i).zoneAt M₁ dev q)
  zeroed : ∀ j, (s.inode i).blockZone M dev j = 0 → (t.inode i).blockZone M₁ dev j ≠ 0 →
    M₁ (dev, (t.inode i).blockZone M₁ dev j) = zeroBlock
  contents : ∀ y, (s.superBlock sb).DataZone y →
    s.zmap sb ((s.superBlock sb).zoneBit y) = some true →
    (∀ p ∈ P, ∀ q ∈ p.above, (s.inode i).zoneAt M dev q ≠ y) → M₁ (dev, y) = M (dev, y)
  bits : ∀ m, s.zmap sb m = some true → t.zmap sb m = some true
  clear : ∀ m, t.zmap sb m = some false → s.zmap sb m = some false
  imap : t.imap sb = s.imap sb

namespace Located

variable {P : List ZonePos}

theorem refl (h : Mapped which used (fun _ => False) M refs s) (hf : Fenced used s dev sb)
    (i : Fin nrInode) : Located which used M refs s dev sb i [] M s where
  mapped := h
  beside := Grown.names (.refl refs s)
  fenced := hf
  zoneAt _ _ := rfl
  kept _ _ := rfl
  fresh _ h0 hne := absurd h0 hne
  zeroed _ h0 hne := absurd h0 hne
  contents _ _ _ _ := rfl
  bits _ := id
  clear _ := id
  imap := rfl

theorem super (h : Located which used M refs s dev sb i P M₁ t) : t.superBlock = s.superBlock :=
  h.beside.superBlock

theorem inode (h : Located which used M refs s dev sb i P M₁ t) : t.inode i =
    { s.inode i with iZone := (t.inode i).iZone, iDirt := (t.inode i).iDirt } := by
  have hinode := congrFun h.beside.inode i
  simpa [Sys.setInode] using hinode

theorem iDev (h : Located which used M refs s dev sb i P M₁ t) :
    (t.inode i).iDev = (s.inode i).iDev := by
  rw [h.inode]

theorem volume (h : Located which used M refs s dev sb i P M₁ t) (hv : Volume used refs s dev sb) :
    Volume used refs t dev sb := (hv.setInode i _).beside h.beside

/-- **One more place.** -/
theorem step (h : Located which used M refs s dev sb i P M₁ t) (hv : Volume used refs s dev sb)
    (hf : Fenced used s dev sb) (htree : OwnsTree M₁ refs t dev sb (t.inode i).toDInode)
    (hgrown : Grown which used M₁ refs t dev sb i p z M₂ u) :
    Located which used M refs s dev sb i (p :: P) M₂ u := by
  have hvt := h.volume hv
  have hsuper := h.super
  have hfresh {y : ℕ} (hy : FreshZone refs t dev sb y) : FreshZone refs s dev sb y :=
    { data := hsuper ▸ hy.data
      free := hsuper ▸ h.clear _ hy.free
      unheld := Sys.Unheld.before (s := s.setInode i fun x =>
        { x with iZone := (t.inode i).iZone, iDirt := (t.inode i).iDirt })
          hy.unheld h.beside le_rfl }
  have hold {q : ZonePos} (hq : (t.inode i).zoneAt M₁ dev q ≠ 0) :
      (u.inode i).zoneAt M₂ dev q = (t.inode i).zoneAt M₁ dev q := by
    rw [hgrown.zoneAt]
    split
    · rename_i heq
      rw [heq] at hq ⊢
      exact hgrown.kept hq
    · rfl
  -- a zone that is taken and not above `p` keeps its block
  have hdata {y : ℕ} (hy : (t.superBlock sb).DataZone y)
      (hbit : t.zmap sb ((t.superBlock sb).zoneBit y) = some true)
      (habove : ∀ q ∈ p.above, (t.inode i).zoneAt M₁ dev q ≠ y) : M₂ (dev, y) = M₁ (dev, y) := by
    refine hgrown.contents _ (hvt.zapart y hy) (fun hnone heq => ?_) fun q hq heq => ?_
    · have hz : y = z := (Prod.ext_iff.mp heq).2
      have hfirst : 1 ≤ y := by
        rw [hsuper] at hy
        exact hf.first.trans hy.1
      have hfree := (hgrown.fresh hnone (by omega)).1.free
      rw [← hz, hbit] at hfree
      exact absurd hfree (by decide)
    · exact habove q hq (Prod.ext_iff.mp heq).2.symm
  refine ⟨hgrown.mapped, ?_, hgrown.fenced hvt h.fenced, fun q hq => ?_, fun q hq => ?_,
    fun q h0 hne => ?_, fun j h0 hne => ?_, fun y hy hbit hout => ?_, fun m hm => hgrown.bits
      (h.bits m hm), fun m hm => h.clear m (hgrown.clear hm), ?_⟩
  · have hboth := (h.beside.setInode i fun x =>
      { x with iZone := (u.inode i).iZone, iDirt := (u.inode i).iDirt }).trans hgrown.beside
    rwa [Sys.setInode_setInode] at hboth
  · have hqp : q ≠ p := by
      rintro rfl
      exact hq List.mem_cons_self
    rw [hgrown.zoneAt, if_neg hqp, h.zoneAt q fun hin => hq (List.mem_cons_of_mem _ hin)]
  · have hkept := h.kept q hq
    rw [hold (hkept.symm ▸ hq), hkept]
  · by_cases hnone : (t.inode i).zoneAt M₁ dev q = 0
    · rw [hgrown.zoneAt] at hne ⊢
      -- a place that was empty before the step can only be `p`
      by_cases hqp : q = p
      · rw [if_pos hqp] at hne ⊢
        exact hfresh (hgrown.fresh (hqp ▸ hnone) hne).1
      · rw [if_neg hqp] at hne
        exact absurd hnone hne
    · rw [hold hnone]
      exact h.fresh q h0 hnone
  · unfold DInode.blockZone at hne ⊢
    by_cases hnone : (t.inode i).zoneAt M₁ dev (blockPos j) = 0
    · rw [hgrown.zoneAt] at hne ⊢
      by_cases hjp : blockPos j = p
      · rw [if_pos hjp] at hne ⊢
        exact (hgrown.fresh (hjp ▸ hnone) hne).2
      · rw [if_neg hjp] at hne
        exact absurd hnone hne
    · rw [hold hnone, hdata (htree.data _ hnone) (htree.taken _ hnone) fun q hq => ?_]
      · exact h.zeroed j h0 hnone
      · refine fun heq => htree.ne hnone ?_ heq.symm
        rintro rfl
        exact blockPos_notMem_above j p hq
  · have hbit' : t.zmap sb ((t.superBlock sb).zoneBit y) = some true := hsuper ▸ h.bits _ hbit
    rw [hdata (hsuper ▸ hy) hbit' fun q hq heq => ?_]
    · exact h.contents y hy hbit fun p' hp' => hout p' (List.mem_cons_of_mem _ hp')
    · by_cases hnone : (s.inode i).zoneAt M dev q = 0
      · have hne : (t.inode i).zoneAt M₁ dev q ≠ 0 := by
          have hfirst := hf.first.trans hy.1
          omega
        have hfree := (h.fresh q hnone hne).free
        rw [heq, hbit] at hfree
        exact absurd hfree (by decide)
      · rw [h.kept q hnone] at heq
        exact hout p List.mem_cons_self q hq heq
  · rw [hgrown.imap hvt h.fenced h.mapped htree, h.imap]

end Located

section Create

variable [DecidableEq ι] (henv : env.Works which) (hall : ∀ cmd, which cmd)
  (hv : Volume used refs s dev sb) (hf : Fenced used s dev sb)
  (h : Mapped which used (fun _ => False) M refs s) (howned : OwnsTrees M refs s dev sb d)
  (ho : d o = (s.inode i).toDInode) (hdev : (s.inode i).iDev = dev)
include henv hall hv hf h howned ho hdev

/-- **`locate_by_inode`** with `create` looks at the places on the way to the block and returns the
zone of the block.  No zone belongs to two places then. -/
theorem Mapped.locateCreate (hspare : Spare refs) (hblock : block < maxBlocks) :
    Ensures (locateByInode i block true) env s fun z t => ∃ P M₁,
      Located which used M refs s dev sb i P M₁ t ∧
      OwnsTrees M₁ refs t dev sb (Function.update d o (t.inode i).toDInode) ∧
      (∀ p ∈ P, p = blockPos block ∨ p ∈ (blockPos block).above) ∧
      z = (t.inode i).blockZone M₁ dev block := by
  -- the places that were looked at, and the trees then
  let Looked (P : List ZonePos) (M₁ : Contents) (t : Sys n) : Prop :=
    Located which used M refs s dev sb i P M₁ t ∧
      OwnsTrees M₁ refs t dev sb (Function.update d o (t.inode i).toDInode)
  have htree {P : List ZonePos} {M₁ : Contents} {t : Sys n} (ht : Looked P M₁ t) :
      OwnsTree M₁ refs t dev sb (t.inode i).toDInode := by
    have := ht.2.tree o
    rwa [Function.update_self] at this
  have hstart : Looked [] M s := by
    refine ⟨.refl h hf i, ?_⟩
    rw [← ho, Function.update_eq_self]
    exact howned
  have hstep {P : List ZonePos} {p : ZonePos} {z : ℕ} {M₁ M₂ : Contents} {t u : Sys n}
      (ht : Looked P M₁ t) (hgrown : Grown which used M₁ refs t dev sb i p z M₂ u) :
      Looked (p :: P) M₂ u := by
    refine ⟨ht.1.step hv hf (htree ht) hgrown, ?_⟩
    have howns := hgrown.owns (ht.1.volume hv) ht.2 (Function.update_self ..)
    rwa [Function.update_idem] at howns
  have hspare' : ∃ c, refs c = 0 := by
    obtain ⟨c, -, -, hc, -⟩ := hspare
    exact ⟨c, hc⟩
  have hroot (r : Fin 9) : Ensures (createZone i r true) env s fun _ t => ∃ M₁,
    Looked [.root r] M₁ t := by
    refine (h.growRoot henv hall hv hf (htree hstart) hdev hspare' r).mono ?_
    rintro _ t ⟨z, M₁, hgrown⟩
    exact ⟨M₁, hstep hstart hgrown⟩
  -- an index block is read
  have hread {P : List ZonePos} {q : ZonePos} {M₁ : Contents} {t : Sys n} (ht : Looked P M₁ t)
      (hne : (t.inode i).zoneAt M₁ dev q ≠ 0) : Ensures
      (EgGS.readBuff dev ((t.inode i).zoneAt M₁ dev q)) env t
        fun found u => ∃ b, found = some b ∧ Beside refs t u ∧
          Holds which used (fun _ => False) M₁ refs dev ((t.inode i).zoneAt M₁ dev q) b u := by
    have hq := (htree ht).erasable hne
    refine ((readBuff_stable _ _).ensures (ht.1.mapped.readBuff henv (hall .write)
      ((ht.1.volume hv).zones _ hq.data) hq.unheld.roomy (.inr hspare'))).mono ?_
    rintro (_ | b) u hres
    · exact absurd hall hres.2.2
    · exact ⟨b, rfl, hres.2.1, hres.1⟩
  -- and the word of the place is looked at
  have hword {P : List ZonePos} {p q : ZonePos} {w : Fin 512} {b : Fin n} {M₁ : Contents}
    {t u : Sys n}
      (ht : Looked P M₁ t) (hunder : p.Under q w) (hne : (t.inode i).zoneAt M₁ dev q ≠ 0)
      (hbeside : Beside refs t u)
      (hold : Holds which used (fun _ => False) M₁ refs dev ((t.inode i).zoneAt M₁ dev q) b u) :
      Ensures (EgGS.indexedZone i b w true) env u fun z v =>
        ∃ M₂, Looked (p :: P) M₂ v ∧ z = (v.inode i).zoneAt M₂ dev p := by
    refine (ht.1.mapped.growWord henv hall (ht.1.volume hv) ht.1.fenced (htree ht)
      (ht.1.iDev.trans hdev) hspare hunder hne hold hbeside).mono ?_
    rintro z v ⟨M₂, hgrown⟩
    exact ⟨M₂, hstep ht hgrown, ((hgrown.zoneAt p).trans (if_pos rfl)).symm⟩
  have hend {P : List ZonePos} {M₁ : Contents} {t : Sys n} {z : ℕ} (ht : Looked P M₁ t)
      (hP : ∀ p ∈ P, p = blockPos block ∨ p ∈ (blockPos block).above)
      (hz : z = (t.inode i).blockZone M₁ dev block) : ∃ P M₁,
      Located which used M refs s dev sb i P M₁ t ∧
        OwnsTrees M₁ refs t dev sb (Function.update d o (t.inode i).toDInode) ∧
        (∀ p ∈ P, p = blockPos block ∨ p ∈ (blockPos block).above) ∧
        z = (t.inode i).blockZone M₁ dev block := ⟨P, M₁, ht.1, ht.2, hP, hz⟩
  unfold locateByInode
  refine .ite (fun _ => .halt _) fun _ => .ite (fun _ => .halt _) fun _ => ?_
  simp only [Int.toNat_natCast]
  unfold DInode.blockZone at hend ⊢
  -- the places on the way to the block: one, two or three, each looked at by the same rule
  by_cases hdirect : block < 7
  · rw [dif_pos hdirect]
    rw [blockPos_root hdirect] at hend ⊢
    refine (hroot _).bind ?_
    rintro _ t ⟨M₁, ht⟩
    exact .bind_read (.pure (hend ht (by simp) rfl))
  rw [dif_neg hdirect]
  by_cases hsingle : block - 7 < 512
  · rw [if_pos hsingle]
    rw [blockPos_single hdirect hsingle] at hend ⊢
    have hunder : (ZonePos.single ⟨block - 7, hsingle⟩).Under (.root 7) ⟨block - 7, hsingle⟩ :=
      .single _
    refine (hroot 7).bind ?_
    rintro _ t ⟨M₁, ht⟩
    refine .bind_read (.ite (fun h0 => .pure (hend ht (by simp [ZonePos.above]) ?_)) fun hne => ?_)
    · have h0' : (t.inode i).zoneAt M₁ dev (.root 7) = 0 := congrArg UInt16.toNat h0
      rw [hunder.zoneAt, h0', namedBy_zero]
    · have hne' : (t.inode i).zoneAt M₁ dev (.root 7) ≠ 0 := fun h0 => hne (UInt16.toNat_inj.mp h0)
      rw [ht.1.iDev.trans hdev]
      refine (hread ht hne').bind ?_
      rintro _ u ⟨b, rfl, hbeside, hold⟩
      refine (hword ht hunder hne' hbeside hold).mono ?_
      rintro z v ⟨M₂, hv₂, hz⟩
      exact hend hv₂ (by simp [ZonePos.above]) hz
  · rw [if_neg hsingle]
    have hlt : (block - 7 - 512) / 512 < 512 := by
      unfold maxBlocks at hblock
      omega
    rw [blockPos_double hdirect hsingle hblock] at hend ⊢
    have hlow : (block - 7 - 512) % 512 < 512 := Nat.mod_lt _ (by decide)
    have htable : (ZonePos.table ⟨(block - 7 - 512) / 512, hlt⟩).Under (.root 8) _ := .table _
    have hunder : (ZonePos.double ⟨(block - 7 - 512) / 512, hlt⟩
      ⟨(block - 7 - 512) % 512, hlow⟩).Under
        (.table ⟨(block - 7 - 512) / 512, hlt⟩) ⟨(block - 7 - 512) % 512, hlow⟩ := .double _ _
    refine (hroot 8).bind ?_
    rintro _ t ⟨M₁, ht⟩
    refine .bind_read (.ite (fun h0 => .pure (hend ht (by simp [ZonePos.above]) ?_)) fun hne => ?_)
    · have h0' : (t.inode i).zoneAt M₁ dev (.root 8) = 0 := congrArg UInt16.toNat h0
      rw [hunder.zoneAt, htable.zoneAt, h0', namedBy_zero, namedBy_zero]
    · have hne' : (t.inode i).zoneAt M₁ dev (.root 8) ≠ 0 := fun h0 => hne (UInt16.toNat_inj.mp h0)
      rw [ht.1.iDev.trans hdev]
      refine (hread ht hne').bind ?_
      rintro _ u ⟨b, rfl, hbeside, hold⟩
      refine (hword ht htable hne' hbeside hold).bind ?_
      rintro z v ⟨M₂, hv₂, rfl⟩
      refine .ite (fun h0 => .pure (hend hv₂ (by simp [ZonePos.above]) ?_)) fun hne₂ => ?_
      · rw [hunder.zoneAt, h0, namedBy_zero]
      · refine .bind_read ?_
        rw [hv₂.1.iDev.trans hdev]
        refine (hread hv₂ hne₂).bind ?_
        rintro _ u' ⟨c, rfl, hbeside', hold'⟩
        refine (hword hv₂ hunder hne₂ hbeside' hold').mono ?_
        rintro z v' ⟨M₃, hv₃, hz⟩
        exact hend hv₃ (by simp [ZonePos.above]) hz

end Create

end EgGS
