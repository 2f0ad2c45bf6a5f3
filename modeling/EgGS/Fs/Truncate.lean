import EgGS.Fs.Refinement
import EgGS.Fs.Tree

/-!
# Truncating and deleting inodes

`truncate` frees the zones of an inode and empties it; `put_inode` does so with the last reference
to an inode without links, and gives its number back.

`OwnsTree` says that every zone of the tree has one place there, that its bit is set and that nobody
holds its buffer.  Then the trees below the places of `i_zone` can be freed one after the other:
`cutRoots` frees the seven data zones, by one turn of the loop (`cutRoot`), and `truncate` the two
trees of index blocks, with the lemmas of `Fs.Tree`.  Of `put_inode`, `putInode_last` is the case
that deletes the inode, and `putInode_kept` are the other ones.

* `put_inode_exact`: exactly the zones of the tree are freed, and with the last reference to an
  inode without links its number; otherwise the bitmaps stay.
-/

namespace EgGS

open Lib Prog

variable {n : ℕ} {env : Env n} {s t u : Sys n} {dev x z : ℕ} {sb : Fin nrSuper}
variable {which : Rw → Prop} {used loose : ℕ × ℕ → Prop} {M M₁ M₂ : Contents}
variable {refs : Refs n} {i : Fin nrInode} {Z : Set ℕ}

/-! ## The tree of an inode -/

/-- The tree of an inode names each of its zones once; they are data zones, their bits are set, and
nobody holds their buffers. -/
structure OwnsTree (M : Contents) (refs : Refs n) (s : Sys n) (dev : ℕ) (sb : Fin nrSuper)
    (d : DInode) : Prop where
  once : ∀ p q, d.zoneAt M dev p ≠ 0 → d.zoneAt M dev p = d.zoneAt M dev q → p = q
  data : ∀ p, d.zoneAt M dev p ≠ 0 → (s.superBlock sb).DataZone (d.zoneAt M dev p)
  taken : ∀ p, d.zoneAt M dev p ≠ 0 →
    s.zmap sb ((s.superBlock sb).zoneBit (d.zoneAt M dev p)) = some true
  unheld : ∀ p, d.zoneAt M dev p ≠ 0 → s.Unheld refs dev (d.zoneAt M dev p)

namespace OwnsTree

variable {d : DInode} (h : OwnsTree M refs s dev sb d)
include h

theorem erasable {p : ZonePos} (hp : d.zoneAt M dev p ≠ 0) :
    Erasable (fun _ => False) refs s dev sb (d.zoneAt M dev p) :=
  ⟨h.data p hp, ⟨true, h.taken p hp⟩, h.unheld p hp, not_false⟩

theorem ne {p q : ZonePos} (hp : d.zoneAt M dev p ≠ 0) (hpq : p ≠ q) :
    d.zoneAt M dev p ≠ d.zoneAt M dev q := fun heq => hpq (h.once p q hp heq)

theorem zones_data : ∀ z ∈ d.zones M dev, (s.superBlock sb).DataZone z := by
  rintro z ⟨hz, p, rfl⟩
  exact h.data p hz

/-- The index block that `i_zone[7]` names. -/
theorem index : ErasableIndex (fun _ => False) M refs s dev sb (d.iZone 7).toNat where
  block hx := h.erasable (p := .root 7) hx
  leaves z hz := by
    obtain ⟨hz0, w, hw, rfl⟩ := hz
    exact ⟨h.erasable (p := .single ⟨w, hw⟩) hz0,
      h.ne (p := .single ⟨w, hw⟩) (q := .root 7) hz0 (by simp)⟩

/-- The index blocks below `i_zone[8]`. -/
theorem table : ErasableTable (fun _ => False) M refs s dev sb (d.iZone 8).toNat where
  block hx := h.erasable (p := .root 8) hx
  index w hw :=
    { block := fun hx => h.erasable (p := .table ⟨w, hw⟩) hx
      leaves := by
        rintro z ⟨hz0, w', hw', rfl⟩
        exact ⟨h.erasable (p := .double ⟨w, hw⟩ ⟨w', hw'⟩) hz0,
          h.ne (p := .double ⟨w, hw⟩ ⟨w', hw'⟩) (q := .table ⟨w, hw⟩) hz0 (by simp)⟩ }
  apart := by
    rintro w hw (⟨hx, heq⟩ | ⟨hx, w', hw', heq⟩)
    · exact h.ne (p := .root 8) (q := .table ⟨w, hw⟩) hx (by simp) heq
    · exact h.ne (p := .root 8) (q := .double ⟨w, hw⟩ ⟨w', hw'⟩) hx (by simp) heq.symm
  once := by
    rintro w hw w' hw' (⟨hx, heq⟩ | ⟨hx, v, hv, heq⟩)
    · have hpos := h.once (.table ⟨w, hw⟩) (.table ⟨w', hw'.trans hw⟩) hx heq
      simp only [ZonePos.table.injEq, Fin.mk.injEq] at hpos
      omega
    · exact h.ne (p := .table ⟨w, hw⟩) (q := .double ⟨w', hw'.trans hw⟩ ⟨v, hv⟩) hx
        (by simp) heq.symm

end OwnsTree

/-! ## Truncating -/

/-- The first `k` of the names in the inode are erased. -/
def MInode.cutRoots (k : ℕ) (x : MInode) : MInode :=
  { x with iZone := fun z => if z.val < k then 0 else x.iZone z }

/-- What `truncate` leaves of an inode. -/
def MInode.cut (x : MInode) : MInode := { x with iZone := fun _ => 0, iSize := 0, iDirt := true }

/-- The entries of `inode_list` are no part of the cache. -/
theorem Freed.setInode (h : Freed which used loose M refs s dev sb Z M₁ t) (i : Fin nrInode)
    (f : MInode → MInode) :
    Freed which used loose M refs (s.setInode i f) dev sb Z M₁ (t.setInode i f) :=
  ⟨h.mapped.setInode i f, h.beside.setInode i f, h.contents, h.cleared, h.others⟩

theorem Volume.setInode (hv : Volume used refs s dev sb) (i : Fin nrInode) (f : MInode → MInode) :
    Volume used refs (s.setInode i f) dev sb :=
  ⟨hv.mounted.congr rfl,
    fun j b hb => ⟨(hv.zheld j b hb).held, (hv.zheld j b hb).uptodate, (hv.zheld j b hb).dev⟩,
    fun j b hb => ⟨(hv.iheld j b hb).held, (hv.iheld j b hb).uptodate, (hv.iheld j b hb).dev⟩,
    hv.zones, hv.zapart, hv.iapart, hv.split⟩

theorem Erasable.setInode (h : Erasable loose refs s dev sb z) (i : Fin nrInode)
    (f : MInode → MInode) :
    Erasable loose refs (s.setInode i f) dev sb z := ⟨h.data, h.bit, h.unheld, h.firm⟩

/-- The zones that the first `k` names in the inode name. -/
def DInode.rootZones (d : DInode) (k : ℕ) : Set ℕ :=
  {y | y ≠ 0 ∧ ∃ z : Fin 9, z.val < k ∧ (d.iZone z).toNat = y}

theorem DInode.rootZones_succ (d : DInode) (z : Fin 9) :
    d.rootZones (z.val + 1) = d.rootZones z.val ∪ {y | y ≠ 0 ∧ y = (d.iZone z).toNat} := by
  ext y
  simp only [DInode.rootZones, Set.mem_union, Set.mem_ofPred_eq]
  constructor
  · rintro ⟨hy, z', hz', heq⟩
    rcases Nat.lt_succ_iff_lt_or_eq.mp hz' with hlt | hval
    · exact .inl ⟨hy, z', hlt, heq⟩
    · exact .inr ⟨hy, by rw [← Fin.ext hval, heq]⟩
  · rintro (⟨hy, z', hz', heq⟩ | ⟨hy, heq⟩)
    · exact ⟨hy, z', by omega, heq⟩
    · exact ⟨hy, z, by omega, heq.symm⟩

theorem OwnsTree.notMem_rootZones {d : DInode} (h : OwnsTree M refs s dev sb d) {p : ZonePos}
    (hp : d.zoneAt M dev p ≠ 0) (hroot : ∀ z : Fin 9, z.val < 7 → p ≠ .root z) :
    d.zoneAt M dev p ∉ d.rootZones 7 := by
  rintro ⟨-, z, hz, heq⟩
  exact h.ne hp (hroot z hz) heq.symm

theorem OwnsTree.notMem_indirect {d : DInode} (h : OwnsTree M refs s dev sb d) {p : ZonePos}
    (hp : d.zoneAt M dev p ≠ 0) (hroot : p ≠ .root 7) (hsingle : ∀ w, p ≠ .single w) :
    d.zoneAt M dev p ∉ indirectZones M dev (d.iZone 7).toNat := by
  rintro (⟨-, heq⟩ | ⟨-, w, hw, heq⟩)
  · exact h.ne hp hroot heq
  · exact h.ne hp (hsingle ⟨w, hw⟩) heq.symm

namespace Mapped

section

variable (henv : env.Works which) (hall : ∀ cmd, which cmd) (hv : Volume used refs s dev sb)
include henv hall hv

/-- One round of the loop over the zones that the inode names directly. -/
theorem cutRoot (hdev : (s.inode i).iDev = dev) {z : Fin 9}
    (hz : (s.inode i).iZone z ≠ 0 → Erasable loose refs s dev sb ((s.inode i).iZone z).toNat)
    (h : Freed which used loose M refs (s.setInode i (MInode.cutRoots z.val)) dev sb
      ((s.inode i).rootZones z.val) M₁ t) :
    Does (do
      let s ← Prog.read
      if (s.inode i).iZone z = 0 then
        pure ()
      else do
        EgGS.deleteBlock (s.inode i).iDev ((s.inode i).iZone z).toNat
        Prog.update (Sys.setInode · i fun x => { x with iZone := Function.update x.iZone z 0 }) :
        P n Unit) env t fun _ u => ∃ M₂, Freed which used loose M refs
          (s.setInode i (MInode.cutRoots (z.val + 1))) dev sb
          ((s.inode i).rootZones (z.val + 1)) M₂ u := by
  have hcut : t.inode i = (s.inode i).cutRoots z.val := by
    rw [h.beside.inode]
    simp [Sys.setInode]
  have hzone : (t.inode i).iZone z = (s.inode i).iZone z := by
    rw [hcut]
    simp [MInode.cutRoots]
  have hdev' : (t.inode i).iDev = dev := by
    rw [hcut]
    exact hdev
  refine .bind_read ?_
  rw [hzone, hdev']
  refine .ite (fun h0 => .pure ⟨M₁, ?_⟩) fun hne => ?_
  · -- the name is erased already
    have hsame :
        s.setInode i (MInode.cutRoots (z.val + 1)) = s.setInode i (MInode.cutRoots z.val) := by
      refine Sys.setInode_congr ?_
      unfold MInode.cutRoots
      congr 2
      funext z'
      -- the places before `z` are cleared already, and that of `z` is 0 of itself
      by_cases hz' : z' = z
      · subst hz'
        simp [h0]
      · have hval : z'.val ≠ z.val := fun heq => hz' (Fin.ext heq)
        have hiff : z'.val < z.val + 1 ↔ z'.val < z.val := by omega
        simp only [hiff]
    rw [hsame]
    refine h.congr ?_
    rw [DInode.rootZones_succ]
    ext y
    simp [h0]
  · -- the zone is freed, and its name becomes 0
    have hz' := (hz hne).setInode i (MInode.cutRoots z.val)
    refine (h.mapped.deleteOne henv (hall .write) (h.volume (hv.setInode i _))
      (h.erasable hz')).bind ?_
    rintro _ u ⟨M₂, hu⟩
    have hboth := (h.trans (hv.setInode i _) hu).setInode i
      fun x => { x with iZone := Function.update x.iZone z 0 }
    rw [Sys.setInode_setInode] at hboth
    have hsucc : (fun x : MInode => { x with iZone := Function.update x.iZone z 0 }) ∘
        MInode.cutRoots z.val = MInode.cutRoots (z.val + 1) := by
      funext x
      unfold MInode.cutRoots
      dsimp only [Function.comp]
      congr 2
      funext z'
      by_cases heq : z' = z
      · subst heq
        simp
      · have hval : z'.val ≠ z.val := fun h => heq (Fin.ext h)
        have hiff : z'.val < z.val + 1 ↔ z'.val < z.val := by omega
        simp only [Function.update_of_ne heq, hiff]
    rw [hsucc] at hboth
    refine .update ⟨M₂, hboth.congr ?_⟩
    rw [DInode.rootZones_succ]
    have hnat : ((s.inode i).iZone z).toNat ≠ 0 := fun h => hne (UInt16.toNat_inj.mp h)
    refine congrArg _ (Set.ext fun y => ?_)
    exact ⟨fun hy => ⟨hy ▸ hnat, hy⟩, fun hy => hy.2⟩

/-- The loop over the zones that the inode names directly. -/
theorem cutRoots (hdev : (s.inode i).iDev = dev)
    (htree : OwnsTree M refs s dev sb (s.inode i).toDInode)
    (h : Mapped which used (fun _ => False) M refs s) :
    Does (forEach [0, 1, 2, 3, 4, 5, 6] fun z => do
      let s ← Prog.read
      if (s.inode i).iZone z = 0 then
        pure ()
      else do
        EgGS.deleteBlock (s.inode i).iDev ((s.inode i).iZone z).toNat
        Prog.update (Sys.setInode · i fun x => { x with iZone := Function.update x.iZone z 0 }) :
        P n Unit) env s fun _ t => ∃ M₁, Freed which used (fun _ => False) M refs
          (s.setInode i (MInode.cutRoots 7)) dev sb ((s.inode i).rootZones 7) M₁ t := by
  -- invariant: the list is what is left from place `k` on, and the zones before it are freed
  let I (l : List (Fin 9)) (t : Sys n) : Prop := ∃ k ≤ 7, l.map Fin.val = List.range' k (7 - k) ∧
    ∃ M₁, Freed which used (fun _ => False) M refs (s.setInode i (MInode.cutRoots k)) dev sb
      ((s.inode i).rootZones k) M₁ t
  have hstart : I [0, 1, 2, 3, 4, 5, 6] s := by
    have hnone : s.setInode i (MInode.cutRoots 0) = s := by
      refine Sys.setInode_self ?_
      simp [MInode.cutRoots]
    refine ⟨0, Nat.zero_le _, rfl, M, ?_⟩
    rw [hnone]
    refine (Freed.refl h).congr ?_
    ext y
    simp [DInode.rootZones]
  refine (Does.forEach (I := I) (fun z l t ht => ?_) _ s hstart).mono ?_
  · obtain ⟨k, hk, hl, M₁, hfreed⟩ := ht
    have hlt : k < 7 := by
      by_contra hge
      rw [show 7 - k = 0 by omega] at hl
      exact absurd hl (by simp)
    rw [show 7 - k = (7 - (k + 1)) + 1 by omega, List.range'_succ, List.map_cons] at hl
    obtain ⟨rfl, hrest⟩ := List.cons.inj hl
    refine (cutRoot henv hall hv hdev (fun hne => ?_) hfreed).mono ?_
    · refine htree.erasable (p := .root z) fun h0 => hne (UInt16.toNat_inj.mp h0)
    · rintro _ u ⟨M₂, hu⟩
      exact ⟨z.val + 1, hlt, hrest, M₂, hu⟩
  · rintro _ u ⟨k, hk, hl, M₁, hfreed⟩
    have hlen := congrArg List.length hl
    simp only [List.map_nil, List.length_nil, List.length_range'] at hlen
    obtain rfl : k = 7 := by omega
    exact ⟨M₁, hfreed⟩

/-- **`truncate`** frees the zones of the tree, and empties the inode. -/
theorem truncate (hdev : (s.inode i).iDev = dev) (hkind : hasZones (s.inode i).iMode = true)
    (htree : OwnsTree M refs s dev sb (s.inode i).toDInode) (hspare : Spare refs)
    (h : Mapped which used (fun _ => False) M refs s) :
    Does (EgGS.truncate i) env s fun _ u => ∃ M₂, Freed which used (fun _ => False) M refs
      (s.setInode i MInode.cut) dev sb ((s.inode i).zones M dev) M₂ u := by
  have hspare' : ∃ c, refs c = 0 := by
    obtain ⟨c, -, -, hc, -⟩ := hspare
    exact ⟨c, hc⟩
  unfold EgGS.truncate
  refine .bind_read ?_
  rw [if_neg (by simp [hkind])]
  -- the direct zones first, then the two index blocks, each with the contents as they were
  refine (h.cutRoots henv hall hv hdev htree).bind ?_
  rintro _ t ⟨M₁, ht⟩
  have hv' := hv.setInode i (MInode.cutRoots 7)
  have hcut : t.inode i = (s.inode i).cutRoots 7 := by
    rw [ht.beside.inode]
    simp [Sys.setInode]
  have herase : ∀ z, Erasable (fun _ => False) refs s dev sb z →
      Erasable (fun _ => False) refs t dev sb z :=
    fun z hz => ht.erasable (hz.setInode i _)
  -- the index block in `i_zone[7]` was not freed
  have hsame : ((s.inode i).iZone 7).toNat ≠ 0 →
      M₁ (dev, ((s.inode i).iZone 7).toNat) = M (dev, ((s.inode i).iZone 7).toNat) := fun hne =>
    ht.same hv' (htree.data (.root 7) hne)
    (htree.notMem_rootZones (p := .root 7) hne (by simp; omega))
  have hindex := htree.index.congr hsame fun z _ => herase z
  refine .bind_read ?_
  have hzone : (t.inode i).iZone 7 = (s.inode i).iZone 7 := by
    rw [hcut]
    rfl
  have hdev' : (t.inode i).iDev = dev := by
    rw [hcut]
    exact hdev
  rw [hzone, hdev']
  refine (ht.mapped.deleteIndirecte henv hall (ht.volume hv') hindex hspare').bind ?_
  rintro _ u ⟨M₂, hu⟩
  rw [indirectZones_congr hsame] at hu
  have hboth := ht.trans hv' hu
  -- nor were the index blocks below `i_zone[8]`
  have hkept : ∀ p : ZonePos, p ≠ .root 7 → (∀ z : Fin 9, z.val < 7 → p ≠ .root z) →
      (∀ w, p ≠ .single w) → (s.inode i).zoneAt M dev p ≠ 0 →
      M₂ (dev, (s.inode i).zoneAt M dev p) = M (dev, (s.inode i).zoneAt M dev p) :=
    fun p h7 hroot hsingle hne => hboth.same hv' (htree.data p hne) fun hin =>
      hin.elim (htree.notMem_rootZones hne hroot) (htree.notMem_indirect hne h7 hsingle)
  have hsame₈ : ((s.inode i).iZone 8).toNat ≠ 0 →
      M₂ (dev, ((s.inode i).iZone 8).toNat) = M (dev, ((s.inode i).iZone 8).toNat) :=
    hkept (.root 8) (by simp) (by simp; omega) (by simp)
  have hsame₉ : ∀ w < 512, namedBy M dev ((s.inode i).iZone 8).toNat w ≠ 0 →
      M₂ (dev, namedBy M dev ((s.inode i).iZone 8).toNat w) =
        M (dev, namedBy M dev ((s.inode i).iZone 8).toNat w) := fun w hw =>
    hkept (.table ⟨w, hw⟩) (by simp) (by simp) (by simp)
  have htable := htree.table.congr hsame₈ hsame₉ fun z hz => hboth.erasable (hz.setInode i _)
  have hinode : u.inode i = (s.inode i).cutRoots 7 := by rw [hu.beside.inode, hcut]
  have hzone₈ : (u.inode i).iZone 8 = (s.inode i).iZone 8 := by
    rw [hinode]
    rfl
  have hdev₈ : (u.inode i).iDev = dev := by
    rw [hinode]
    exact hdev
  refine .bind_read ?_
  rw [hzone₈, hdev₈]
  refine (hu.mapped.deleteDouble henv hall (hboth.volume hv') htable hspare).bind ?_
  rintro _ v ⟨M₃, hv₃⟩
  rw [doubleZones_congr hsame₈ hsame₉] at hv₃
  have hfreed := (hboth.trans hv' hv₃).setInode i fun x =>
    { x with iZone := Function.update (Function.update x.iZone 8 0) 7 0, iSize := 0, iDirt := true }
  rw [Sys.setInode_setInode] at hfreed
  have hend : (fun x : MInode => { x with
      iZone := Function.update (Function.update x.iZone 8 0) 7 0, iSize := 0, iDirt := true }) ∘
      MInode.cutRoots 7 = MInode.cut := by
    funext x
    unfold MInode.cutRoots MInode.cut
    dsimp only [Function.comp]
    congr 2
    funext z
    obtain hz | rfl | rfl : z.val < 7 ∨ z = 7 ∨ z = 8 := by omega
    · have h7 : z ≠ 7 := fun heq => absurd (heq ▸ hz) (by decide)
      have h8 : z ≠ 8 := fun heq => absurd (heq ▸ hz) (by decide)
      rw [Function.update_of_ne h7, Function.update_of_ne h8, if_pos hz]
    · rfl
    · rfl
  rw [hend] at hfreed
  refine .update ⟨M₃, hfreed.congr ?_⟩
  rw [DInode.zones_eq]
  rfl

end

end Mapped

/-! ## Bitmaps that stay -/

/-- The bitmaps of a volume stay where the contents of their blocks do. -/
theorem Volume.maps_eq {refs₁ : Refs n} {loose' : ℕ × ℕ → Prop} (hv : Volume used refs s dev sb)
    (hbeside : Beside refs s t) (h : Mapped which used loose M refs s)
    (ht : Mapped which used loose' M₁ refs₁ t)
    (hz : Set.EqOn M₁ M (s.mapKeys (s.superBlock sb).sZmap))
    (hi : Set.EqOn M₁ M (s.mapKeys (s.superBlock sb).sImap)) :
    t.zmap sb = s.zmap sb ∧ t.imap sb = s.imap sb := by
  unfold Sys.zmap Sys.imap
  rw [hbeside.superBlock]
  exact ⟨hv.zheld.bitmap_eq hbeside h.coherent ht.coherent hz,
    hv.iheld.bitmap_eq hbeside h.coherent ht.coherent hi⟩

/-- The same references, the same counts. -/
theorem Mapped.bCount_eq {loose' : ℕ × ℕ → Prop} (h : Mapped which used loose M refs s)
    (ht : Mapped which used loose' M₁ refs t) (b : Fin n) : (t.buf b).bCount = (s.buf b).bCount :=
  (ht.counted.count b).trans (h.counted.count b).symm

/-- An inode number that is given back. -/
theorem Mapped.freeNumber {v : Bool} {m : ℕ} (henv : env.Works which) (hwhich : which .write)
    (hv : Volume used refs s dev sb) (h : Mapped which used loose M refs s) (hpos : 1 ≤ m)
    (hle : m ≤ (s.superBlock sb).sNinodes) (hbit : s.imap sb m = some v) :
    Does (freeInodeBitmap dev m) env s fun _ u => ∃ M', Mapped which used loose M' refs u ∧
      Beside refs s u ∧ u.zmap sb = s.zmap sb ∧
      u.imap sb = Function.update (s.imap sb) m (some false) := by
  obtain ⟨u, heval, hmarked, hw⟩ := hv.mounted.freeInodeBitmap env hpos hle hbit
  have hu := h.written henv hwhich hv.iheld hw
  have hbeside := hw.beside hv.iheld
  have hzmap : u.zmap sb = s.zmap sb := by
    unfold Sys.zmap
    rw [hbeside.superBlock]
    refine hv.zheld.bitmap_eq hbeside h.coherent hu.coherent fun x hx => ?_
    exact s.marked_eqOn _ _ _ _ (Set.disjoint_left.mp hv.split hx)
  exact heval.does ⟨_, hu, hbeside, hzmap, hmarked.imap⟩

/-! ## The last reference -/

/-- What is left when the zones of an inode are freed: their bits are clear, all others are as
before, and so are the reference counts of all buffers. -/
structure TreeFreed (M : Contents) (s : Sys n) (dev : ℕ) (sb : Fin nrSuper) (d : DInode)
    (t : Sys n) :
    Prop where
  cleared : ∀ z ∈ d.zones M dev, t.zmap sb ((s.superBlock sb).zoneBit z) = some false
  others : ∀ m, (∀ z ∈ d.zones M dev, (s.superBlock sb).zoneBit z ≠ m) → t.zmap sb m = s.zmap sb m
  counts : ∀ b, (t.buf b).bCount = (s.buf b).bCount

/-- The block of the inode table with the inode, which `put_inode` writes, can be read, and is no
block of a bitmap. -/
structure TableReadable (used loose : ℕ × ℕ → Prop) (refs : Refs n) (s : Sys n) (dev : ℕ)
    (sb : Fin nrSuper) (i : Fin nrInode) : Prop where
  readable : s.Readable used loose refs dev ((s.superBlock sb).inodeBlock (s.inode i).iNum)
  zmap : (dev, (s.superBlock sb).inodeBlock (s.inode i).iNum) ∉ s.mapKeys (s.superBlock sb).sZmap
  imap : (dev, (s.superBlock sb).inodeBlock (s.inode i).iNum) ∉ s.mapKeys (s.superBlock sb).sImap

section Put

variable (henv : env.Works which) (hall : ∀ cmd, which cmd) (hv : Volume used refs s dev sb)
  (h : Mapped which used (fun _ => False) M refs s) (hdev : (s.inode i).iDev = dev)
include henv hall hv h hdev

/-- `truncate` of an inode whose tree is in order. -/
theorem truncate_exact (hkind : hasZones (s.inode i).iMode = true)
    (htree : OwnsTree M refs s dev sb (s.inode i).toDInode) (hspare : Spare refs) :
    Does (truncate i) env s fun _ t => TreeFreed M s dev sb (s.inode i).toDInode t ∧
      t.imap sb = s.imap sb ∧ t.inode = (s.setInode i MInode.cut).inode := by
  refine (h.truncate henv hall hv hdev hkind htree hspare).mono ?_
  rintro _ t ⟨M₁, ht⟩
  exact ⟨⟨ht.cleared, ht.others, h.bCount_eq ht.mapped⟩,
    ht.imap (s := s.setInode i MInode.cut) (hv.setInode i _) (h.setInode i _) htree.zones_data,
    ht.beside.inode⟩

/-- `put_inode` of the last reference to an inode without links. -/
theorem putInode_last {v : Bool} (hlock : (s.inode i).iLock = false)
    (hkind : hasZones (s.inode i).iMode = true)
    (htree : OwnsTree M refs s dev sb (s.inode i).toDInode) (hspare : Spare refs)
    (hcount : (s.inode i).iCount = 1) (hlinks : (s.inode i).iNlinks = 0)
    (hpos : 1 ≤ (s.inode i).iNum) (hle : (s.inode i).iNum ≤ (s.superBlock sb).sNinodes)
    (hbit : s.imap sb (s.inode i).iNum = some v) :
    Does (putInode (some i)) env s fun _ t => TreeFreed M s dev sb (s.inode i).toDInode t ∧
      t.imap sb = Function.update (s.imap sb) (s.inode i).iNum (some false) ∧
      t.inode = (s.setInode i fun _ => MInode.zero).inode := by
  have hwhich := hall .write
  unfold putInode
  refine ((waitOnInode_evals hlock).does (Q := fun _ t => t = s.setIntr false) rfl).bind ?_
  rintro _ _ rfl
  refine .bind_read (.ite (fun h0 => absurd (hcount.symm.trans h0) (by decide)) fun _ => ?_)
  -- the last reference and no links: `truncate`, then `delete_inode`, and the loop ends
  refine .iterate (.bind_read (.ite (fun _ => ?_) fun hnot => absurd ⟨hcount, hlinks⟩ hnot))
  have hv' : Volume used refs (s.setIntr false) dev sb :=
    hv.beside ⟨rfl, rfl, rfl, rfl, fun _ _ => rfl, fun _ _ => id⟩
  have htree' : OwnsTree M refs (s.setIntr false) dev sb (s.inode i).toDInode :=
    ⟨htree.once, htree.data, htree.taken, htree.unheld⟩
  refine ((h.setIntr henv hwhich false).truncate henv hall hv' hdev hkind htree' hspare).bind ?_
  rintro _ t ⟨M₁, ht⟩
  have hvt := ht.volume (hv'.setInode i _)
  have hcut : t.inode i = (s.inode i).cut := by
    rw [ht.beside.inode]
    simp [Sys.setInode]
  have hsuper : t.superBlock = s.superBlock := ht.beside.superBlock
  have himap : t.imap sb = s.imap sb :=
    ht.imap (s := (s.setIntr false).setInode i MInode.cut) (hv'.setInode i _)
      ((h.setIntr henv hwhich false).setInode i _) htree.zones_data
  refine Does.bind (R := fun _ u => TreeFreed M s dev sb (s.inode i).toDInode u ∧
    u.imap sb = Function.update (s.imap sb) (s.inode i).iNum (some false) ∧
    u.inode = (s.setInode i fun _ => MInode.zero).inode) (.bind_read ?_) fun _ _ hu => .pure
    ⟨(), rfl, hu⟩
  have hdevt : (t.inode i).iDev = dev := by
    rw [hcut]
    exact hdev
  have hcountt : (t.inode i).iCount = 1 := by
    rw [hcut]
    exact hcount
  have hlinkst : (t.inode i).iNlinks = 0 := by
    rw [hcut]
    exact hlinks
  have hnumt : (t.inode i).iNum = (s.inode i).iNum := by
    rw [hcut]
    rfl
  rw [hdevt, hcountt, hnumt, if_neg hv.mounted.device, if_neg (by decide), if_neg
    (not_not.mpr hlinkst)]
  refine (ht.mapped.freeNumber henv hwhich hvt hpos (hsuper ▸ hle) (himap ▸ hbit)).bind ?_
  rintro _ u ⟨M₂, hu, hbeside, hzmap, hcleared⟩
  refine .update ⟨⟨fun z hz => ?_, fun m hm => ?_, fun b => ?_⟩, ?_, ?_⟩
  · show u.zmap sb _ = _
    rw [hzmap]
    exact ht.cleared z hz
  · show u.zmap sb _ = _
    rw [hzmap]
    exact ht.others m hm
  · exact h.bCount_eq hu b
  · show u.imap sb = _
    rw [hcleared, himap]
  · funext j
    have hj := congrFun (hbeside.inode.trans ht.beside.inode) j
    -- the entry was cut first and then emptied
    by_cases hji : j = i
    · subst hji
      simp [Sys.setInode]
    · simpa [Sys.setInode, hji] using hj

/-- `put_inode` of another reference, or of an inode with links. -/
theorem putInode_kept (hlock : (s.inode i).iLock = false)
    (hkept : 1 < (s.inode i).iCount ∨ (s.inode i).iNlinks ≠ 0) (hcount : (s.inode i).iCount ≠ 0)
    (htable : (s.inode i).iCount = 1 → (s.inode i).iDirt = true →
      TableReadable used (fun _ => False) refs s dev sb i) :
    Does (putInode (some i)) env s fun _ t => t.zmap sb = s.zmap sb ∧ t.imap sb = s.imap sb := by
  have hwhich := hall .write
  unfold putInode
  refine ((waitOnInode_evals hlock).does (Q := fun _ t => t = s.setIntr false) rfl).bind ?_
  rintro _ _ rfl
  refine .bind_read (.ite (fun h0 => absurd h0 hcount) fun _ => ?_)
  have hlast : ¬ ((s.inode i).iCount = 1 ∧ (s.inode i).iNlinks = 0) := by
    rintro ⟨hone, hzero⟩
    exact hkept.elim (fun hmore => by omega) fun hne => hne hzero
  by_cases hdirty : (s.inode i).iCount = 1 ∧ (s.inode i).iDirt = true
  · -- the inode is written first, and the loop goes round once
    obtain ⟨hread, hzapart, hiapart⟩ := htable hdirty.1 hdirty.2
    have hm : Mounted (s.setIntr false) dev sb := hv.mounted.congr rfl
    have hsync := (h.setIntr henv hwhich false).syncInodeToBuff henv hall hm hdev hlock hdirty.2
      ⟨hread.used, hread.firm, hread.room, hread.header⟩
    refine LoopDoes.does (.step (.bind_read ?_))
    refine .ite (fun hbad => absurd hbad hlast) fun _ => .ite (fun _ => ?_) fun hbad =>
      absurd hdirty hbad
    refine hsync.bind ?_
    rintro _ t ⟨ht, hbeside⟩
    have hinode : t.inode i = { s.inode i with iDirt := false, iLock := false } := by
      rw [hbeside.inode]
      simp [Sys.setInode]
    have hlock' : (t.inode i).iLock = false := by rw [hinode]
    refine ((waitOnInode_evals hlock').does (Q := fun _ u => u = t.setIntr false) rfl).bind ?_
    rintro _ _ rfl
    -- the second round finds it clean and takes the reference back
    refine .pure ⟨(), rfl, .done (.bind_read ?_)⟩
    have hcount' : ((t.setIntr false).inode i).iCount = (s.inode i).iCount := by
      show (t.inode i).iCount = _
      rw [hinode]
    have hlinks' : ((t.setIntr false).inode i).iNlinks = (s.inode i).iNlinks := by
      show (t.inode i).iNlinks = _
      rw [hinode]
    have hdirt' : ((t.setIntr false).inode i).iDirt = false := by
      show (t.inode i).iDirt = _
      rw [hinode]
    rw [hcount', hlinks', hdirt']
    refine .ite (fun hbad => absurd hbad hlast) fun _ => .ite
      (fun hbad => absurd hbad.2 (by decide))
      fun _ => .bind_update (.pure ⟨(), rfl, ?_⟩)
    have hbeside' : Beside refs s (s.setIntr false) :=
      ⟨rfl, rfl, rfl, rfl, fun _ _ => rfl, fun _ _ => id⟩
    show t.zmap sb = s.zmap sb ∧ t.imap sb = s.imap sb
    -- what was written is a block of the inode table, which is none of the bitmaps
    refine (hv.setInode i fun x => { x with iDirt := false, iLock := false }).maps_eq
      (s := s.setInode i fun x => { x with iDirt := false, iLock := false })
      ((hbeside'.setInode i _).trans hbeside) (h.setInode i _) ht ?_ ?_
    · intro x hx
      refine Function.update_of_ne ?_ _ _
      rintro rfl
      exact hzapart hx
    · intro x hx
      refine Function.update_of_ne ?_ _ _
      rintro rfl
      exact hiapart hx
  · -- not the last reference, or nothing to write: only the count changes
    refine .iterate (.bind_read ?_)
    exact .ite (fun hbad => absurd hbad hlast) fun _ => .ite
      (fun hbad => absurd hbad hdirty) fun _ =>
      .bind_update (.pure ⟨(), rfl, rfl, rfl⟩)

omit hall hv h hdev henv in
variable (env) in
/-- `put_inode` of an inode that nobody holds. -/
theorem putInode_free (hlock : (s.inode i).iLock = false) (hcount : (s.inode i).iCount = 0) :
    ∃ N, ∀ k ≥ N, putInode (some i) env k s =
      .stop (.panic "iput: trying to free free inode") (s.setIntr false) := by
  obtain ⟨N, hN⟩ : Evals (waitOnInode i) env s () (s.setIntr false) := waitOnInode_evals hlock
  refine ⟨N, fun k hk => ?_⟩
  have hcount' : ((s.setIntr false).inode i).iCount = 0 := hcount
  unfold putInode
  dsimp only
  rw [bind_of_ok (hN k hk), read_bind, ite_run, if_pos hcount']
  rfl

/-- **Truncating and putting.**  `truncate` frees exactly the zones of the tree, empties the inode
and leaves the counts of all buffers.  `put_inode` of the last reference to an inode without links
does so, gives its number back and empties its entry.  Otherwise `put_inode` changes no bitmap. -/
theorem put_inode_exact (hlock : (s.inode i).iLock = false) :
    (hasZones (s.inode i).iMode = true → OwnsTree M refs s dev sb (s.inode i).toDInode →
    Spare refs →
      Does (truncate i) env s (fun _ t => TreeFreed M s dev sb (s.inode i).toDInode t ∧
        t.imap sb = s.imap sb ∧ t.inode = (s.setInode i MInode.cut).inode) ∧
      ((s.inode i).iCount = 1 → (s.inode i).iNlinks = 0 → Numbered s sb → 1 ≤ (s.inode i).iNum →
        (s.inode i).iNum ≤ (s.superBlock sb).sNinodes →
        Does (putInode (some i)) env s fun _ t => TreeFreed M s dev sb (s.inode i).toDInode t ∧
          t.imap sb = Function.update (s.imap sb) (s.inode i).iNum (some false) ∧
          t.inode = (s.setInode i fun _ => MInode.zero).inode)) ∧
    (1 < (s.inode i).iCount ∨ (s.inode i).iNlinks ≠ 0 →
      ((s.inode i).iCount = 1 → (s.inode i).iDirt = true →
        TableReadable used (fun _ => False) refs s dev sb i) →
      ((s.inode i).iCount ≠ 0 → Does (putInode (some i)) env s fun _ t =>
        t.zmap sb = s.zmap sb ∧ t.imap sb = s.imap sb) ∧
      ((s.inode i).iCount = 0 → ∃ t N, (∀ k ≥ N, putInode (some i) env k s =
          .stop (.panic "iput: trying to free free inode") t) ∧
        t.zmap sb = s.zmap sb ∧ t.imap sb = s.imap sb)) := by
  refine ⟨fun hkind htree hspare => ⟨truncate_exact henv hall hv h hdev hkind htree hspare, ?_⟩,
    fun hkept htable => ⟨fun hcount => ?_, fun hcount => ?_⟩⟩
  · intro hcount hlinks hnumbered hpos hle
    obtain ⟨v, hbit⟩ := hnumbered.bit hv.mounted hle
    exact putInode_last henv hall hv h hdev hlock hkind htree hspare hcount hlinks hpos hle hbit
  · exact putInode_kept henv hall hv h hdev hlock hkept hcount htable
  · obtain ⟨N, hN⟩ := putInode_free env hlock hcount
    exact ⟨s.setIntr false, N, hN, rfl, rfl⟩

end Put

/-! ## An inode with an index block -/

/-- The first bits of both bitmaps are set, and the index block in block 6 names block 7. -/
def treeDisk : Disk := fun _ sector i =>
  if sector = 4 ∨ sector = 6 then 0xFF else if sector = 12 ∧ i = 0 then 7 else 0

/-- The blocks of the bitmaps and three data zones. -/
def treeUsed (x : ℕ × ℕ) : Prop := x.1 = 0x300 ∧ (x.2 = 2 ∨ x.2 = 3 ∨ x.2 = 5 ∨ x.2 = 6 ∨ x.2 = 7)

local instance neZero_four : NeZero 4 := ⟨by decide⟩

/-- A kernel with four headers. -/
def treeHeaders : Sys 4 := { (Sys.load treeDisk) with geo := smallDrive, hdEnabled := true }

/-- The bitmap of the inodes is read. -/
def treeImap : Sys 4 :=
  (readBuff 0x300 2 (Env.diligent 0x50) 40 (initBuff (initRequestQueue treeHeaders))).state

/-- And the bitmap of the zones. -/
def treeRead : Sys 4 := (readBuff 0x300 3 (Env.diligent 0x50) 40 treeImap).state

/-- Both buffers are held. -/
def treeRefs : Refs 4 := ((Refs.add (fun _ => 0) 0).add 1)

/-- The device is mounted, and a regular file without links has zone 5 and the index block in
zone 6. -/
def treeMounted : Sys 4 :=
  (treeRead.setSuper 0 fun p =>
    { p with
      sDev := 0x300, sImapBlocks := 1, sZmapBlocks := 1, sNinodes := 32, sFirstdatazone := 5,
      sNzones := 8
      sImap := fun i => if i = 0 then some 0 else none
      sZmap := fun i => if i = 0 then some 1 else none }).setInode 0 fun x =>
    { x with
      iDev := 0x300, iNum := 1, iCount := 1, iMode := 0x8000
      iZone := fun z => if z = 0 then 5 else if z = 7 then 6 else 0 }

theorem treeUsed_tiled : smallDrive.Tiled treeUsed where
  dev := by
    rintro ⟨dev, block⟩ ⟨hdev, -⟩
    dsimp only at hdev
    subst hdev
    exact (by decide : 1 ≤ 0x300 ∧ 0x300 < 65536)
  inside := by
    rintro ⟨dev, block⟩ ⟨hdev, hblock⟩
    dsimp only at hdev hblock
    subst hdev
    obtain rfl | rfl | rfl | rfl | rfl := hblock <;> (unfold Geometry.Inside; decide)
  apart := by
    rintro ⟨dev, block⟩ ⟨dev', block'⟩ ⟨hdev, hblock⟩ ⟨hdev', hblock'⟩ hne
    dsimp only at hdev hblock hdev' hblock'
    subst hdev hdev'
    obtain rfl | rfl | rfl | rfl | rfl := hblock <;>
      obtain rfl | rfl | rfl | rfl | rfl := hblock' <;>
      first | exact absurd rfl hne | (unfold Geometry.Disjoint; decide)

theorem treeMounted_mapped : Mapped (fun _ => True) treeUsed (fun _ => False)
    (fun x => treeHeaders.diskBlock x.1 x.2) treeRefs treeMounted := by
  have himap : readBuff 0x300 2 (Env.diligent 0x50) 40 (initBuff (initRequestQueue treeHeaders)) =
      .ok (some 0) treeImap := Res.eq_ok (by decide +kernel)
  have hzmap : readBuff 0x300 3 (Env.diligent 0x50) 40 treeImap = .ok (some 1) treeRead :=
    Res.eq_ok (by decide +kernel)
  have hfirst :
      MapRun (Env.diligent 0x50) treeUsed treeHeaders [] (Refs.add (fun _ => 0) 0) treeImap :=
    .read .start ⟨rfl, .inl rfl⟩ (fun _ _ => by decide) (.inr ⟨0, rfl⟩) himap
  have hroom : ∀ b, treeImap.Keyed b 0x300 3 → (Refs.add (fun _ => 0) 0) b + 1 < 256 := by
    intro b _
    rw [Refs.add_apply]
    split <;> decide
  have hrun : MapRun (Env.diligent 0x50) treeUsed treeHeaders [] treeRefs treeRead :=
    .read hfirst ⟨rfl, .inr (.inl rfl)⟩ hroom (.inr ⟨1, rfl⟩) hzmap
  have hmajor : ∀ x, treeUsed x → major x.1 = 3 := fun x hx => by rw [hx.1]; rfl
  exact (((hrun.super 0 _).inode 0 _).mapped (diligent_works_all _)
    ⟨rfl, by decide, rfl, rfl⟩ smallDrive_drives rfl
    treeUsed_tiled hmajor).1

/-- What the index block names. -/
theorem treeDisk_named : ∀ w : Fin 512,
    ((treeHeaders.diskBlock 0x300 6).word w).toNat = if w = 0 then 7 else 0 := by
  decide +kernel

/-- The tree has three zones. -/
theorem treeMounted_zoneAt (p : ZonePos) :
    (treeMounted.inode 0).toDInode.zoneAt (fun x => treeHeaders.diskBlock x.1 x.2) 0x300 p =
      if p = .root 0 then 5 else if p = .root 7 then 6 else if p = .single 0 then 7 else 0 := by
  cases p with
  | root z =>
      have hroots : ∀ z : Fin 9, ((treeMounted.inode 0).iZone z).toNat =
          if z = 0 then 5 else if z = 7 then 6 else 0 := by decide
      simpa [DInode.zoneAt] using hroots z
  | single w => simpa [DInode.zoneAt, namedBy, treeMounted] using treeDisk_named w
  | table w => simp [DInode.zoneAt, namedBy, treeMounted]
  | double w w' => simp [DInode.zoneAt, namedBy, treeMounted]

theorem treeMounted_zmap {i : Fin mapSlots} {b : Fin 4}
    (hb : (treeMounted.superBlock 0).sZmap i = some b) : b = 1 := by
  have hslot : ∀ i b, (treeMounted.superBlock 0).sZmap i = some b → b = 1 := by decide
  exact hslot i b hb

theorem treeMounted_imap {i : Fin mapSlots} {b : Fin 4}
    (hb : (treeMounted.superBlock 0).sImap i = some b) : b = 0 := by
  have hslot : ∀ i b, (treeMounted.superBlock 0).sImap i = some b → b = 0 := by decide
  exact hslot i b hb

theorem treeMounted_imapKey : treeMounted.key 0 = (0x300, 2) := by decide +kernel

theorem treeMounted_zmapKey : treeMounted.key 1 = (0x300, 3) := by decide +kernel

theorem treeMounted_zone {p : ZonePos} (hp : (treeMounted.inode 0).toDInode.zoneAt
    (fun x => treeHeaders.diskBlock x.1 x.2) 0x300 p ≠ 0) :
    (treeMounted.inode 0).toDInode.zoneAt (fun x => treeHeaders.diskBlock x.1 x.2) 0x300 p = 5 ∨
    (treeMounted.inode 0).toDInode.zoneAt (fun x => treeHeaders.diskBlock x.1 x.2) 0x300 p = 6 ∨
    (treeMounted.inode 0).toDInode.zoneAt (fun x => treeHeaders.diskBlock x.1 x.2) 0x300 p = 7 := by
  rw [treeMounted_zoneAt] at hp ⊢
  split_ifs at hp ⊢ <;> simp_all

theorem treeMounted_volume :
    Volume treeUsed treeRefs treeMounted 0x300 0 where
  mounted :=
    { device := by decide +kernel
      super := ⟨by decide +kernel, by decide +kernel⟩
      lock := by decide +kernel
      imapBlocks := by decide +kernel
      zmapBlocks := by decide +kernel
      imapOwn := by decide +kernel
      zmapOwn := by decide +kernel
      short := by decide }
  zheld i b hb := by
    obtain rfl := treeMounted_zmap hb
    exact ⟨by decide +kernel, by decide +kernel, by decide +kernel⟩
  iheld i b hb := by
    obtain rfl := treeMounted_imap hb
    exact ⟨by decide +kernel, by decide +kernel, by decide +kernel⟩
  zones z hz := by
    have hfirst : (treeMounted.superBlock 0).sFirstdatazone = 5 := rfl
    have hlast : (treeMounted.superBlock 0).sNzones = 8 := rfl
    obtain ⟨hle, hlt⟩ := hz
    exact ⟨rfl, by omega⟩
  zapart z hz := by
    rintro ⟨i, b, hb, hkey⟩
    have hfirst : (treeMounted.superBlock 0).sFirstdatazone = 5 := rfl
    obtain rfl := treeMounted_zmap hb
    have hblock : 3 = z := congrArg Prod.snd (treeMounted_zmapKey.symm.trans hkey)
    have hle : 5 ≤ z := hfirst ▸ hz.1
    omega
  iapart z hz := by
    rintro ⟨i, b, hb, hkey⟩
    have hfirst : (treeMounted.superBlock 0).sFirstdatazone = 5 := rfl
    obtain rfl := treeMounted_imap hb
    have hblock : 2 = z := congrArg Prod.snd (treeMounted_imapKey.symm.trans hkey)
    have hle : 5 ≤ z := hfirst ▸ hz.1
    omega
  split := Set.disjoint_left.mpr fun x hx hx' => by
    obtain ⟨i, b, hb, rfl⟩ := hx
    obtain ⟨j, c, hc, hkey⟩ := hx'
    obtain rfl := treeMounted_zmap hb
    obtain rfl := treeMounted_imap hc
    exact absurd (congrArg Prod.snd
      (treeMounted_imapKey.symm.trans (hkey.trans treeMounted_zmapKey)))
      (by decide)

theorem treeMounted_owns : OwnsTree (fun x => treeHeaders.diskBlock x.1 x.2) treeRefs
    treeMounted 0x300 0 (treeMounted.inode 0).toDInode where
  once p q hp heq := by
    rw [treeMounted_zoneAt] at hp
    rw [treeMounted_zoneAt, treeMounted_zoneAt] at heq
    split_ifs at hp heq <;> simp_all
  data p hp := by
    have hfirst : (treeMounted.superBlock 0).sFirstdatazone = 5 := rfl
    have hlast : (treeMounted.superBlock 0).sNzones = 8 := rfl
    have hzone := treeMounted_zone hp
    exact ⟨by omega, by omega⟩
  taken p hp := by
    have hset : ∀ z : Fin 8, 5 ≤ z.val →
        treeMounted.zmap 0 ((treeMounted.superBlock 0).zoneBit z) = some true := by decide +kernel
    obtain hz | hz | hz := treeMounted_zone hp <;> rw [hz]
    · exact hset 5 (by decide)
    · exact hset 6 (by decide)
    · exact hset 7 (by decide)
  unheld p hp b hkeyed := by
    have hzone := treeMounted_zone hp
    generalize (treeMounted.inode 0).toDInode.zoneAt
      (fun x => treeHeaders.diskBlock x.1 x.2) 0x300 p = z at hkeyed hzone
    have hkey : treeMounted.key b = (0x300, z) := (Sys.key_eq _).mpr hkeyed
    by_cases hb : b = 0
    · subst hb
      have hblock : 2 = z := congrArg Prod.snd (treeMounted_imapKey.symm.trans hkey)
      omega
    by_cases hb' : b = 1
    · subst hb'
      have hblock : 3 = z := congrArg Prod.snd (treeMounted_zmapKey.symm.trans hkey)
      omega
    · simp [treeRefs, Refs.add, hb, hb']

theorem treeMounted_numbered : Numbered treeMounted 0 := by
  refine ⟨fun i hi => ?_, by decide⟩
  have hzero : i = 0 := Fin.ext (Nat.lt_one_iff.mp hi)
  subst hzero
  rfl

/-- The same file with a link. -/
def treeLinked : Sys 4 := treeMounted.setInode 0 fun x => { x with iNlinks := 1 }

/-- The three zones of the file are freed with its inode, or the bitmaps stay as they are. -/
theorem put_inode_exact_tree :
    Does (putInode (some 0)) (Env.diligent 0x50) treeMounted (fun _ t =>
      (∀ z, (z = 5 ∨ z = 6 ∨ z = 7) →
        t.zmap 0 ((treeMounted.superBlock 0).zoneBit z) = some false) ∧
      t.imap 0 1 = some false ∧ t.inode 0 = MInode.zero) ∧
    Does (putInode (some 0)) (Env.diligent 0x50) treeLinked (fun _ t =>
      t.zmap 0 = treeLinked.zmap 0 ∧ t.imap 0 = treeLinked.imap 0) := by
  have hspare : Spare treeRefs := ⟨2, 3, by decide, by decide, by decide⟩
  constructor
  · obtain ⟨hfree, -⟩ := put_inode_exact (diligent_works_all _)
      (fun _ => trivial) treeMounted_volume
      treeMounted_mapped (i := 0) (by decide +kernel) (by decide +kernel)
    refine ((hfree (by decide +kernel) treeMounted_owns hspare).2 (by decide +kernel)
      (by decide +kernel)
      treeMounted_numbered (by decide +kernel) (by decide +kernel)).mono ?_
    rintro _ t ⟨ht, himap, hinode⟩
    refine ⟨fun z hz => ht.cleared z ?_, ?_, ?_⟩
    · obtain rfl | rfl | rfl := hz
      · exact ⟨by decide, .root 0, treeMounted_zoneAt _⟩
      · exact ⟨by decide, .root 7, treeMounted_zoneAt _⟩
      · exact ⟨by decide, .single 0, treeMounted_zoneAt _⟩
    · rw [himap]
      exact Function.update_self ..
    · rw [hinode, Sys.setInode_inode, Function.update_self]
  · have hvolume : Volume treeUsed treeRefs treeLinked 0x300 0 := treeMounted_volume.setInode 0 _
    have hmapped : Mapped (fun _ => True) treeUsed (fun _ => False)
        (fun x => treeHeaders.diskBlock x.1 x.2) treeRefs treeLinked :=
        treeMounted_mapped.setInode 0 _
    obtain ⟨-, hkeep⟩ := put_inode_exact (diligent_works_all _) (fun _ => trivial) hvolume hmapped
      (i := 0) (by decide +kernel) (by decide +kernel)
    obtain ⟨hkeep, -⟩ := hkeep (.inr (by decide +kernel)) fun _ hdirt => absurd hdirt
      (by decide +kernel)
    exact hkeep (by decide +kernel)

end EgGS
