import EgGS.Cache.Fuel
import EgGS.Model.Path

/-!
# The fuel of the file system

The loops of `super.c`, `zone.c` and `inode.c` return the same with more fuel.
-/

namespace EgGS

open Lib Prog

variable {n : ℕ}

/-! ## `super.c` -/

theorem waitOnSuper_stable (sb : Fin nrSuper) : Stable (waitOnSuper sb : P n Unit) := by
  refine .bind_update (.iterate (fun _ => .bind_read fun _ => ?_) ())
  exact .ite (fun _ => .bind_update (poll_stable.bind fun _ => .pure _)) fun _ => .pure _

theorem findSuper_stable (dev : ℕ) : Stable (findSuper dev : P n (Option (Fin nrSuper))) := by
  refine .ite (fun _ => .pure _) fun _ => .iterate (fun i => .bind_read fun s => ?_) 0
  refine .dite (fun hi => .ite (fun _ => ?_) fun _ => .pure _) fun _ => .pure _
  exact (waitOnSuper_stable _).bind fun _ => .bind_read fun _ =>
    .ite (fun _ => .pure _) fun _ => .pure _

theorem scanMaps_stable (map : Fin mapSlots → Option (Fin n)) (blocks : ℕ) :
    Stable (scanMaps map blocks) := by
  refine .iterate (fun i => .bind_read fun s => .ite
    (fun _ => .dite (fun hi => ?_) fun _ => .halt _)
    fun _ => .pure _) 0
  cases map ⟨i, hi⟩ with
  | none => exact .pure _
  | some b => exact .ite (fun _ => .pure _) fun _ => .pure _

theorem markBit_stable (bh : Fin n) (j : ℕ) (message : String) : Stable (markBit bh j message) :=
  .bind_read fun _ => .ite (fun _ => .halt _) fun _ => .update _

theorem unmarkBit_stable (bh : Fin n) (j : ℕ) : Stable (unmarkBit bh j) := .bind_read fun _ =>
    .update _

theorem freeInodeBitmap_stable (dev num : ℕ) : Stable (freeInodeBitmap dev num : P n Unit) := by
  refine (findSuper_stable dev).bind fun sb => ?_
  cases sb with
  | none => exact .halt _
  | some sb =>
      refine .bind_read fun s => .ite (fun _ => .halt _) fun _ => .dite (fun hi => ?_) fun _ =>
        .halt _
      cases (s.superBlock sb).sImap ⟨num / 8192, hi⟩ with
      | none => exact .halt _
      | some b => exact unmarkBit_stable _ _

theorem addZoneBitmap_stable (dev : ℕ) : Stable (addZoneBitmap dev : P n ℕ) := by
  refine (findSuper_stable dev).bind fun sb => ?_
  cases sb with
  | none => exact .halt _
  | some sb =>
      refine .bind_read fun _ => (scanMaps_stable _ _).bind fun found => ?_
      cases found with
      | none => exact .pure _
      | some x =>
          exact .ite (fun _ => .pure _) fun _ => (markBit_stable _ _ _).bind fun _ => .pure _

theorem freeZoneBitmap_stable (dev block : ℕ) : Stable (freeZoneBitmap dev block : P n Unit) := by
  refine (findSuper_stable dev).bind fun sb => ?_
  cases sb with
  | none => exact .halt _
  | some sb =>
      refine .bind_read fun s => .ite (fun _ => .halt _) fun _ => .dite (fun hi => ?_) fun _ =>
        .halt _
      cases (s.superBlock sb).sZmap ⟨(block - (s.superBlock sb).sFirstdatazone + 1) / 8192, hi⟩ with
      | none => exact .halt _
      | some b => exact unmarkBit_stable _ _

/-! ## `zone.c` -/

theorem deleteBlock_stable (dev block : ℕ) : Stable (deleteBlock dev block : P n Unit) :=
  (invalidateBuff_stable dev block).bind fun _ => freeZoneBitmap_stable dev block

theorem createBlock_stable (dev : ℕ) : Stable (createBlock dev : P n ℕ) :=
  (addZoneBitmap_stable dev).bind fun block => (getBuff_stable dev block).bind fun bh =>
    .bind_read fun _ => .ite (fun _ => .halt _) fun _ =>
      .bind_update ((putBuff_stable (some bh)).bind fun _ => .pure _)

theorem forEachZone_stable (bh : Fin n) {body : ℕ → P n Unit} (h : ∀ zone, Stable (body zone)) :
    Stable (forEachZone bh body) :=
  .forEach (fun _ => .bind_read fun _ => .ite (fun _ => .pure ()) fun _ => h _) _

theorem deleteIndirecteBlock_stable (dev block : ℕ) :
    Stable (deleteIndirecteBlock dev block : P n Unit) := by
  refine .ite (fun _ => .pure ()) fun _ => (readBuff_stable dev block).bind fun found => ?_
  cases found with
  | none => exact (Stable.pure ()).bind fun _ => deleteBlock_stable dev block
  | some bh =>
      exact (forEachZone_stable bh fun zone => deleteBlock_stable dev zone).bind fun _ =>
        (putBuff_stable (some bh)).bind fun _ => deleteBlock_stable dev block

theorem deleteDoubleIndirecteBlock_stable (dev block : ℕ) :
    Stable (deleteDoubleIndirecteBlock dev block : P n Unit) := by
  refine .ite (fun _ => .pure ()) fun _ => (readBuff_stable dev block).bind fun found => ?_
  cases found with
  | none => exact (Stable.pure ()).bind fun _ => deleteBlock_stable dev block
  | some bh =>
      exact (forEachZone_stable bh fun zone => deleteIndirecteBlock_stable dev zone).bind fun _ =>
        (putBuff_stable (some bh)).bind fun _ => deleteBlock_stable dev block

/-! ## `inode.c` -/

theorem waitOnInode_stable (i : Fin nrInode) : Stable (waitOnInode i : P n Unit) := by
  refine .bind_update (.iterate (fun _ => .bind_read fun _ => ?_) ())
  exact .ite (fun _ => .bind_update (poll_stable.bind fun _ => .pure _)) fun _ => .pure _

theorem lockInode_stable (i : Fin nrInode) : Stable (lockInode i : P n Unit) := by
  refine .bind_update (Stable.bind (.iterate (fun _ => .bind_read fun _ => ?_) ()) fun _ =>
    .update _)
  exact .ite (fun _ => .bind_update (.pure _)) fun _ => .pure _

theorem readInodeFromBuff_stable (i : Fin nrInode) : Stable (readInodeFromBuff i : P n Unit) := by
  refine (lockInode_stable i).bind fun _ => .bind_read fun _ => (findSuper_stable _).bind fun sb =>
    ?_
  cases sb with
  | none => exact .halt _
  | some sb =>
      refine .bind_read fun _ => (readBuff_stable _ _).bind fun found => ?_
      cases found with
      | none => exact .halt _
      | some bh => exact .bind_update ((putBuff_stable _).bind fun _ => .update _)

theorem syncInodeToBuff_stable (i : Fin nrInode) : Stable (syncInodeToBuff i : P n Unit) := by
  refine (lockInode_stable i).bind fun _ => .bind_read fun _ => .ite (fun _ => .update _) fun _ =>
    (findSuper_stable _).bind fun sb => ?_
  cases sb with
  | none => exact .halt _
  | some sb =>
      refine .bind_read fun _ => (readBuff_stable _ _).bind fun found => ?_
      cases found with
      | none => exact .halt _
      | some bh => exact .bind_update ((putBuff_stable _).bind fun _ => .update _)

theorem syncAllInodesToBuff_stable : Stable (syncAllInodesToBuff : P n Unit) :=
  .forEach (fun i => (waitOnInode_stable i).bind fun _ => .bind_read fun _ =>
    .ite (fun _ => syncInodeToBuff_stable i) fun _ => .pure ()) _

theorem findInode_stable (dev nr : ℕ) :
    Stable (findInode dev nr : P n (Option (Fin nrInode) × ℕ × ℕ)) := by
  refine .ite (fun _ => .halt _) fun _ => .iterate (fun x => ?_) _
  obtain ⟨i, dev, nr⟩ := x
  refine .bind_read fun s => .dite (fun hi => ?_) fun _ => .pure _
  refine .ite (fun _ => .pure _) fun _ => .ite (fun _ => ?_) fun _ => .pure _
  cases (List.finRange nrSuper).find? fun p => (s.superBlock p).sImount = some ⟨i, hi⟩ with
  | none => exact .pure _
  | some p => exact .pure _

theorem retainInode_stable (dev nr : ℕ) :
    Stable (retainInode dev nr : P n (Option (Fin nrInode) × ℕ × ℕ)) := by
  refine .ite (fun _ => .halt _) fun _ => .iterate (fun x => ?_) _
  obtain ⟨dev, nr⟩ := x
  refine (findInode_stable dev nr).bind fun found => ?_
  obtain ⟨_ | i, dev, nr⟩ := found
  · exact .pure _
  · exact (waitOnInode_stable i).bind fun _ => .bind_read fun _ => .ite (fun _ => .pure _) fun _ =>
      .bind_update (.pure _)

theorem pickInode_stable : Stable (pickInode : P n (Option (Fin nrInode))) := by
  refine .iterate (fun x => ?_) _
  obtain ⟨i, best⟩ := x
  exact .ite (fun _ => .bind_update (.bind_read fun _ => .ite (fun _ =>
    .ite (fun _ => .pure _) fun _ => .pure _) fun _ => .pure _)) fun _ => .pure _

theorem cleanInode_stable (i : Fin nrInode) : Stable (cleanInode i : P n Bool) := by
  refine .iterate (fun _ => .bind_read fun _ => .ite (fun _ => ?_) fun _ => .pure _) ()
  exact (waitOnInode_stable i).bind fun _ => (syncInodeToBuff_stable i).bind fun _ =>
    .bind_read fun _ => .ite (fun _ => .pure _) fun _ => .pure _

theorem newInode_stable (dev nr : ℕ) : Stable (newInode dev nr : P n (Option (Fin nrInode))) := by
  refine pickInode_stable.bind fun picked => ?_
  cases picked with
  | none => exact .halt _
  | some i =>
      refine (cleanInode_stable i).bind fun _ => .ite (fun _ => ?_) fun _ => .pure _
      refine (findInode_stable dev nr).bind fun found => ?_
      obtain ⟨_ | j, dev, nr⟩ := found
      · exact .bind_update (.pure _)
      · exact .pure _

theorem getInode_stable (dev nr : ℕ) : Stable (getInode dev nr : P n (Fin nrInode)) := by
  refine .iterate (fun x => ?_) _
  obtain ⟨dev, nr⟩ := x
  refine (retainInode_stable dev nr).bind fun found => ?_
  obtain ⟨_ | i, dev, nr⟩ := found
  · refine (newInode_stable dev nr).bind fun made => ?_
    cases made with
    | some i => exact .pure _
    | none => exact .pure _
  · exact .pure _

theorem truncate_stable (i : Fin nrInode) : Stable (truncate i : P n Unit) := by
  refine .bind_read fun _ => .ite (fun _ => .pure ()) fun _ => ?_
  refine Stable.bind (.forEach (fun z => .bind_read fun _ => .ite (fun _ => .pure ()) fun _ =>
    (deleteBlock_stable _ _).bind fun _ => .update _) _) fun _ => ?_
  exact .bind_read fun _ => (deleteIndirecteBlock_stable _ _).bind fun _ =>
    .bind_read fun _ => (deleteDoubleIndirecteBlock_stable _ _).bind fun _ => .update _

theorem createZone_stable (i : Fin nrInode) (z : Fin 9) (create : Bool) :
    Stable (createZone i z create : P n Unit) := by
  refine .bind_read fun _ => .ite (fun _ => ?_) fun _ => .pure ()
  exact (createBlock_stable _).bind fun _ => .bind_update
    (.ite (fun _ => .update _) fun _ => .pure ())

theorem indexedZone_stable (i : Fin nrInode) (bh : Fin n) (w : ℕ) (create : Bool) :
    Stable (indexedZone i bh w create) := by
  have hput : ∀ zone : ℕ, Stable (do putBuff (some bh); pure zone) := fun zone =>
    (putBuff_stable (some bh)).bind fun _ => .pure zone
  refine .bind_read fun _ => .ite (fun _ => (createBlock_stable _).bind fun zone => ?_) fun _ =>
    hput _
  exact .ite (fun _ => .bind_update (hput zone)) fun _ => hput zone

theorem locateByInode_stable (i : Fin nrInode) (block : ℤ) (create : Bool) :
    Stable (locateByInode i block create : P n ℕ) := by
  refine .ite (fun _ => .halt _) fun _ => .ite (fun _ => .halt _) fun _ => .dite
    (fun _ => ?_) fun _ =>
    .ite (fun _ => ?_) fun _ => ?_
  · exact (createZone_stable _ _ _).bind fun _ => .bind_read fun _ => .pure _
  · refine (createZone_stable _ _ _).bind fun _ => .bind_read fun _ => .ite
      (fun _ => .pure _) fun _ => ?_
    refine (readBuff_stable _ _).bind fun found => ?_
    cases found with
    | none => exact .pure _
    | some bh => exact indexedZone_stable i bh _ create
  · refine (createZone_stable _ _ _).bind fun _ => .bind_read fun _ => .ite
      (fun _ => .pure _) fun _ => ?_
    refine (readBuff_stable _ _).bind fun found => ?_
    cases found with
    | none => exact .pure _
    | some bh =>
        refine (indexedZone_stable i bh _ create).bind fun zone => .ite (fun _ => .pure _) fun _ =>
          ?_
        refine .bind_read fun _ => (readBuff_stable _ _).bind fun found => ?_
        cases found with
        | none => exact .pure _
        | some bh => exact indexedZone_stable i bh _ create

theorem deleteInode_stable (i : Option (Fin nrInode)) : Stable (deleteInode i : P n Unit) := by
  cases i with
  | none => exact .pure ()
  | some i =>
      refine .bind_read fun _ => .ite (fun _ => .update _) fun _ => .ite (fun _ => .halt _) fun _ =>
        .ite (fun _ => .halt _) fun _ => ?_
      exact (freeInodeBitmap_stable _ _).bind fun _ => .update _

theorem putInode_stable (i : Option (Fin nrInode)) : Stable (putInode i : P n Unit) := by
  cases i with
  | none => exact .pure ()
  | some i =>
      refine (waitOnInode_stable i).bind fun _ => .bind_read fun _ => .ite
        (fun _ => .halt _) fun _ =>
        .iterate (fun _ => .bind_read fun _ => .ite (fun _ => ?_) fun _ => .ite
        (fun _ => ?_) fun _ =>
          .bind_update (.pure _)) ()
      · exact (truncate_stable i).bind fun _ => (deleteInode_stable _).bind fun _ => .pure _
      · exact (syncInodeToBuff_stable i).bind fun _ => (waitOnInode_stable i).bind fun _ => .pure _

theorem readInode_stable (dev nr : ℤ) : Stable (readInode dev nr : P n (Fin nrInode)) :=
  (getInode_stable _ _).bind fun i => .bind_read fun _ =>
    .ite (fun _ => (readInodeFromBuff_stable i).bind fun _ => .pure _) fun _ => .pure _

/-! ## Names -/

end EgGS
