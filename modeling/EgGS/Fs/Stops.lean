import EgGS.Cache.Stops
import EgGS.Model.Path

/-!
# Why the file system stops

Besides what stops the lower layers, a bitmap function that looks behind the end of its
array stops the functions of `zone.c` and `inode.c`; nothing else does.
-/

namespace EgGS

open Lib Prog

variable {n : ℕ} {env : Env n} {bad : Stop → Prop}

/-- None of the reasons in `bad` is one for which `super.c`, `zone.c` and the functions of
`inode.c` that work on numbers stop. -/
structure FsForeign (bad : Stop → Prop) : Prop extends Foreign bad where
  slot : ¬ bad (.fault "bitmap slot out of range")

section Stops

variable (hbad : FsForeign bad)
include hbad

/-! ## Bitmaps -/

/-- The super block of a device is looked up, and its absence is a panic. -/
theorem findSuper_then_avoids {α : Type} {f : Fin nrSuper → P n α} {message : String}
    (hlisted : message ∈ panicMessages) (dev : ℕ)
    (hf : ∀ p (s : Sys n), Avoids bad (f p) env s) (s : Sys n) :
    Avoids bad (findSuper dev >>= fun found =>
      match found with
      | none => panic message
      | some p => f p) env s := by
  refine .bind (findSuper_avoids hbad.toForeign dev s) fun _ found t _ => ?_
  cases found with
  | none => exact .halt (hbad.panic message hlisted)
  | some p => exact hf p t

theorem scanAll_avoids (map : Fin mapSlots → Option (Fin n)) (blocks : ℕ) (s : Sys n) :
    Avoids bad (scanMaps map blocks) env s := by
  refine loop_avoids hbad.toForeign (fun i s => .bind .read fun _ _ s _ =>
    .ite (fun _ => ?_) fun _ => .pure _) _ s
  split
  · split
    · exact .pure _
    · exact .ite (fun _ => .pure _) fun _ => .pure _
  · exact .halt hbad.slot

theorem addInodeBitmap_avoids (dev : ℕ) (s : Sys n) : Avoids bad (addInodeBitmap dev) env s := by
  refine findSuper_then_avoids hbad (by simp [panicMessages]) dev (fun p s => .bind_read ?_) s
  refine .bind (scanAll_avoids hbad _ _ s) fun _ found t _ => ?_
  cases found with
  | none => exact .pure 0
  | some x =>
      exact .ite (fun _ => .pure 0) fun _ =>
        .bind (markBit_avoids hbad.toForeign _ _ (by simp [panicMessages]) t)
          fun _ _ _ _ => .pure _

theorem addZoneBitmap_avoids (dev : ℕ) (s : Sys n) : Avoids bad (addZoneBitmap dev) env s := by
  refine findSuper_then_avoids hbad (by simp [panicMessages]) dev (fun p s => .bind_read ?_) s
  refine .bind (scanAll_avoids hbad _ _ s) fun _ found t _ => ?_
  cases found with
  | none => exact .pure 0
  | some x =>
      exact .ite (fun _ => .pure 0) fun _ =>
        .bind (markBit_avoids hbad.toForeign _ _ (by simp [panicMessages]) t)
          fun _ _ _ _ => .pure _

/-- A bit is cleared, in a map that must be there. -/
theorem unmarkSlot_avoids {map : Fin mapSlots → Option (Fin n)} {message : String}
    (hlisted : message ∈ panicMessages) (i j : ℕ) (s : Sys n) :
    Avoids bad (if h : i < mapSlots then
      match map ⟨i, h⟩ with
      | none => panic message
      | some bh => unmarkBit bh j
    else Prog.halt (.fault "bitmap slot out of range")) env s := by
  split
  · split
    · exact .halt (hbad.panic message hlisted)
    · exact unmarkBit_avoids _ j s
  · exact .halt hbad.slot

theorem freeInodeBitmap_avoids (dev num : ℕ) (s : Sys n) :
    Avoids bad (freeInodeBitmap dev num) env s :=
  findSuper_then_avoids hbad (by simp [panicMessages]) dev (fun _ s => .bind_read <|
    guard_avoids hbad.toForeign (by simp [panicMessages]) fun _ =>
      unmarkSlot_avoids hbad (by simp [panicMessages]) _ _ s) s

theorem freeZoneBitmap_avoids (dev block : ℕ) (s : Sys n) :
    Avoids bad (freeZoneBitmap dev block) env s :=
  findSuper_then_avoids hbad (by simp [panicMessages]) dev (fun _ s => .bind_read <|
    guard_avoids hbad.toForeign (by simp [panicMessages]) fun _ =>
      unmarkSlot_avoids hbad (by simp [panicMessages]) _ _ s) s

/-! ## Zones -/

theorem invalidateBuff_avoids (dev block : ℕ) (s : Sys n) :
    Avoids bad (invalidateBuff dev block) env s := by
  refine .bind (retainBuff_avoids hbad.toForeign dev block s) fun _ found t _ => ?_
  cases found with
  | none => exact .pure _
  | some b =>
      exact .bind_read <| .ite (fun _ => .pure _) fun _ => .bind (.update _) fun _ _ t _ =>
        putBuff_avoids hbad.toForeign _ t

theorem deleteBlock_avoids (dev block : ℕ) (s : Sys n) : Avoids bad (deleteBlock dev block) env s :=
  .bind (invalidateBuff_avoids hbad dev block s) fun _ _ t _ =>
  freeZoneBitmap_avoids hbad dev block t

theorem createBlock_avoids (dev : ℕ) (s : Sys n) : Avoids bad (createBlock dev) env s :=
  .bind (addZoneBitmap_avoids hbad dev s) fun _ block t _ =>
    .bind (getBuff_avoids hbad.toForeign dev block t) fun _ _ _ _ => .bind_read <|
      guard_avoids hbad.toForeign (by simp [panicMessages]) fun _ =>
        .bind (.update _) fun _ _ t _ =>
        .bind (putBuff_avoids hbad.toForeign _ t) fun _ _ _ _ => .pure _

omit hbad in
theorem forEachZone_avoids {body : ℕ → P n Unit} (hbody : ∀ zone s, Avoids bad (body zone) env s)
    (bh : Fin n) (s : Sys n) : Avoids bad (forEachZone bh body) env s :=
  forEach_avoids (fun _ s => .bind_read <| .ite (fun _ => .pure ()) fun _ => hbody _ s) _ s

theorem deleteIndirecteBlock_avoids (dev block : ℕ) (s : Sys n) :
    Avoids bad (deleteIndirecteBlock dev block) env s := by
  refine .ite (fun _ => .pure _) fun _ => .bind (readBuff_avoids hbad.toForeign dev block s)
    fun _ found t _ => ?_
  cases found with
  | none => exact deleteBlock_avoids hbad dev block t
  | some bh =>
      exact .bind (forEachZone_avoids (deleteBlock_avoids hbad dev) bh t) fun _ _ t _ =>
        .bind (putBuff_avoids hbad.toForeign _ t) fun _ _ t _ => deleteBlock_avoids hbad dev block t

theorem deleteDoubleIndirecteBlock_avoids (dev block : ℕ) (s : Sys n) :
    Avoids bad (deleteDoubleIndirecteBlock dev block) env s := by
  refine .ite (fun _ => .pure _) fun _ => .bind (readBuff_avoids hbad.toForeign dev block s)
    fun _ found t _ => ?_
  cases found with
  | none => exact deleteBlock_avoids hbad dev block t
  | some bh =>
      exact .bind (forEachZone_avoids (deleteIndirecteBlock_avoids hbad dev) bh t) fun _ _ t _ =>
        .bind (putBuff_avoids hbad.toForeign _ t) fun _ _ t _ => deleteBlock_avoids hbad dev block t

/-! ## Inodes -/

theorem waitOnInode_avoids (i : Fin nrInode) (s : Sys n) : Avoids bad (waitOnInode i) env s :=
  .bind (.update _) fun _ _ s _ => loop_avoids hbad.toForeign (fun _ _ => .bind .read fun _ _ s _ =>
    .ite (fun _ => sti_poll_avoids hbad.toForeign s) fun _ => .pure _) () s

theorem lockInode_avoids (i : Fin nrInode) (s : Sys n) : Avoids bad (lockInode i) env s :=
  .bind (.update _) fun _ _ s _ => .bind (loop_avoids hbad.toForeign (fun _ _ => .bind .read
    fun _ _ _ _ => .ite (fun _ => .bind (.update _) fun _ _ _ _ => .pure _) fun _ => .pure _) () s)
    fun _ _ _ _ => .update _

theorem readInodeFromBuff_avoids (i : Fin nrInode) (s : Sys n) :
    Avoids bad (readInodeFromBuff i) env s := by
  refine .bind (lockInode_avoids hbad i s) fun _ _ s _ => .bind_read ?_
  refine findSuper_then_avoids hbad (by simp [panicMessages]) _ (fun p s => .bind_read ?_) s
  refine .bind (readBuff_avoids hbad.toForeign _ _ s) fun _ found t _ => ?_
  cases found with
  | none => exact .halt (hbad.panic _ (by simp [panicMessages]))
  | some bh =>
      exact .bind (.update _) fun _ _ t _ => .bind (putBuff_avoids hbad.toForeign _ t)
        fun _ _ _ _ => .update _

theorem syncInodeToBuff_avoids (i : Fin nrInode) (s : Sys n) :
    Avoids bad (syncInodeToBuff i) env s := by
  refine .bind (lockInode_avoids hbad i s) fun _ _ s _ => .bind_read <| .ite (fun _ => .update _)
    fun _ => findSuper_then_avoids hbad (by simp [panicMessages]) _ (fun p s => .bind_read ?_) s
  refine .bind (readBuff_avoids hbad.toForeign _ _ s) fun _ found t _ => ?_
  cases found with
  | none => exact .halt (hbad.panic _ (by simp [panicMessages]))
  | some bh =>
      exact .bind (.update _) fun _ _ t _ => .bind (putBuff_avoids hbad.toForeign _ t)
        fun _ _ _ _ => .update _

theorem findInode_avoids (dev nr : ℕ) (s : Sys n) : Avoids bad (findInode dev nr) env s := by
  refine guard_avoids hbad.toForeign (by simp [panicMessages]) fun _ => loop_avoids hbad.toForeign
    (fun x s => ?_) _ s
  refine .bind_read ?_
  dsimp only
  split
  · refine .ite (fun _ => .pure _) fun _ => .ite (fun _ => ?_) fun _ => .pure _
    split
    · exact .pure _
    · exact .pure _
  · exact .pure _

theorem retainInode_avoids (dev nr : ℕ) (s : Sys n) : Avoids bad (retainInode dev nr) env s := by
  refine guard_avoids hbad.toForeign (by simp [panicMessages]) fun _ => loop_avoids hbad.toForeign
    (fun x s => ?_) _ s
  refine .bind (findInode_avoids hbad _ _ s) fun _ found t _ => ?_
  obtain ⟨found, dev, nr⟩ := found
  cases found with
  | none => exact .pure _
  | some i =>
      exact .bind (waitOnInode_avoids hbad i t) fun _ _ _ _ => .bind .read fun _ _ _ _ =>
        .ite (fun _ => .pure _) fun _ => .bind (.update _) fun _ _ _ _ => .pure _

theorem pickInode_avoids (s : Sys n) : Avoids bad pickInode env s :=
  loop_avoids hbad.toForeign (fun _ _ => .ite (fun _ => .bind (.update _) fun _ _ _ _ =>
    .bind .read fun _ _ _ _ => .ite (fun _ => .ite (fun _ => .pure _) fun _ => .pure _)
    fun _ => .pure _) fun _ => .pure _) _ s

theorem cleanInode_avoids (i : Fin nrInode) (s : Sys n) : Avoids bad (cleanInode i) env s :=
  loop_avoids hbad.toForeign (fun _ s => .bind_read <| .ite (fun _ =>
    .bind (waitOnInode_avoids hbad i s) fun _ _ s _ => .bind (syncInodeToBuff_avoids hbad i s)
      fun _ _ _ _ => .bind .read fun _ _ _ _ => .ite (fun _ => .pure _) fun _ => .pure _)
    fun _ => .pure _) () s

theorem newInode_avoids (dev nr : ℕ) (s : Sys n) : Avoids bad (newInode dev nr) env s := by
  refine .bind (pickInode_avoids hbad s) fun _ found s _ => ?_
  cases found with
  | none => exact .halt (hbad.panic _ (by simp [panicMessages]))
  | some i =>
      refine .bind (cleanInode_avoids hbad i s) fun _ clean s _ => .ite (fun _ => ?_) fun _ =>
        .pure _
      refine .bind (findInode_avoids hbad dev nr s) fun _ found s _ => ?_
      obtain ⟨found, dev, nr⟩ := found
      cases found with
      | none => exact .bind (.update _) fun _ _ _ _ => .pure _
      | some _ => exact .pure _

theorem getInode_avoids (dev nr : ℕ) (s : Sys n) : Avoids bad (getInode dev nr) env s := by
  refine loop_avoids hbad.toForeign (fun x s => ?_) _ s
  refine .bind (retainInode_avoids hbad _ _ s) fun _ found s _ => ?_
  obtain ⟨found, dev, nr⟩ := found
  cases found with
  | some i => exact .pure _
  | none =>
      refine .bind (newInode_avoids hbad dev nr s) fun _ made s _ => ?_
      cases made with
      | some i => exact .pure _
      | none => exact .pure _

theorem readInode_avoids (dev nr : ℤ) (s : Sys n) : Avoids bad (readInode dev nr) env s :=
  .bind (getInode_avoids hbad _ _ s) fun _ i s _ => .bind_read <|
    .ite (fun _ => .bind (readInodeFromBuff_avoids hbad i s) fun _ _ _ _ => .pure _) fun _ =>
    .pure _

theorem createInode_avoids (dev : ℕ) (s : Sys n) : Avoids bad (createInode dev) env s := by
  refine .bind (addInodeBitmap_avoids hbad dev s) fun _ num s _ => .ite (fun _ => .pure _) fun _ =>
    .bind (newInode_avoids hbad dev num s) fun _ made s _ => ?_
  cases made with
  | none => exact .pure _
  | some i => exact .bind (.update _) fun _ _ _ _ => .pure _

/-! ## Zones of an inode -/

theorem truncate_avoids (i : Fin nrInode) (s : Sys n) : Avoids bad (truncate i) env s := by
  refine .bind_read <| .ite (fun _ => .pure _) fun _ => .bind
    (forEach_avoids (fun z s => .bind_read <|
    .ite (fun _ => .pure _) fun _ => ?_) _ s) fun _ _ s _ => .bind_read ?_
  · exact .bind (deleteBlock_avoids hbad _ _ s) fun _ _ _ _ => .update _
  · exact .bind (deleteIndirecteBlock_avoids hbad _ _ s) fun _ _ s _ => .bind_read <|
      .bind (deleteDoubleIndirecteBlock_avoids hbad _ _ s) fun _ _ _ _ => .update _

theorem createZone_avoids (i : Fin nrInode) (z : Fin 9) (create : Bool) (s : Sys n) :
    Avoids bad (createZone i z create) env s :=
  .bind_read <| .ite (fun _ => .bind (createBlock_avoids hbad _ s) fun _ _ _ _ =>
    .bind (.update _) fun _ _ _ _ => .ite (fun _ => .update _) fun _ => .pure _) fun _ => .pure _

theorem indexedZone_avoids (i : Fin nrInode) (bh : Fin n) (w : ℕ) (create : Bool) (s : Sys n) :
    Avoids bad (indexedZone i bh w create) env s := by
  have hput : ∀ (zone : ℕ) (s : Sys n), Avoids bad (do
      putBuff (some bh)
      pure zone : P n ℕ) env s := fun zone s =>
    .bind (putBuff_avoids hbad.toForeign _ s) fun _ _ _ _ => .pure _
  refine .bind_read <| .ite (fun _ => .bind (createBlock_avoids hbad _ s) fun _ zone s _ => ?_)
    fun _ => hput _ s
  exact .ite (fun _ => .bind (.update _) fun _ _ s _ => hput zone s) fun _ => hput zone s

theorem locateByInode_avoids (i : Fin nrInode) (block : ℤ) (create : Bool) (s : Sys n) :
    Avoids bad (locateByInode i block create) env s := by
  refine guard_avoids hbad.toForeign (by simp [panicMessages]) fun _ =>
    guard_avoids hbad.toForeign (by simp [panicMessages]) fun _ => ?_
  split
  · exact .bind (createZone_avoids hbad i _ create s) fun _ _ _ _ => .bind .read fun _ _ _ _ =>
      .pure _
  · refine .ite (fun _ => ?_) fun _ => ?_
    · refine .bind (createZone_avoids hbad i 7 create s) fun _ _ s _ => .bind_read <|
        .ite (fun _ => .pure _) fun _ => .bind (readBuff_avoids hbad.toForeign _ _ s)
          fun _ found s _ => ?_
      cases found with
      | none => exact .pure _
      | some bh => exact indexedZone_avoids hbad i bh _ create s
    · refine .bind (createZone_avoids hbad i 8 create s) fun _ _ s _ => .bind_read <|
        .ite (fun _ => .pure _) fun _ => .bind (readBuff_avoids hbad.toForeign _ _ s)
          fun _ found s _ => ?_
      cases found with
      | none => exact .pure _
      | some bh =>
          refine .bind (indexedZone_avoids hbad i bh _ create s) fun _ zone s _ =>
            .ite (fun _ => .pure _) fun _ => .bind_read <|
              .bind (readBuff_avoids hbad.toForeign _ _ s) fun _ found s _ => ?_
          cases found with
          | none => exact .pure _
          | some bh => exact indexedZone_avoids hbad i bh _ create s

/-! ## Giving inodes back -/

theorem deleteInode_avoids (i : Option (Fin nrInode)) (s : Sys n) :
    Avoids bad (deleteInode i) env s := by
  cases i with
  | none => exact .pure _
  | some i =>
      exact .bind_read <| .ite (fun _ => .update _) fun _ =>
        guard_avoids hbad.toForeign (by simp [panicMessages]) fun _ =>
          guard_avoids hbad.toForeign (by simp [panicMessages]) fun _ =>
          .bind (freeInodeBitmap_avoids hbad _ _ s) fun _ _ _ _ => .update _

theorem putInode_avoids (i : Option (Fin nrInode)) (s : Sys n) : Avoids bad (putInode i) env s := by
  cases i with
  | none => exact .pure _
  | some i =>
      refine .bind (waitOnInode_avoids hbad i s) fun _ _ s _ => .bind_read <|
        guard_avoids hbad.toForeign (by simp [panicMessages]) fun _ =>
          loop_avoids hbad.toForeign (fun _ s => ?_) () s
      refine .bind_read <| .ite (fun _ => ?_) fun _ => .ite (fun _ => ?_) fun _ => ?_
      · exact .bind (truncate_avoids hbad i s) fun _ _ s _ =>
          .bind (deleteInode_avoids hbad (some i) s) fun _ _ _ _ => .pure _
      · exact .bind (syncInodeToBuff_avoids hbad i s) fun _ _ s _ =>
          .bind (waitOnInode_avoids hbad i s) fun _ _ _ _ => .pure _
      · exact .bind (.update _) fun _ _ _ _ => .pure _

/-! ## Looking paths up -/

section Lookup

theorem crossDots_avoids (inode : Fin nrInode) (name : ℕ → UInt8) (namelen : ℕ) (s : Sys n) :
    Avoids bad (crossDots inode name namelen) env s := by
  refine .ite (fun _ => .bind_read <| .ite (fun _ => ?_) fun _ => .pure _) fun _ => .pure _
  refine .bind (findSuper_avoids hbad.toForeign _ s) fun _ found t _ => ?_
  cases found with
  | none => exact .halt hbad.null
  | some sb =>
      refine .bind_read ?_
      split
      · exact .pure _
      · exact .bind (putInode_avoids hbad _ t) fun _ _ _ _ =>
          .bind (.update _) fun _ _ _ _ => .pure _

/-- What `lookup_name` does behind the scan. -/
theorem finishLookup_avoids (dir : Fin nrInode) (buf : Option (Fin n)) (res : Option (Fin n × ℕ))
    (s : Sys n) : Avoids bad (do
      putBuff buf
      match res with
      | none => pure (dir, none)
      | some (b, e) => do
        let s ← Prog.read
        let found ← readInode (s.inode dir).iDev ((s.buf b).bData.entryInode e)
        pure (dir, some found)) env s := by
  refine .bind (putBuff_avoids hbad.toForeign _ s) fun _ _ t _ => ?_
  cases res with
  | none => exact .pure _
  | some x =>
      exact .bind_read <| .bind (readInode_avoids hbad _ _ t) fun _ _ _ _ => .pure _

-- besides, the scan dereferences a `NULL` buffer head behind a block that could not be read
variable (hhead : ¬ bad (.fault "NULL buffer head"))
include hhead

theorem scanEntries_avoids (inode : Fin nrInode) (name : ℕ → UInt8) (namelen entries : ℕ)
    (bh : Fin n) (s : Sys n) :
    Avoids bad (scanEntries inode name namelen entries bh) env s := by
  have hcheck : ∀ (i e : ℕ) (bh : Fin n) (s : Sys n),
      Avoids bad (checkEntry name namelen i e bh) env s := fun i e bh s =>
    .bind_read <| .ite (fun _ => .pure _) fun _ => .pure _
  refine loop_avoids hbad.toForeign (fun ⟨i, e, buf⟩ s => ?_) _ s
  refine .ite (fun _ => ?_) fun _ => .pure _
  cases buf with
  | none => exact .halt hhead
  | some bh =>
      refine .ite (fun _ => ?_) fun _ => hcheck i e bh s
      refine .bind (putBuff_avoids hbad.toForeign _ s) fun _ _ s _ =>
        .bind (locateByInode_avoids hbad _ _ _ s) fun _ block s _ =>
          .ite (fun _ => .pure _) fun _ => .bind_read <|
            .bind (readBuff_avoids hbad.toForeign _ _ s) fun _ found s _ => ?_
      cases found with
      | none => exact .pure _
      | some bh => exact hcheck i 0 bh s

theorem lookupName_avoids (inode : Fin nrInode) (name : ℕ → UInt8) (namelen entries : ℕ)
    (s : Sys n) : Avoids bad (lookupName inode name namelen entries) env s := by
  refine .bind_read <| .ite (fun _ => .pure _) fun _ =>
    .bind (readBuff_avoids hbad.toForeign _ _ s) fun _ found s _ => ?_
  cases found with
  | none => exact .pure _
  | some bh =>
      exact .bind (scanEntries_avoids hbad hhead inode name namelen entries bh s)
        fun _ x s _ => finishLookup_avoids hbad inode x.1 x.2 s

theorem retainInodeByName_avoids (inode : Fin nrInode) (name : ℕ → UInt8) (namelen : ℕ)
    (s : Sys n) : Avoids bad (retainInodeByName inode name namelen) env s :=
  .bind_read <| .ite (fun _ => .pure _) fun _ =>
    .bind (crossDots_avoids hbad inode name _ s) fun _ dir s _ =>
      lookupName_avoids hbad hhead dir name _ _ s

theorem retainInodeByPath_avoids (inode : Fin nrInode) (pathname : ℕ → UInt8) (s : Sys n) :
    Avoids bad (retainInodeByPath inode pathname) env s := by
  refine .ite (fun _ => .pure _) fun _ => .bind (.update _) fun _ _ s _ =>
    loop_avoids hbad.toForeign (fun ⟨res, thisname, namelen, pos⟩ s => ?_) _ s
  refine .ite (fun _ => .pure _) fun _ => .ite (fun _ => .pure _) fun _ => .bind_read <|
    .ite (fun _ => .pure _) fun _ =>
      .bind (retainInodeByName_avoids hbad hhead res _ namelen s) fun _ x s _ => ?_
  obtain ⟨res', made⟩ := x
  cases made with
  | none => exact .pure _
  | some tmp => exact .bind (putInode_avoids hbad _ s) fun _ _ _ _ => .pure _

end Lookup

end Stops

end EgGS
