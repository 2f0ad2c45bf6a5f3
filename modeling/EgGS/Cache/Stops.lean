import EgGS.Model.Zone

/-!
# Why the lower layers stop

The driver, the request layer and the buffer cache panic, divide by zero, follow a `NULL`
link of the free list or loop for ever, and stop for no other reason.  `panicMessages` are the
texts with which they, and the functions of the file system above them, call `panic`.
-/

namespace EgGS

open Lib Prog

variable {n : ℕ} {env : Env n} {bad : Stop → Prop}

/-- What the driver, the buffer cache and the functions of the file system behind `read_inode`,
`put_inode` and the path lookup call `panic` with. -/
def panicMessages : List String :=
  ["trying to read inode without dev", "unable to read i-node block",
    "trying to write inode without device", "No free inodes in mem", "find inode with dev==0",
    "retain inode with dev==0", "iput: trying to free free inode", "free_inode",
    "trying to free inode with links", "locate_in_inode: block<0", "locate_in_inode: block>big",
    "trying to get add_inode_bitmap from nonexistant device", "add_inode_bitmap: bit already set",
    "trying to free inode on nonexistent device", "trying to free inode 0 or nonexistant inode",
    "nonexistent imap in superblock", "trying to get new block from nonexistant device",
    "new_block: bit already set", "new block: count is != 1",
    "trying to free block on nonexistent device", "trying to free block not in datazone",
    "nonexistent zmap in superblock", "Free block list corrupted", "Trying to free free buffer",
    "read_buff: get_buff returned NULL\n", "Bad block dev command, must be R/W/RA/WA",
    "Trying to write bad sector", "HD controller not ready", "harddisk: request list destroyed",
    "harddisk: block not locked", "unknown hd-command"]

/-- None of the reasons in `bad` is one for which the lower layers stop. -/
structure Foreign (bad : Stop → Prop) : Prop where
  panic : ∀ message ∈ panicMessages, ¬ bad (.panic message)
  spin : ¬ bad .spin
  division : ¬ bad (.fault "division by zero")
  null : ¬ bad (.fault "NULL dereference")

/-- A test that panics with one of these texts. -/
theorem guard_avoids {α : Type} {c : Prop} [Decidable c] {message : String} {m : P n α}
    {s : Sys n} (hbad : Foreign bad) (hlisted : message ∈ panicMessages)
    (h : ¬ c → Avoids bad m env s) : Avoids bad (if c then panic message else m) env s :=
  .ite (fun _ => .halt (hbad.panic message hlisted)) h

section Stops

variable (hbad : Foreign bad)

include hbad

/-! ## The driver -/

theorem hdOut_avoids (c : Command) (h : Handler) (s : Sys n) : Avoids bad (hdOut c h) env s := by
  refine guard_avoids hbad (by simp [panicMessages]) fun _ => .bind (.ask _) fun _ ready s _ => ?_
  exact .ite (fun _ => .update _) fun _ => .halt (hbad.panic _ (by simp [panicMessages]))

theorem resetController_avoids (dev : ℕ) (s : Sys n) : Avoids bad (resetController dev) env s :=
  .bind .read fun _ _ s _ => hdOut_avoids hbad _ _ s

omit hbad in
theorem failed_avoids (s : Sys n) : Avoids bad failed env s :=
  .bind (.ask _) fun _ _ _ _ => .update _

theorem hdRequestPass_avoids (s : Sys n) : Avoids bad hdRequestPass env s := by
  refine .bind_read ?_
  cases s.current with
  | none => exact .pure _
  | some r =>
      refine guard_avoids hbad (by simp [panicMessages]) fun _ =>
        guard_avoids hbad (by simp [panicMessages]) fun _ =>
        .ite (fun _ => .bind (.update _) fun _ _ _ _ => .pure _) fun _ =>
        .ite (fun _ => .halt hbad.division) fun _ => .ite (fun _ => ?_) fun _ =>
        .ite (fun _ => ?_) fun _ => .ite (fun _ => ?_) fun _ => .ite (fun _ => ?_) fun _ =>
        .halt (hbad.panic _ (by simp [panicMessages]))
      · exact .bind (.update _) fun _ _ s _ => .bind (resetController_avoids hbad _ s)
          fun _ _ _ _ => .pure _
      · exact .bind (.update _) fun _ _ s _ => .bind (hdOut_avoids hbad _ _ s) fun _ _ _ _ =>
          .pure _
      · refine .bind (hdOut_avoids hbad _ _ s) fun _ _ s _ => .bind (.ask _) fun _ _ s _ =>
          .ite (fun _ => .bind (.update _) fun _ _ _ _ => .pure _) fun _ => ?_
        exact .bind (.update _) fun _ _ s _ => .bind (failed_avoids s) fun _ _ _ _ => .pure _
      · exact .bind (hdOut_avoids hbad _ _ s) fun _ _ _ _ => .pure _

theorem doHdRequest_avoids (s : Sys n) : Avoids bad doHdRequest env s :=
  iterate_avoids (I := fun _ _ => True) hbad.spin (fun _ s _ => hdRequestPass_avoids hbad s)
    (fun _ _ _ _ _ _ _ => trivial) trivial

theorem failedThen_avoids (s : Sys n) :
    Avoids bad (failed >>= fun _ => doHdRequest) env s :=
  .bind (failed_avoids s) fun _ _ s _ => doHdRequest_avoids hbad s

theorem readIntr_avoids (ok : Bool) (s : Sys n) : Avoids bad (readIntr ok) env s := by
  refine .ite (fun _ => .bind_read ?_) fun _ => failedThen_avoids hbad s
  cases s.current with
  | none => exact .update _
  | some r =>
      exact .bind (.update _) fun _ _ _ _ => .bind (.update _) fun _ _ _ _ =>
        .ite (fun _ => .update _) fun _ => .bind (.update _) fun _ _ s _ =>
        doHdRequest_avoids hbad s

theorem writeIntr_avoids (ok : Bool) (s : Sys n) : Avoids bad (writeIntr ok) env s := by
  refine .ite (fun _ => .bind_read ?_) fun _ => failedThen_avoids hbad s
  cases s.current with
  | none => exact .update _
  | some r =>
      refine .bind (.update _) fun _ _ _ _ => .ite (fun _ => ?_) fun _ =>
        .bind (.update _) fun _ _ s _ => doHdRequest_avoids hbad s
      exact .bind (.update _) fun _ _ _ _ => .bind (.update _) fun _ _ _ _ => .update _

theorem recalIntr_avoids (ok : Bool) (s : Sys n) : Avoids bad (recalIntr ok) env s :=
  .ite (fun _ => doHdRequest_avoids hbad s) fun _ => failedThen_avoids hbad s

theorem hdInterrupt_avoids (i : Irq) (s : Sys n) : Avoids bad (hdInterrupt i) env s := by
  refine .bind (.update _) fun _ _ s _ => .bind_read ?_
  cases s.handler with
  | none => exact .pure ()
  | readIntr => exact readIntr_avoids hbad _ s
  | writeIntr => exact writeIntr_avoids hbad _ s
  | recalIntr => exact recalIntr_avoids hbad _ s

theorem interrupts_avoids (j : ℕ) (s : Sys n) : Avoids bad (interrupts j) env s := by
  induction j generalizing s with
  | zero => exact .pure ()
  | succ j ih =>
      refine .bind (.ask _) fun _ i s _ => ?_
      cases i with
      | none => exact .pure ()
      | some i =>
          exact .bind (hdInterrupt_avoids hbad i s) fun _ _ _ _ => .bind (.update _) fun _ _ s _ =>
            ih s

theorem poll_avoids (s : Sys n) : Avoids bad poll env s :=
  .bind (.update _) fun _ _ _ _ => .bind .read fun _ _ _ _ =>
    .ite (fun _ => .bind (.ask _) fun _ _ s _ => interrupts_avoids hbad _ s) fun _ => .pure ()

/-! ## Waiting -/

/-- A loop without an invariant avoids what its rounds avoid. -/
theorem loop_avoids {α β : Type} {body : β → P n (β ⊕ α)} (h : ∀ b s, Avoids bad (body b) env s)
    (b : β) (s : Sys n) : Avoids bad (iterate body b) env s :=
  iterate_avoids (I := fun _ _ => True) hbad.spin (fun b s _ => h b s)
    (fun _ _ _ _ _ _ _ => trivial) trivial

theorem sti_poll_avoids (s : Sys n) :
    Avoids bad (do sti; poll; pure (.inl ()) : P n (Unit ⊕ Unit)) env s :=
  .bind (.update _) fun _ _ s _ => .bind (poll_avoids hbad s) fun _ _ _ _ => .pure _

theorem waitOnBuff_avoids (b : Fin n) (s : Sys n) : Avoids bad (waitOnBuff b) env s :=
  .bind (.update _) fun _ _ s _ => loop_avoids hbad (fun _ _ => .bind .read fun _ _ s _ =>
    .ite (fun _ => sti_poll_avoids hbad s) fun _ => .pure _) () s

theorem waitOnSuper_avoids (sb : Fin nrSuper) (s : Sys n) : Avoids bad (waitOnSuper sb) env s :=
  .bind (.update _) fun _ _ s _ => loop_avoids hbad (fun _ _ => .bind .read fun _ _ s _ =>
    .ite (fun _ => sti_poll_avoids hbad s) fun _ => .pure _) () s

/-! ## The request layer -/

theorem elevator_avoids (req head : Fin nrRequest) (s : Sys n) :
    Avoids bad (elevator req head) env s := by
  refine loop_avoids hbad (fun tmp s => .bind_read ?_) _ s
  cases (s.request tmp).next with
  | none => exact .pure _
  | some nxt => exact .ite (fun _ => .pure _) fun _ => .pure _

theorem addRequest_avoids (req : Fin nrRequest) (s : Sys n) :
    Avoids bad (addRequest req) env s := by
  refine .bind (.update _) fun _ _ _ _ => .bind (.update _) fun _ _ _ _ =>
    .bind (.update _) fun _ _ s _ => .bind_read ?_
  cases s.current with
  | none =>
      exact .bind (.update _) fun _ _ _ _ => .bind (.update _) fun _ _ s _ =>
        doHdRequest_avoids hbad s
  | some head =>
      exact .bind (elevator_avoids hbad req head s) fun _ _ _ _ => .bind (.update _) fun _ _ _ _ =>
        .update _

theorem findSlot_avoids (rw : Rw) (ahead : Bool) (s : Sys n) :
    Avoids bad (findSlot rw ahead) env s := by
  refine loop_avoids hbad (fun _ s => .bind_read ?_) _ s
  cases freeSlot s rw with
  | some r => exact .pure _
  | none =>
      exact .ite (fun _ => .pure _) fun _ => .bind (poll_avoids hbad s) fun _ _ _ _ => .pure _

theorem llRwBlock_avoids (rw : Rw) (b : Fin n) (s : Sys n) : Avoids bad (llRwBlock rw b) env s := by
  refine .bind .read fun _ _ s _ => .ite (fun _ => .pure ()) fun _ => .ite
    (fun _ => .pure ()) fun _ => ?_
  refine .bind (.bind (.update _) fun _ _ _ _ => .bind (.update _) fun _ _ _ _ => .update _)
    fun _ _ s _ => .bind (poll_avoids hbad s) fun _ _ _ _ => .bind .read fun _ _ s _ =>
    .ite (fun _ => .update _) fun _ => .bind (findSlot_avoids hbad _ _ s) fun _ slot s _ => ?_
  cases slot with
  | none => exact .update _
  | some r =>
      exact .bind (.update _) fun _ _ s _ => .bind (poll_avoids hbad s) fun _ _ s _ =>
        addRequest_avoids hbad r s

/-! ## The buffer cache -/

theorem findBuff_avoids (dev block : ℕ) (s : Sys n) : Avoids bad (findBuff dev block) env s := by
  refine .bind .read fun _ _ s _ => loop_avoids hbad (fun tmp s => .bind_read ?_) _ s
  cases tmp with
  | none => exact .pure _
  | some b => exact .ite (fun _ => .pure _) fun _ => .pure _

theorem retainBuff_avoids (dev block : ℕ) (s : Sys n) :
    Avoids bad (retainBuff dev block) env s := by
  refine loop_avoids hbad (fun _ s => .bind (poll_avoids hbad s) fun _ _ s _ =>
    .bind (findBuff_avoids hbad dev block s) fun _ found s _ => ?_) _ s
  cases found with
  | none => exact .pure _
  | some b =>
      exact .bind (waitOnBuff_avoids hbad b s) fun _ _ _ _ => .bind .read fun _ _ _ _ =>
        .ite (fun _ => .pure _) fun _ => .bind (.update _) fun _ _ _ _ => .pure _

theorem syncDev_avoids (dev : ℕ) (s : Sys n) : Avoids bad (syncDev dev) env s := by
  refine forEach_avoids (fun b s => .bind (poll_avoids hbad s) fun _ _ s _ => .bind .read
    fun _ _ s _ => .ite (fun _ => .pure ()) fun _ => ?_) _ s
  exact .bind (waitOnBuff_avoids hbad b s) fun _ _ _ _ => .bind .read fun _ _ s _ =>
    .ite (fun _ => llRwBlock_avoids hbad _ b s) fun _ => .pure ()

theorem scanFree_avoids (s : Sys n) : Avoids bad scanFree env s := by
  refine .bind .read fun _ _ s _ => loop_avoids hbad (fun x s => .bind_read ?_) _ s
  refine .ite (fun _ => .pure _) fun _ => ?_
  dsimp only
  split
  · exact .halt hbad.null
  · exact .ite (fun _ => .pure _) fun _ => .pure _

theorem cleanVictim_avoids (b : Fin n) (s : Sys n) : Avoids bad (cleanVictim b) env s := by
  refine loop_avoids hbad
    (fun _ s => .bind .read fun _ _ s _ => .ite (fun _ => ?_) fun _ => .pure _) _ s
  exact .bind (syncDev_avoids hbad _ s) fun _ _ s _ => .bind (waitOnBuff_avoids hbad b s)
    fun _ _ _ _ => .bind .read fun _ _ _ _ => .ite (fun _ => .pure _) fun _ => .pure _

theorem reuse_avoids (b : Fin n) (dev block : ℕ) (s : Sys n) :
    Avoids bad (reuse b dev block) env s := by
  refine .bind (.update _) fun _ _ s _ => .bind (.bind (.update _) fun _ _ s _ => .bind_read ?_)
    fun _ _ _ _ => .bind (.update _) fun _ _ _ _ => .update _
  split
  · exact .update _
  · exact .halt (hbad.panic _ (by simp [panicMessages]))

theorem newBuff_avoids (dev block : ℕ) (s : Sys n) : Avoids bad (newBuff dev block) env s := by
  refine .bind (poll_avoids hbad s) fun _ _ s _ => .bind
    (scanFree_avoids hbad s) fun _ victim s _ => ?_
  cases victim with
  | none => exact .pure none
  | some b =>
      refine .bind (waitOnBuff_avoids hbad b s) fun _ _ _ _ => .bind .read fun _ _ s _ =>
        .ite (fun _ => .pure none) fun _ => .bind (cleanVictim_avoids hbad b s) fun _ _ s _ =>
        .ite (fun _ => .bind (findBuff_avoids hbad dev block s) fun _ found s _ => ?_) fun _ =>
        .pure none
      cases found with
      | some _ => exact .pure none
      | none => exact .bind (reuse_avoids hbad b dev block s) fun _ _ _ _ => .pure _

theorem getBuff_avoids (dev block : ℕ) (s : Sys n) : Avoids bad (getBuff dev block) env s := by
  refine loop_avoids hbad (fun _ s => .bind (retainBuff_avoids hbad dev block s)
    fun _ found s _ => ?_) _ s
  cases found with
  | some b => exact .pure _
  | none =>
      refine .bind (newBuff_avoids hbad dev block s) fun _ made _ _ => ?_
      cases made with
      | some b => exact .pure _
      | none => exact .pure _

theorem putBuff_avoids (buf : Option (Fin n)) (s : Sys n) : Avoids bad (putBuff buf) env s := by
  cases buf with
  | none => exact .pure ()
  | some b =>
      exact .bind (waitOnBuff_avoids hbad b s) fun _ _ _ _ => .bind .read fun _ _ _ _ =>
        guard_avoids hbad (by simp [panicMessages]) fun _ => .update _

theorem readBuff_avoids (dev block : ℕ) (s : Sys n) : Avoids bad (readBuff dev block) env s := by
  refine .bind (getBuff_avoids hbad dev block s) fun _ b _ _ => .bind .read fun _ _ s _ =>
    .ite (fun _ => .pure _) fun _ => .bind (llRwBlock_avoids hbad .read b s) fun _ _ s _ =>
    .bind (waitOnBuff_avoids hbad b s) fun _ _ _ _ => .bind .read fun _ _ s _ =>
    .ite (fun _ => .pure _) fun _ => ?_
  exact .bind (putBuff_avoids hbad _ s) fun _ _ _ _ => .pure none

/-! ## Super blocks -/

omit hbad in
theorem unlockSuper_avoids (sb : Fin nrSuper) (s : Sys n) : Avoids bad (unlockSuper sb) env s :=
  .bind (.update _) fun _ _ _ _ => .bind (.update _) fun _ _ _ _ => .update _

theorem findSuper_avoids (dev : ℕ) (s : Sys n) : Avoids bad (findSuper dev) env s := by
  refine .ite (fun _ => .pure none) fun _ => loop_avoids hbad (fun i s => .bind_read ?_) _ s
  split
  · refine .ite (fun _ => .bind (waitOnSuper_avoids hbad _ s) fun _ _ s _ =>
      .bind .read fun _ _ _ _ => ?_)
      fun _ => .pure _
    exact .ite (fun _ => .pure _) fun _ => .pure _
  · exact .pure _

theorem markBit_avoids (bh : Fin n) (j : ℕ) {message : String} (hlisted : message ∈ panicMessages)
    (s : Sys n) : Avoids bad (markBit bh j message) env s :=
  .bind .read fun _ _ _ _ => guard_avoids hbad hlisted fun _ => .update _

omit hbad in
theorem unmarkBit_avoids (bh : Fin n) (j : ℕ) (s : Sys n) : Avoids bad (unmarkBit bh j) env s :=
  .bind .read fun _ _ _ _ => .update _

end Stops

end EgGS
