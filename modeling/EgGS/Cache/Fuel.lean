import EgGS.Lib.Stable
import EgGS.Model.Buffer

/-!
# The fuel of the block layer

The loops of `hd.c`, `blk_main.c` and `buffer.c` return the same with more fuel, one lemma
for each function.
-/

namespace EgGS

open Lib Prog

variable {n : ℕ}

/-! ## `hd.c` -/

theorem hdOut_stable (c : Command) (h : Handler) : Stable (hdOut c h : P n Unit) :=
  .ite (fun _ => .halt _) fun _ => (Stable.ask _).bind fun _ =>
    .ite (fun _ => .update _) fun _ => .halt _

theorem failed_stable : Stable (failed : P n Unit) := (Stable.ask _).bind fun _ => .update _

theorem hdRequestPass_stable : Stable (hdRequestPass : P n (Unit ⊕ Unit)) := by
  refine .bind_read fun s => ?_
  cases s.current with
  | none => exact .pure _
  | some r =>
      refine .ite (fun _ => .halt _) fun _ => .ite (fun _ => .halt _) fun _ =>
        .ite (fun _ => .bind_update (.pure _)) fun _ => .ite (fun _ => .halt _) fun _ => ?_
      refine .ite (fun _ => .bind_update ?_) fun _ => .ite (fun _ => .bind_update ?_) fun _ => ?_
      · exact (Stable.bind_read fun _ => hdOut_stable _ _).bind fun _ => .pure _
      · exact (hdOut_stable _ _).bind fun _ => .pure _
      refine .ite (fun _ => (hdOut_stable _ _).bind fun _ => (Stable.ask _).bind fun _ => ?_)
        fun _ => .ite (fun _ => (hdOut_stable _ _).bind fun _ => .pure _) fun _ => .halt _
      exact .ite (fun _ => .bind_update (.pure _)) fun _ =>
        .bind_update (failed_stable.bind fun _ => .pure _)

theorem doHdRequest_stable : Stable (doHdRequest : P n Unit) :=
  .iterate (fun _ => hdRequestPass_stable) ()

theorem readIntr_stable (ok : Bool) : Stable (readIntr ok : P n Unit) := by
  refine .ite (fun _ => .bind_read fun s => ?_) fun _ =>
    failed_stable.bind fun _ => doHdRequest_stable
  cases s.current with
  | none => exact .update _
  | some r =>
      exact .bind_update (.bind_update (.ite (fun _ => .update _) fun _ =>
        .bind_update doHdRequest_stable))

theorem writeIntr_stable (ok : Bool) : Stable (writeIntr ok : P n Unit) := by
  refine .ite (fun _ => .bind_read fun s => ?_) fun _ =>
    failed_stable.bind fun _ => doHdRequest_stable
  cases s.current with
  | none => exact .update _
  | some r =>
      exact .bind_update (.ite (fun _ => .bind_update (.bind_update (.update _))) fun _ =>
        .bind_update doHdRequest_stable)

theorem recalIntr_stable (ok : Bool) : Stable (recalIntr ok : P n Unit) :=
  .ite (fun _ => doHdRequest_stable) fun _ => failed_stable.bind fun _ => doHdRequest_stable

theorem hdInterrupt_stable (i : Irq) : Stable (hdInterrupt i : P n Unit) := by
  refine .bind_update (.bind_read fun s => ?_)
  cases s.handler with
  | none => exact .pure ()
  | readIntr => exact readIntr_stable _
  | writeIntr => exact writeIntr_stable _
  | recalIntr => exact recalIntr_stable _

theorem interrupts_stable : ∀ j, Stable (interrupts j : P n Unit)
  | 0 => .pure ()
  | j + 1 => by
      refine (Stable.ask _).bind fun i => ?_
      cases i with
      | none => exact .pure ()
      | some i => exact (hdInterrupt_stable i).bind fun _ => .bind_update (interrupts_stable j)

theorem poll_stable : Stable (poll : P n Unit) :=
  .bind_update (.bind_read fun _ =>
    .ite (fun _ => (Stable.ask _).bind fun j => interrupts_stable j) fun _ => .pure ())

/-! ## `blk_main.c` -/

theorem waitOnBuff_stable (b : Fin n) : Stable (waitOnBuff b) := by
  refine .bind_update (.iterate (fun _ => .bind_read fun _ => ?_) ())
  exact .ite (fun _ => .bind_update (poll_stable.bind fun _ => .pure _)) fun _ => .pure _

theorem lockBuff_stable (b : Fin n) : Stable (lockBuff b) :=
  .bind_update (.bind_update (.update _))

theorem elevator_stable (req head : Fin nrRequest) :
    Stable (elevator req head : P n (Fin nrRequest)) := by
  refine .iterate (fun tmp => .bind_read fun s => ?_) head
  cases (s.request tmp).next with
  | none => exact .pure _
  | some nxt => exact .ite (fun _ => .pure _) fun _ => .pure _

theorem addRequest_stable (req : Fin nrRequest) : Stable (addRequest req : P n Unit) := by
  refine .bind_update (.bind_update (.bind_update (.bind_read fun s => ?_)))
  cases s.current with
  | none => exact .bind_update (.bind_update doHdRequest_stable)
  | some head => exact (elevator_stable req head).bind fun _ => .bind_update (.update _)

theorem findSlot_stable (rw : Rw) (ahead : Bool) :
    Stable (findSlot rw ahead : P n (Option (Fin nrRequest))) := by
  refine .iterate (fun _ => .bind_read fun s => ?_) ()
  cases freeSlot s rw with
  | some r => exact .pure _
  | none => exact .ite (fun _ => .pure _) fun _ => poll_stable.bind fun _ => .pure _

theorem llRwBlock_stable (rw : Rw) (b : Fin n) : Stable (llRwBlock rw b) := by
  refine .bind_read fun _ => .ite (fun _ => .pure ()) fun _ => .ite (fun _ => .pure ()) fun _ => ?_
  refine (lockBuff_stable b).bind fun _ => poll_stable.bind fun _ => .bind_read fun _ =>
    .ite (fun _ => .update _) fun _ => (findSlot_stable _ _).bind fun slot => ?_
  cases slot with
  | none => exact .update _
  | some r => exact .bind_update (poll_stable.bind fun _ => addRequest_stable r)

/-! ## `buffer.c` -/

theorem findBuff_stable (dev block : ℕ) : Stable (findBuff dev block : P n (Option (Fin n))) := by
  refine .bind_read fun s => .iterate (fun tmp => .bind_read fun s => ?_) _
  cases tmp with
  | none => exact .pure _
  | some b => exact .ite (fun _ => .pure _) fun _ => .pure _

theorem retainBuff_stable (dev block : ℕ) :
    Stable (retainBuff dev block : P n (Option (Fin n))) := by
  refine .iterate (fun _ => poll_stable.bind fun _ => (findBuff_stable dev block).bind fun b => ?_)
    ()
  cases b with
  | none => exact .pure _
  | some b =>
      exact (waitOnBuff_stable b).bind fun _ => .bind_read fun _ =>
        .ite (fun _ => .pure _) fun _ => .bind_update (.pure _)

theorem syncDev_stable (dev : ℕ) : Stable (syncDev dev : P n Unit) := by
  refine .forEach (fun b => poll_stable.bind fun _ => .bind_read fun _ => ?_) _
  exact .ite (fun _ => .pure ()) fun _ => (waitOnBuff_stable b).bind fun _ => .bind_read fun _ =>
    .ite (fun _ => llRwBlock_stable .write b) fun _ => .pure ()

theorem scanFree_stable : Stable (scanFree : P n (Option (Fin n))) := by
  refine .bind_read fun s => .iterate (fun x => ?_) _
  obtain ⟨tmp, best⟩ := x
  refine .bind_read fun s => .ite (fun _ => .pure _) fun _ => ?_
  cases (s.buf tmp).bNextFree with
  | none => exact .halt _
  | some next => exact .ite (fun _ => .pure _) fun _ => .pure _

theorem cleanVictim_stable (b : Fin n) : Stable (cleanVictim b) := by
  refine .iterate (fun _ => .bind_read fun s => .ite (fun _ => ?_) fun _ => .pure _) ()
  exact (syncDev_stable _).bind fun _ => (waitOnBuff_stable b).bind fun _ => .bind_read fun _ =>
    .ite (fun _ => .pure _) fun _ => .pure _

theorem removeFromQueues_stable (b : Fin n) : Stable (removeFromQueues b) := by
  refine .bind_update (.bind_read fun s => ?_)
  split
  · exact .update _
  · exact .halt _

theorem reuse_stable (b : Fin n) (dev block : ℕ) : Stable (reuse b dev block) :=
  .bind_update ((removeFromQueues_stable b).bind fun _ => .bind_update (.update _))

theorem newBuff_stable (dev block : ℕ) : Stable (newBuff dev block : P n (Option (Fin n))) := by
  refine poll_stable.bind fun _ => scanFree_stable.bind fun victim => ?_
  cases victim with
  | none => exact .pure _
  | some b =>
      refine (waitOnBuff_stable b).bind fun _ => .bind_read fun _ => .ite
        (fun _ => .pure _) fun _ =>
        (cleanVictim_stable b).bind fun _ => .ite (fun _ => ?_) fun _ => .pure _
      refine (findBuff_stable dev block).bind fun found => ?_
      cases found with
      | none => exact (reuse_stable b dev block).bind fun _ => .pure _
      | some c => exact .pure _

theorem getBuff_stable (dev block : ℕ) : Stable (getBuff dev block : P n (Fin n)) := by
  refine .iterate (fun _ => (retainBuff_stable dev block).bind fun found => ?_) ()
  cases found with
  | some b => exact .pure _
  | none =>
      refine (newBuff_stable dev block).bind fun made => ?_
      cases made with
      | some b => exact .pure _
      | none => exact .pure _

theorem putBuff_stable (b : Option (Fin n)) : Stable (putBuff b) := by
  cases b with
  | none => exact .pure ()
  | some b =>
      exact (waitOnBuff_stable b).bind fun _ => .bind_read fun _ =>
        .ite (fun _ => .halt _) fun _ => .update _

theorem invalidateBuff_stable (dev block : ℕ) : Stable (invalidateBuff dev block : P n Unit) := by
  refine (retainBuff_stable dev block).bind fun found => ?_
  cases found with
  | none => exact .pure ()
  | some b =>
      exact .bind_read fun _ => .ite (fun _ => .pure ()) fun _ =>
        .bind_update (putBuff_stable (some b))

theorem readBuff_stable (dev block : ℕ) : Stable (readBuff dev block : P n (Option (Fin n))) := by
  refine (getBuff_stable dev block).bind fun b => .bind_read fun _ => .ite
    (fun _ => .pure _) fun _ => ?_
  exact (llRwBlock_stable .read b).bind fun _ => (waitOnBuff_stable b).bind fun _ =>
    .bind_read fun _ => .ite (fun _ => .pure _) fun _ => (putBuff_stable (some b)).bind fun _ =>
    .pure _

end EgGS
