import EgGS.Block.Submit

/-!
# What the request layer does not touch

`Sys.rest` collects the part of the state that belongs to the buffer cache and
the file system.  No interrupt and no call of `ll_rw_block` changes it.  No
interrupt handler enables or disables interrupts.

Both facts go up through the same functions: the ports, a failed request, one pass of
`do_hd_request`, a handler, an interrupt.  Invariants of the buffer cache and of the file system
survive waiting by the first, and by the second a wait ends with the interrupt flag it set.
-/

namespace EgGS

open Lib Prog Relation

variable {n : ℕ} {env : Env n} {k : ℕ} {s s' : Sys n}

/-- The part of the state that belongs to the buffer cache and the file system. -/
structure Rest (n : ℕ) where
  links : Fin n → BufferLinks n
  hashTable : Fin nrHash → Option (Fin n)
  freeList : Fin n
  hdEnabled : Bool
  geo : Geometry
  superBlock : Fin nrSuper → SuperBlock n
  inode : Fin nrInode → MInode
  lastInode : Fin nrInode
  mem : ℕ → UInt8

/-- The part of `s` that the request layer leaves alone. -/
def Sys.rest (s : Sys n) : Rest n :=
  { links := s.links, hashTable := s.hashTable, freeList := s.freeList, hdEnabled := s.hdEnabled,
    geo := s.geo, superBlock := s.superBlock, inode := s.inode, lastInode := s.lastInode,
    mem := s.mem }

/-- Only header fields outside `BufferLinks` are assigned. -/
theorem Sys.rest_setBuf (s : Sys n) (b : Fin n) {f : BufferHead n → BufferHead n}
    (hf : ∀ bh, (f bh).toBufferLinks = bh.toBufferLinks) : (s.setBuf b f).rest = s.rest := by
  have hlinks : (s.setBuf b f).links = s.links := by
    funext c
    by_cases hc : c = b
    · subst hc; simpa [Sys.links] using hf _
    · simp [Sys.links, hc]
  simp only [Sys.rest, hlinks]
  rfl

theorem endRequest_rest (uptodate : Bool) (s : Sys n) : (endRequest uptodate s).rest = s.rest := by
  unfold endRequest
  split
  · rfl
  · split
    · rfl
    · rename_i r _ _ b _
      exact (Sys.rest_setBuf (s.setBuf b fun bh => { bh with bUptodate := uptodate }) b
        (f := fun bh => { bh with bLock := false }) fun _ => rfl).trans
        (Sys.rest_setBuf s b fun _ => rfl)

theorem portRead_rest (ptr : Option (BufPtr n)) (s : Sys n) : (portRead ptr s).rest = s.rest := by
  cases ptr with
  | none => rfl
  | some p =>
      exact Sys.rest_setBuf s p.bh (f := fun bh => { bh with
        bData := bh.bData.storeSector p.off (s.disk s.ctl.command.drive s.ctl.sector) }) fun _ =>
        rfl

theorem portWrite_rest (ptr : Option (BufPtr n)) (s : Sys n) : (portWrite ptr s).rest = s.rest := by
  cases ptr <;> rfl

theorem Failed.rest (h : Failed s s') : s'.rest = s.rest := by
  cases h with
  | null _ => rfl
  | retry _ _ _ => rfl
  | giveUp _ _ _ => exact endRequest_rest false _

theorem Pass.rest {x : Unit ⊕ Unit} (h : Pass env s x s') : s'.rest = s.rest := by
  cases h with
  | idle _ => rfl
  | reject _ _ => exact endRequest_rest false s
  | reset _ _ _ => rfl
  | recalibrate _ _ _ _ => rfl
  | read _ _ _ _ => rfl
  | write _ _ _ _ _ => exact portWrite_rest _ _
  | timeout _ _ _ _ _ => exact (failed_cases env _).rest

theorem Handled.rest {ok x : Bool} (h : Handled env ok s x s') : s'.rest = s.rest := by
  cases h with
  | unhandled _ => rfl
  | fail _ _ => exact (failed_cases env _).rest
  | recal _ _ => rfl
  | nullRead _ _ _ => rfl
  | nullWrite _ _ _ => rfl
  | readMore _ _ _ _ => exact portRead_rest _ _
  | readLast _ _ _ _ => exact (endRequest_rest true _).trans (portRead_rest _ _)
  | writeMore _ _ _ _ => exact portWrite_rest _ _
  | writeLast _ _ _ _ => exact endRequest_rest true _

theorem doHdRequest_rest (h : doHdRequest env k s = .ok () s') : s'.rest = s.rest :=
  doHdRequest_ensures (I := fun t => t.rest = s.rest) (fun hI hp => hp.rest.trans hI)
    (fun hI hp => hp.rest.trans hI) rfl h

theorem hdInterrupt_rest {i : Irq} (h : hdInterrupt i env k s = .ok () s') : s'.rest = s.rest :=
  hdInterrupt_ensures (I := fun t => t.rest = s.rest) (J := fun t => t.rest = s.rest)
    (fun hh => hh.rest) (fun hh => hh.rest) (fun hJ hp => hp.rest.trans hJ)
    (fun hJ hp => hp.rest.trans hJ) h

theorem Sys.offer_rest (s : Sys n) (r : Fin nrRequest) : (s.offer r).rest = s.rest := by
  unfold Sys.offer Sys.clean
  split
  · rfl
  · rename_i b _
    exact Sys.rest_setBuf s b (f := fun bh => { bh with bDirt := false }) fun _ => rfl

/-- **The request layer leaves the rest of the kernel alone.** -/
theorem Submit.rest {x y : Submission n × Sys n} (h : Submit env x y) : y.2.rest = x.2.rest := by
  cases h with
  | time _ _ => rfl
  | interrupt _ hint => exact hdInterrupt_rest hint
  | @lock s b _ _ _ =>
      exact Sys.rest_setBuf s b (f := fun bh => { bh with bLock := true }) fun _ => rfl
  | check _ _ _ => rfl
  | @giveUp s b _ =>
      exact Sys.rest_setBuf s b (f := fun bh => { bh with bLock := false }) fun _ => rfl
  | fill _ => rfl
  | start _ hdo => exact (doHdRequest_rest hdo).trans (Sys.offer_rest _ _)
  | queue _ _ => exact Sys.offer_rest _ _

theorem Submits.rest {x y : Submission n × Sys n} (h : Submits env x y) : y.2.rest = x.2.rest := by
  induction h with
  | refl => rfl
  | tail _ hstep ih => exact hstep.rest.trans ih

/-! ## The interrupt flag in the driver -/

theorem endRequest_intr (uptodate : Bool) (s : Sys n) :
    (endRequest uptodate s).intr = s.intr := by
  unfold endRequest
  split
  · rfl
  · split <;> rfl

theorem portRead_intr (ptr : Option (BufPtr n)) (s : Sys n) : (portRead ptr s).intr = s.intr := by
  cases ptr <;> rfl

theorem portWrite_intr (ptr : Option (BufPtr n)) (s : Sys n) :
    (portWrite ptr s).intr = s.intr := by
  cases ptr <;> rfl

theorem Failed.intr (h : Failed s s') : s'.intr = s.intr := by
  cases h with
  | null _ => rfl
  | retry _ _ _ => rfl
  | giveUp _ _ _ => exact endRequest_intr false _

theorem Pass.intr {x : Unit ⊕ Unit} (h : Pass env s x s') : s'.intr = s.intr := by
  cases h with
  | idle _ => rfl
  | reject _ _ => exact endRequest_intr false s
  | reset _ _ _ => rfl
  | recalibrate _ _ _ _ => rfl
  | read _ _ _ _ => rfl
  | write _ _ _ _ _ => exact portWrite_intr _ _
  | timeout _ _ _ _ _ => exact (failed_cases env _).intr

theorem Handled.intr {ok x : Bool} (h : Handled env ok s x s') : s'.intr = s.intr := by
  cases h with
  | unhandled _ => rfl
  | fail _ _ => exact (failed_cases env _).intr
  | recal _ _ => rfl
  | nullRead _ _ _ => rfl
  | nullWrite _ _ _ => rfl
  | readMore _ _ _ _ => exact portRead_intr _ _
  | readLast _ _ _ _ => exact (endRequest_intr true _).trans (portRead_intr _ _)
  | writeMore _ _ _ _ => exact portWrite_intr _ _
  | writeLast _ _ _ _ => exact endRequest_intr true _

theorem doHdRequest_intr : Keeps Sys.intr env (doHdRequest : P n Unit) := fun _ s _ _ h =>
  doHdRequest_ensures (I := fun t => t.intr = s.intr) (fun hI hp => hp.intr.trans hI)
    (fun hI hp => hp.intr.trans hI) rfl h

theorem hdInterrupt_intr (i : Irq) : Keeps Sys.intr env (hdInterrupt i : P n Unit) :=
    fun _ s _ _ h =>
  hdInterrupt_ensures (I := fun t => t.intr = s.intr) (J := fun t => t.intr = s.intr)
    (fun hh => hh.intr) (fun hh => hh.intr) (fun hJ hp => hp.intr.trans hJ)
    (fun hJ hp => hp.intr.trans hJ) h

theorem interrupts_intr (j : ℕ) : Keeps Sys.intr env (interrupts j : P n Unit) := by
  induction j with
  | zero => exact .pure ()
  | succ j ih =>
      refine .bind (.ask _) fun i => ?_
      cases i with
      | none => exact .pure ()
      | some i => exact .bind (hdInterrupt_intr i) fun _ => .bind (.update fun _ => rfl) fun _ => ih

/-- Time passes, and interrupts are as before. -/
theorem poll_intr : Keeps Sys.intr env (poll : P n Unit) :=
  .bind (.update fun _ => rfl) fun _ => .bind .read fun _ =>
    .ite _ (fun _ => .bind (.ask _) fun _ => interrupts_intr _) fun _ => .pure ()

end EgGS
