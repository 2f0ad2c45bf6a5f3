import EgGS.Block.Frame
import EgGS.Block.Transfer

/-!
# What the driver does to buffers and disk

Seen from outside, the driver does four things: nothing, a data phase into the
buffer of a queued read, a data phase from the buffer of a queued write to the
sectors of its block, and the end of a request.  `Effect` lists them, with what
the transfer invariant says at the end of a request: a buffer that is up to date
and not dirty agrees with its block on disk.

Every pass of `do_hd_request` and every interrupt is a path of effects.
-/

namespace EgGS

open Lib Prog Relation

variable {n : ℕ} {env : Env n} {k : ℕ} {s s' : Sys n}
variable {sub : Submission n} {r : Fin nrRequest} {b : Fin n}

/-! ## Effects -/

/-- A slot in use holds a request `cmd` for the buffer `b`. -/
def Sys.Queued (s : Sys n) (b : Fin n) (cmd : Rw) : Prop :=
  ∃ r, 0 ≤ (s.request r).dev ∧ (s.request r).bh = some b ∧ (s.request r).cmd = cmd

/-- An event that does not end a request, and stays inside its block. -/
def Event.Minor : Event n → Prop
  | .nullAccess => True
  | .command _ => True
  | .dataPhase p => p.off + 512 ≤ 1024
  | _ => False

/-- Only minor events were recorded. -/
def MinorLog (s s' : Sys n) : Prop := ∃ es, s'.log = es ++ s.log ∧ ∀ e ∈ es, e.Minor

/-- What the driver does to buffers and disk. -/
inductive Effect (sub : Submission n) (s s' : Sys n) : Prop
  | none : s'.rest = s.rest → s'.buf = s.buf → s'.disk = s.disk →
      (∀ c cmd, s'.Queued c cmd ↔ s.Queued c cmd) → MinorLog s s' → Effect sub s s'
  | load {b : Fin n} : s'.rest = s.rest → s.Queued b .read → sub.buf ≠ some b →
      (∀ c, c ≠ b → s'.buf c = s.buf c) →
      s'.buf b = { s.buf b with bData := (s'.buf b).bData } → s'.disk = s.disk →
      (∀ c cmd, s'.Queued c cmd ↔ s.Queued c cmd) → MinorLog s s' → Effect sub s s'
  | save {b : Fin n} : s'.rest = s.rest → s.Queued b .write → sub.buf ≠ some b → s'.buf = s.buf →
      (∀ drive lba, s'.disk drive lba ≠ s.disk drive lba → drive = minor (s.buf b).bDev / 5 ∧
        ∃ j < 2, lba = s.geo.lba (s.buf b).bDev (2 * (s.buf b).bBlocknr + j)) →
      (∀ c cmd, s'.Queued c cmd ↔ s.Queued c cmd) → MinorLog s s' → Effect sub s s'
  | done {b : Fin n} {cmd : Rw} {ok : Bool} : s'.rest = s.rest → s.Queued b cmd →
      sub.buf ≠ some b → cmd = .read ∨ cmd = .write →
      s'.buf = Function.update s.buf b { s.buf b with bUptodate := ok, bLock := false } →
      s'.disk = s.disk → (∀ c cmd', s'.Queued c cmd' ↔ s.Queued c cmd' ∧ c ≠ b) →
      (ok = true → (s.buf b).bDirt = false →
        (s.buf b).bData = s.diskBlock (s.buf b).bDev (s.buf b).bBlocknr) →
      s'.log = .ended b cmd ok (s.buf b).bData (s.diskBlock (s.buf b).bDev (s.buf b).bBlocknr) ::
        s.log → Effect sub s s'

/-- A path of effects. -/
abbrev Effects (sub : Submission n) : Sys n → Sys n → Prop := ReflTransGen (Effect sub)

theorem MinorLog.refl (hlog : s'.log = s.log) : MinorLog s s' := ⟨[], hlog, by simp⟩

theorem MinorLog.one {e : Event n} (hlog : s'.log = e :: s.log) (he : e.Minor) : MinorLog s s' :=
  ⟨[e], hlog, by simpa using he⟩

theorem Sys.queued_congr (hreq : s'.request = s.request) (c : Fin n) (cmd : Rw) :
    s'.Queued c cmd ↔ s.Queued c cmd := by
  rw [Sys.Queued, Sys.Queued, hreq]

theorem Effect.of_same (hrest : s'.rest = s.rest) (hbuf : s'.buf = s.buf) (hdisk : s'.disk = s.disk)
    (hreq : s'.request = s.request) (hlog : MinorLog s s') : Effect sub s s' :=
  .none hrest hbuf hdisk (Sys.queued_congr hreq) hlog

/-! ## The request in service -/

/-- The request in service is in slot `r`, for the buffer `b` of no other request. -/
structure Head (sub : Submission n) (s : Sys n) (r : Fin nrRequest) (b : Fin n) : Prop where
  current : s.current = some r
  used : 0 ≤ (s.request r).dev
  bh : (s.request r).bh = some b
  cmd : (s.request r).cmd = .read ∨ (s.request r).cmd = .write
  apart : sub.buf ≠ some b
  own : ∀ r', 0 ≤ (s.request r').dev → (s.request r').bh = some b → r' = r

theorem Pool.head {q : List (Fin nrRequest)} (h : Pool sub s (r :: q)) (hb : Good s r b) :
    Head sub s r b where
  current := h.chain.1
  used := (h.slots r).mpr (.inl (List.mem_cons_self ..))
  bh := hb.bh
  cmd := hb.cmd
  apart heq := h.apart r (List.mem_cons_self ..) (hb.bh.trans heq.symm)
  own r' hused hbh := by
    rcases (h.slots r').mp hused with hr' | hr'
    · exact h.own r' hr' r (List.mem_cons_self ..) (hbh.trans hb.bh.symm)
    · have hbuf := (h.slotBuf r' hr').1
      exact absurd (hb.bh.trans (hbh.symm.trans hbuf)) (h.apart r (List.mem_cons_self ..))

namespace Head

theorem congr (h : Head sub s r b) (hreq : s'.request = s.request) (hcur : s'.current = s.current) :
    Head sub s' r b :=
  ⟨hcur.trans h.current, hreq ▸ h.used, hreq ▸ h.bh, hreq ▸ h.cmd, h.apart, hreq ▸ h.own⟩

theorem queued (h : Head sub s r b) : s.Queued b (s.request r).cmd := ⟨r, h.used, h.bh, rfl⟩

section Change

variable {f : Request n → Request n} (hdev : (f (s.request r)).dev = (s.request r).dev)
  (hbh : (f (s.request r)).bh = (s.request r).bh)
  (hcmd : (f (s.request r)).cmd = (s.request r).cmd)

include hdev hbh hcmd

/-- The request in service may change, but not its device, its buffer and its command. -/
theorem change_queued (c : Fin n) (cmd : Rw) :
    (s.setRequest r f).Queued c cmd ↔ s.Queued c cmd := by
  refine exists_congr fun r' => ?_
  by_cases hr : r' = r
  · subst hr; simp [hdev, hbh, hcmd]
  · simp [hr]

theorem change (h : Head sub s r b) : Head sub (s.setRequest r f) r b := by
  have hfield : ∀ r', ((s.setRequest r f).request r').dev = (s.request r').dev ∧
      ((s.setRequest r f).request r').bh = (s.request r').bh ∧
      ((s.setRequest r f).request r').cmd = (s.request r').cmd := by
    intro r'
    by_cases hr : r' = r
    · subst hr; simp [hdev, hbh, hcmd]
    · simp [hr]
  refine ⟨h.current, ?_, ?_, ?_, h.apart, fun r' => ?_⟩
  · rw [(hfield r).1]; exact h.used
  · rw [(hfield r).2.1]; exact h.bh
  · rw [(hfield r).2.2]; exact h.cmd
  · rw [(hfield r').1, (hfield r').2.1]; exact h.own r'

theorem change_effect : Effect sub s (s.setRequest r f) :=
  .none rfl rfl rfl (change_queued hdev hbh hcmd) (.refl rfl)

end Change

theorem load_effect (h : Head sub s r b) (hread : (s.request r).cmd = .read) {off : ℕ}
    (hoff : off + 512 ≤ 1024) : Effect sub s (portRead (some ⟨b, off⟩) s) := by
  refine .load (portRead_rest _ s) (hread ▸ h.queued) h.apart (fun c hc => ?_)
    (portRead_head _ s b) rfl
    (Sys.queued_congr rfl) (.one rfl hoff)
  simp [portRead, hc]

theorem save_effect (h : Head sub s r b) (hwrite : (s.request r).cmd = .write) (off : ℕ) {j : ℕ}
    (hoff : off + 512 ≤ 1024) (hj : j < 2) (hat : s.At b j) :
    Effect sub s (portWrite (some ⟨b, off⟩) s) := by
  refine .save (portWrite_rest _ s) (hwrite ▸ h.queued) h.apart rfl (fun drive lba hne => ?_)
    (Sys.queued_congr rfl)
    (.one rfl hoff)
  have hdrive : drive = s.ctl.command.drive := by
    by_contra hd
    exact hne (by simp [portWrite, hd])
  have hlba : lba = s.ctl.sector := by
    by_contra hl
    exact hne (by simp [portWrite, hdrive, hl])
  exact ⟨hdrive.trans hat.drive, j, hj, hlba.trans hat.sector⟩

theorem done_effect (h : Head sub s r b) (ok : Bool)
    (hsame : ok = true → (s.buf b).bDirt = false →
      (s.buf b).bData = s.diskBlock (s.buf b).bDev (s.buf b).bBlocknr) :
    Effect sub s (endRequest ok s) := by
  have hend := endRequest_eq ok h.current h.bh
  refine .done (endRequest_rest ok s) h.queued h.apart h.cmd (by rw [hend]; rfl)
    (by rw [hend]; rfl) (fun c cmd => ?_)
    hsame (by rw [hend]; rfl)
  have hother : ∀ r', r' ≠ r → (endRequest ok s).request r' = s.request r' := by
    intro r' hr
    rw [hend]
    simp [hr]
  constructor
  · rintro ⟨r', hused, hbh, hcmd⟩
    have hr : r' ≠ r := by
      rintro rfl
      rw [hend] at hused
      exact absurd hused (by simp)
    rw [hother r' hr] at hused hbh hcmd
    refine ⟨⟨r', hused, hbh, hcmd⟩, ?_⟩
    rintro rfl
    exact hr (h.own r' hused hbh)
  · rintro ⟨⟨r', hused, hbh, hcmd⟩, hc⟩
    have hr : r' ≠ r := by
      rintro rfl
      exact hc (Option.some.inj (hbh.symm.trans h.bh))
    exact ⟨r', by rwa [hother r' hr], by rwa [hother r' hr], by rwa [hother r' hr]⟩

/-- `read_intr` takes a sector. -/
theorem readSector_effects (h : Head sub s r b) (hread : (s.request r).cmd = .read) {off : ℕ}
    (hptr : (s.request r).buffer = some ⟨b, off⟩) (hoff : off + 512 ≤ 1024) :
    Effects sub s (readSector r s) ∧ Head sub (readSector r s) r b := by
  have hload := h.load_effect hread hoff
  rw [← hptr] at hload
  have hhead : Head sub (portRead (s.request r).buffer s) r b :=
    h.congr (portRead_request _ _) (portRead_current _ _)
  exact ⟨.head hload (.single (change_effect (r := r)
    (f := fun req => { req.advance with errors := 0, nrSectors := oneLess req.nrSectors })
    rfl rfl rfl)), hhead.change rfl rfl rfl⟩

/-- `write_intr` counts a sector. -/
theorem countSector_effect (h : Head sub s r b) :
    Effect sub s (countSector r s) ∧ Head sub (countSector r s) r b :=
  ⟨change_effect (r := r) (f := fun req => { req with nrSectors := oneLess req.nrSectors })
    rfl rfl rfl, h.change rfl rfl rfl⟩

end Head

/-! ## Passes and interrupts as paths of effects -/

theorem Failed.effects {q : List (Fin nrRequest)} (h : Failed s s') (hq : Pool sub s q) :
    Effects sub s s' := by
  cases h with
  | @null reset j hcur =>
      refine .single (.of_same rfl rfl rfl rfl ⟨List.replicate (j + 1) .nullAccess, rfl, ?_⟩)
      intro e he
      rw [List.eq_of_mem_replicate he]
      trivial
  | @retry r reset hcur _ _ =>
      refine .head (Head.change_effect (r := r)
        (f := fun req => { req with errors := req.errors + 1 })
        rfl rfl rfl) (.single (.of_same rfl rfl rfl rfl (.refl rfl)))
  | @giveUp r reset j hcur _ _ =>
      obtain ⟨q, rfl⟩ := hq.eq_cons hcur
      obtain ⟨b, hb⟩ := hq.goodMem (List.mem_cons_self ..)
      have hhead : Head sub (addError r s) r b := (hq.head hb).change rfl rfl rfl
      refine .head (Head.change_effect (r := r)
        (f := fun req => { req with errors := req.errors + 1 })
        rfl rfl rfl) (.head (hhead.done_effect false (by simp)) (.single ?_))
      refine .of_same rfl rfl rfl rfl ⟨List.replicate j .nullAccess, rfl, ?_⟩
      intro e he
      rw [List.eq_of_mem_replicate he]
      trivial

theorem issue_effect (s : Sys n) (c : Command) (handler : Handler) :
    Effect sub s (s.issue c handler) :=
  .of_same rfl rfl rfl rfl (.one rfl trivial)

/-- The first data phase of a `WRITE`. -/
theorem Sent.effect (h : Sent sub s r b) : Effect sub s (portWrite (s.request r).buffer s) := by
  obtain ⟨q, hq⟩ := h.pooled
  obtain ⟨q, rfl⟩ := hq.eq_cons h.current
  have hdone : s.done r < 2 := by
    rcases h.good.left with hleft | hleft <;> simp [Sys.done, hleft]
  rw [h.good.buffer_done]
  exact (hq.head h.good).save_effect h.cmd _ (by omega) hdone h.place

theorem Between.effects {x : Unit ⊕ Unit} (h : Between sub s) (hp : Pass env s x s') :
    Effects sub s s' := by
  obtain ⟨q, hq⟩ := h.pooled
  cases hp with
  | idle _ => exact .refl
  | reject hcur _ =>
      obtain ⟨q, rfl⟩ := hq.eq_cons hcur
      obtain ⟨b, hb⟩ := hq.goodMem (List.mem_cons_self ..)
      exact .single ((hq.head hb).done_effect false (by simp))
  | @reset _ c _ _ _ =>
      have hflags : Effect sub s { s with reset := false, recalibrate := true } :=
        .of_same rfl rfl rfl rfl (.refl rfl)
      exact .head hflags (.single (issue_effect _ c .recalIntr))
  | @recalibrate _ c _ _ _ _ =>
      have hflags : Effect sub s { s with recalibrate := false } :=
        .of_same rfl rfl rfl rfl (.refl rfl)
      exact .head hflags (.single (issue_effect _ c .recalIntr))
  | read _ _ _ _ => exact .single (issue_effect _ _ _)
  | write served _ _ hwrite _ =>
      obtain ⟨b, hsent⟩ := h.sent served hwrite
      exact .head (issue_effect _ _ _) (.single hsent.effect)
  | @timeout r served _ _ _ _ =>
      obtain ⟨q', hq'⟩ := (h.drop (s.transferCommand r .write) .writeIntr).pooled
      have hfailed := failed_cases env (s.issue (s.transferCommand r .write) .writeIntr).drop
      have hdrop : Effect sub (s.issue (s.transferCommand r .write) .writeIntr)
          (s.issue (s.transferCommand r .write) .writeIntr).drop :=
        .of_same rfl rfl rfl rfl (.refl rfl)
      exact .head (issue_effect s _ _) (.head hdrop (hfailed.effects hq'))

theorem answer_effect (s : Sys n) (ok : Bool) : Effect sub s (s.answer ok) :=
  .of_same rfl rfl rfl rfl (.refl rfl)

/-- The last sector of a read: afterwards the buffer agrees with the disk. -/
theorem readLast_same (hptr : (s.request r).buffer = some ⟨b, 512 * 1⟩) (hat : s.At b 1)
    (hhalf : s.sector b 0 = (s.buf b).bData.sectorAt 0) :
    ((readSector r s).buf b).bData = (readSector r s).diskBlock
      ((readSector r s).buf b).bDev ((readSector r s).buf b).bBlocknr := by
  rw [Sys.diskBlock_eq, readSector_sector, readSector_sector, hhalf,
    ← readSector_data_zero (r := r) hptr, ← readSector_data hptr hat (by decide), Nat.mul_one,
    Block.join_sectorAt]

/-- The last sector of a write: the disk agrees with the buffer. -/
theorem writeLast_same (hhalf : s.sector b 0 = (s.buf b).bData.sectorAt 0)
    (hsame : s.sector b 1 = (s.buf b).bData.sectorAt (512 * 1)) :
    (s.buf b).bData = s.diskBlock (s.buf b).bDev (s.buf b).bBlocknr := by
  rw [Sys.diskBlock_eq, hhalf, hsame, Nat.mul_one, Block.join_sectorAt]

theorem Serving.effects {ok x : Bool} (h : Serving sub s) (hout : s.ctl.outstanding = true)
    (hh : Handled env ok s x s') : Effects sub s s' := by
  obtain ⟨r, b, q, hq, hb, hserve⟩ := h.command hout
  have hcur : s.current = some r := hq.chain.1
  have hhead : Head sub (s.answer ok) r b := (hq.head hb).congr rfl rfl
  have hdone : s.done r < 2 := by
    rcases hb.left with h | h <;> simp [Sys.done, h]
  refine .head (answer_effect s ok) ?_
  -- a failure, a recalibration and an interrupt without a request move no data
  cases hh with
  | unhandled _ => exact .refl
  | fail _ _ => exact (failed_cases env _).effects (hq.congr (.of_buf rfl rfl rfl))
  | recal _ _ => exact .refl
  | nullRead _ _ _ => exact .single (.of_same rfl rfl rfl rfl (.one rfl trivial))
  | nullWrite _ _ _ => exact .single (.of_same rfl rfl rfl rfl (.one rfl trivial))
  | @readMore r' _ hread hcur' _ =>
      obtain rfl : r = r' := Option.some.inj (hcur.symm.trans hcur')
      obtain ⟨-, hcmd, -, -⟩ := hserve.read_of hread
      have hread := (hhead.readSector_effects hcmd hb.buffer_done (by omega)).1
      have hinstall : Effect sub (readSector r (s.answer ok))
          { readSector r (s.answer ok) with handler := .readIntr } :=
        .of_same rfl rfl rfl rfl (.refl rfl)
      exact hread.tail hinstall
  | @readLast r' _ hread hcur' hlast =>
      obtain rfl : r = r' := Option.some.inj (hcur.symm.trans hcur')
      -- the second sector was read, so the buffer agrees with the disk if the first one did
      obtain ⟨-, hcmd, hat, -⟩ := hserve.read_of hread
      have hone := one_of_last hb hlast
      have hhalf := h.transfer.half r b hcur hb.bh hone
      have hptr := hb.buffer_done
      simp only [Sys.done, hone] at hat hptr
      obtain ⟨hread, hhead'⟩ := hhead.readSector_effects hcmd hptr (by decide)
      refine hread.tail (hhead'.done_effect true fun _ hclean => ?_)
      rw [readSector_head] at hclean
      exact readLast_same (s := s.answer ok) hptr ⟨hat.drive, hat.sector⟩ (hhalf hclean)
  | @writeMore r' _ hwrite hcur' hmore =>
      obtain rfl : r = r' := Option.some.inj (hcur.symm.trans hcur')
      obtain ⟨-, hcmd, hat, -, -⟩ := hserve.write_of hwrite
      have hptr := hb.buffer_done
      simp only [Sys.done, two_of_more hb hmore] at hat hptr
      -- first the count, then the next sector goes out
      obtain ⟨hcount, hhead'⟩ := hhead.countSector_effect
      have hcmd' : ((countSector r (s.answer ok)).request r).cmd = .write := by
        simpa [countSector] using hcmd
      obtain ⟨t, ht⟩ : ∃ t : Sys n, t = { (countSector r (s.answer ok)).setRequest r
        Request.advance with handler := .writeIntr } := ⟨_, rfl⟩
      have hadvance : Effect sub (countSector r (s.answer ok)) t :=
        ht ▸ .none rfl rfl rfl (Head.change_queued (r := r) (f := Request.advance) rfl rfl rfl)
          (.refl rfl)
      have hhead₂ : Head sub t r b :=
        ht ▸ (hhead'.change (f := Request.advance) rfl rfl rfl).congr rfl rfl
      have hptr' : (t.request r).buffer = some ⟨b, 512⟩ := by
        simp [ht, countSector, Request.advance, hptr]
      have hat' : t.At b 1 := ht ▸ ⟨hat.drive, hat.sector⟩
      have hsave := hhead₂.save_effect (by simp [ht, hcmd', Request.advance]) 512
        (by decide) (by decide) hat'
      rw [← hptr', ht] at hsave
      exact .head hcount (.head hadvance (.single (ht ▸ hsave)))
  | @writeLast r' _ hwrite hcur' hlast =>
      obtain rfl : r = r' := Option.some.inj (hcur.symm.trans hcur')
      obtain ⟨-, -, -, -, hsame⟩ := hserve.write_of hwrite
      have hone := one_of_last hb hlast
      have hhalf := h.transfer.half r b hcur hb.bh hone
      -- both sectors were written, from a buffer that nobody has changed since
      simp only [Sys.done, hone] at hsame
      obtain ⟨hcount, hhead'⟩ := hhead.countSector_effect
      exact .head hcount (.single (hhead'.done_effect true fun _ hclean =>
        writeLast_same (s := countSector r (s.answer ok)) (hhalf hclean) (hsame hclean)))

theorem Between.request_effects (h : Between sub s) (hdo : doHdRequest env k s = .ok () s') :
    Effects sub s s' :=
  doHdRequest_ensures (I := fun t => Between sub t ∧ Effects sub s t)
    (fun hI hp => ⟨hI.1.again hp, hI.2.trans (hI.1.effects hp)⟩)
    (fun hI hp => hI.2.trans (hI.1.effects hp)) ⟨h, .refl⟩ hdo

theorem Serving.interrupt_effects {i : Irq} (h : Serving sub s) (hout : s.ctl.outstanding = true)
    (hint : hdInterrupt i env k s = .ok () s') : Effects sub s s' :=
  hdInterrupt_ensures (J := fun t => Between sub t ∧ Effects sub s t)
    (fun hh => h.effects hout hh) (fun hh => ⟨h.called hout hh, h.effects hout hh⟩)
    (fun hJ hp => ⟨hJ.1.again hp, hJ.2.trans (hJ.1.effects hp)⟩)
    (fun hJ hp => hJ.2.trans (hJ.1.effects hp)) hint

/-! ## The request layer as moves -/

/-- The steps of the request layer, with the driver reduced to its effects. -/
inductive Move : Submission n × Sys n → Submission n × Sys n → Prop
  | effect {sub : Submission n} {s s' : Sys n} : Effect sub s s' → Move (sub, s) (sub, s')
  | lock {s : Sys n} {b : Fin n} : (s.buf b).bLock = false →
      Move (.idle, s) (⟨some b, none, none⟩, s.setBuf b fun bh => { bh with bLock := true })
  | check {s : Sys n} {b : Fin n} {rw : Rw} : rw = .read ∨ rw = .write →
      (rw = .write → (s.buf b).bDirt = true) → (rw = .read → (s.buf b).bUptodate = false) →
      Move (⟨some b, none, none⟩, s) (⟨some b, some rw, none⟩, s)
  | giveUp {s : Sys n} {b : Fin n} {cmd : Option Rw} : (∀ cmd, ¬ s.Queued b cmd) →
      Move (⟨some b, cmd, none⟩, s) (.idle, unlockBuff b s)
  | fill {s : Sys n} {b : Fin n} {rw : Rw} {r : Fin nrRequest} : (s.request r).dev < 0 →
      (∀ cmd, ¬ s.Queued b cmd) →
      Move (⟨some b, some rw, none⟩, s)
        (⟨some b, some rw, some r⟩, s.setRequest r fun _ => makeRequest s rw b)
  | offer {s s' : Sys n} {b : Fin n} {cmd : Rw} {r : Fin nrRequest} : s.Queued b cmd →
      s'.rest = s.rest → s'.disk = s.disk →
      s'.buf = Function.update s.buf b { s.buf b with bDirt := false } →
      (∀ c cmd', s'.Queued c cmd' ↔ s.Queued c cmd') → s'.log = .queued b cmd :: s.log →
      Move (⟨some b, some cmd, some r⟩, s) (.idle, s')

/-- A path of moves. -/
abbrev Moves : Submission n × Sys n → Submission n × Sys n → Prop := ReflTransGen Move

theorem Effects.moves (h : Effects sub s s') : Moves (sub, s) (sub, s') :=
  h.lift (fun t => (sub, t)) fun _ _ => .effect

theorem Sys.queued_of_next (hreq : ∀ x, ∃ next, s'.request x = { s.request x with next })
    (c : Fin n) (cmd : Rw) : s'.Queued c cmd ↔ s.Queued c cmd := by
  refine exists_congr fun x => ?_
  obtain ⟨next, heq⟩ := hreq x
  rw [heq]

theorem Sys.offer_next (s : Sys n) (r x : Fin nrRequest) :
    ∃ next, (s.offer r).request x = { s.request x with next } := by
  rw [Sys.offer_request]
  by_cases hx : x = r
  · subst hx
    exact ⟨none, by simp⟩
  · exact ⟨(s.request x).next, by simp [hx]⟩

theorem Sys.linkBehind_next (s : Sys n) (tmp req x : Fin nrRequest) :
    ∃ next, (s.linkBehind tmp req).request x = { s.request x with next } := by
  by_cases hx : x = tmp
  · subst hx
    by_cases hreq : x = req
    · subst hreq; exact ⟨some x, by simp [Sys.linkBehind]⟩
    · exact ⟨some req, by simp [Sys.linkBehind, hreq]⟩
  · by_cases hreq : x = req
    · subst hreq; exact ⟨(s.request tmp).next, by simp [Sys.linkBehind, hx]⟩
    · exact ⟨(s.request x).next, by simp [Sys.linkBehind, hx, hreq]⟩

/-- `add_request` takes the request over: its buffer is clean from now on. -/
theorem Pool.offer_move {q : List (Fin nrRequest)} {buf : Option (Fin n)} {cmd : Option Rw}
    (h : Pool ⟨buf, cmd, some r⟩ s q) {f : Sys n → Sys n} (hrest : ∀ t, (f t).rest = t.rest)
    (hdisk : ∀ t, (f t).disk = t.disk) (hbuf : ∀ t, (f t).buf = t.buf)
    (hreq : ∀ t x, ∃ next, (f t).request x = { t.request x with next })
    (hlog : ∀ t, (f t).log = t.log) :
    Move (⟨buf, cmd, some r⟩, s) (.idle, f (s.offer r)) := by
  obtain ⟨b, hb⟩ := h.good r (.inr rfl)
  obtain ⟨hbh, hcmd⟩ := h.slotBuf r rfl
  obtain rfl : some b = buf := hb.bh.symm.trans hbh
  obtain rfl : cmd = some (s.request r).cmd := hcmd
  have hqueued : s.Queued b (s.request r).cmd := ⟨r, (h.slots r).mpr (.inr rfl), hb.bh, rfl⟩
  have hclean : s.offer r = ((s.setRequest r fun req => { req with next := none }).setIntr false
      |>.setBuf b fun bh => { bh with bDirt := false }).note (.queued b (s.request r).cmd) := by
    simp [Sys.offer, Sys.clean, hb.bh]
  refine .offer hqueued ((hrest _).trans (s.offer_rest r)) ?_ ?_ (fun c cmd' => ?_) ?_
  · rw [hdisk, hclean]; rfl
  · rw [hbuf, hclean]; rfl
  · exact (Sys.queued_of_next (hreq _) c cmd').trans (Sys.queued_of_next (s.offer_next r) c cmd')
  · rw [hlog, hclean]; rfl

/-! ## The invariants along the request layer -/

/-- The buffer of a request that has no slot yet is on no request. -/
theorem Pooled.not_queued {buf : Fin n} {cmd : Option Rw} (h : Pooled ⟨some buf, cmd, none⟩ s)
    (cmd' : Rw) : ¬ s.Queued buf cmd' := by
  rintro ⟨r, hused, hbh, -⟩
  obtain ⟨q, hq⟩ := h
  rcases (hq.slots r).mp hused with hr | hr
  · exact hq.apart r hr hbh
  · exact absurd hr (by simp)

theorem Pooled.locked_head (h : Pooled sub s) (hcur : s.current = some r)
    (hbh : (s.request r).bh = some b) : (s.buf b).bLock = true ∧ sub.buf ≠ some b ∧
      sub.slot ≠ some r ∧ 0 ≤ (s.request r).dev := by
  obtain ⟨q, hq⟩ := h
  obtain ⟨q, rfl⟩ := hq.eq_cons hcur
  have hmem : r ∈ r :: q := List.mem_cons_self ..
  exact ⟨(hq.locked b).mpr (.inl ⟨r, hmem, hbh⟩), fun heq => hq.apart r hmem (hbh.trans heq.symm),
    hq.fresh r hmem, (hq.slots r).mpr (.inl hmem)⟩

/-- The first request of the queue, when `add_request` calls `do_hd_request`. -/
theorem Serving.started {buf : Option (Fin n)} {cmd : Option Rw}
    (h : Serving ⟨buf, cmd, some r⟩ s) (hcur : s.current = none) :
    Between .idle (((s.offer r).start r).setIntr true) := by
  obtain ⟨q, hq⟩ := h.pooled
  have hquiet : (((s.offer r).start r).setIntr true).ctl.outstanding = false := by
    have hctl : (((s.offer r).start r).setIntr true).ctl = s.ctl := by
      unfold Sys.offer Sys.clean
      split <;> rfl
    rw [hctl]
    exact h.transfer.idle hcur
  have hfresh : ∀ r', (((s.offer r).start r).setIntr true).current = some r' →
      ((((s.offer r).start r).setIntr true).request r').nrSectors = 2 := by
    intro r' hr'
    obtain rfl : r = r' := Option.some.inj hr'
    simpa [Sys.offer_request] using (hq.untouched r (.inr rfl)).2
  exact ⟨⟨_, hq.startQueue hcur⟩, .of_fresh hquiet hfresh, hquiet⟩

theorem Pooled.start_move {buf : Option (Fin n)} {cmd : Option Rw}
    (h : Pooled ⟨buf, cmd, some r⟩ s) :
    Move (⟨buf, cmd, some r⟩, s) (.idle, ((s.offer r).start r).setIntr true) := by
  obtain ⟨q, hq⟩ := h
  exact hq.offer_move (f := fun t => (t.start r).setIntr true) (fun _ => rfl) (fun _ => rfl)
    (fun _ => rfl) (fun t x => ⟨_, rfl⟩) fun _ => rfl

/-- A step of the request layer is at most one move of its own, and the driver may be at work
behind it. -/
theorem Serving.submit_move {x y : Submission n × Sys n} (henv : env.Answers)
    (h : Serving x.1 x.2) (hstep : Submit env x y) :
    ∃ t, ReflGen Move x (y.1, t) ∧ Effects y.1 t y.2 := by
  cases hstep with
  | time clock intr => exact ⟨_, .refl, .single (.of_same rfl rfl rfl rfl (.refl rfl))⟩
  | interrupt hirq hint => exact ⟨_, .refl, h.interrupt_effects (henv _ _ hirq) hint⟩
  | lock hlock _ _ => exact ⟨_, .single (.lock hlock), .refl⟩
  | check hrw hdirt hup => exact ⟨_, .single (.check hrw hdirt hup), .refl⟩
  | giveUp => exact ⟨_, .single (.giveUp h.pooled.not_queued), .refl⟩
  | fill hfree => exact ⟨_, .single (.fill (freeSlot_eq_some hfree).2 h.pooled.not_queued), .refl⟩
  | @start s s' buf cmd r k hcur hdo =>
      exact ⟨_, .single h.pooled.start_move, (h.started hcur).request_effects hdo⟩
  | @queue s buf cmd r head tmp e k hcur helev =>
      obtain ⟨q, hq⟩ := h.pooled
      have hmove : Move (⟨buf, cmd, some r⟩, s)
          (.idle, ((s.offer r).linkBehind tmp r).setIntr true) :=
        hq.offer_move (f := fun t => (t.linkBehind tmp r).setIntr true) (fun _ => rfl)
          (fun _ => rfl) (fun _ => rfl) (fun t x => t.linkBehind_next tmp r x) fun _ => rfl
      exact ⟨_, .single hmove, .refl⟩

/-- **Every step of the request layer keeps the invariants** and is a path of moves. -/
theorem Serving.submit {x y : Submission n × Sys n} (henv : env.Answers) (h : Serving x.1 x.2)
    (hstep : Submit env x y) : Serving y.1 y.2 ∧ Moves x y := by
  obtain ⟨t, hmove, heffects⟩ := h.submit_move henv hstep
  refine ⟨⟨h.pooled.submit hstep, ?_⟩, hmove.to_reflTransGen.trans heffects.moves⟩
  have hhead := fun r b => Pooled.locked_head (r := r) (b := b) h.pooled
  -- the request in service is not the one that is being submitted, so its transfer is untouched
  cases hstep with
  | time clock intr =>
      exact h.transfer.congr rfl rfl rfl rfl rfl (fun r _ => ⟨_, rfl⟩) fun _ _ _ _ => .of_eq rfl
  | interrupt hirq hint => exact (h.interrupt (henv _ _ hirq) hint).transfer
  | @lock s b hlock _ _ =>
      refine h.transfer.congr rfl rfl rfl rfl rfl (fun r _ => ⟨_, rfl⟩) fun r c hr hc => ?_
      have hne : c ≠ b := by
        rintro rfl
        exact absurd ((hhead r c hr hc).1.symm.trans hlock) (by decide)
      exact .of_eq (by simp [hne])
  | check _ _ _ => exact h.transfer
  | @giveUp s b cmd =>
      refine h.transfer.congr rfl rfl rfl rfl rfl (fun r _ => ⟨_, rfl⟩) fun r c hr hc => ?_
      have hne : c ≠ b := by
        rintro rfl
        exact (hhead r c hr hc).2.1 rfl
      exact .of_eq (by simp [unlockBuff, hne])
  | @fill s b rw r hfree =>
      have hdev := (freeSlot_eq_some hfree).2
      refine h.transfer.congr rfl rfl rfl rfl rfl (fun r' hr' => ?_) fun _ _ _ _ => .of_eq rfl
      have hne : r' ≠ r := by
        rintro rfl
        obtain ⟨q, hq⟩ := h.pooled
        obtain ⟨q, rfl⟩ := hq.eq_cons hr'
        have hused : 0 ≤ (s.request r').dev := (hq.slots r').mpr (.inl (List.mem_cons_self ..))
        omega
      exact ⟨(s.request r').next, by simp [hne]⟩
  | start hcur hdo => exact ((h.started hcur).request hdo).transfer
  | @queue s buf cmd r head tmp e k hcur helev =>
      -- linking changes the `next` of the other requests, and nothing that a transfer reads
      obtain ⟨q, hq⟩ := h.pooled
      refine h.transfer.congr ?_ ?_ ?_ ?_ ?_ (fun r' _ => ?_) fun r' c hr' hc => ?_
      · unfold Sys.linkBehind Sys.offer Sys.clean
        split <;> rfl
      · unfold Sys.linkBehind Sys.offer Sys.clean
        split <;> rfl
      · unfold Sys.linkBehind Sys.offer Sys.clean
        split <;> rfl
      · unfold Sys.linkBehind Sys.offer Sys.clean
        split <;> rfl
      · simp [Sys.linkBehind]
      · obtain ⟨next, hnext⟩ := (s.offer r).linkBehind_next tmp r r'
        obtain ⟨next', hnext'⟩ := s.offer_next r r'
        exact ⟨next, by rw [Sys.setIntr_request, hnext, hnext']⟩
      · have hbuf : (s.request r).bh ≠ some c := by
          rw [(hq.slotBuf r rfl).1]
          exact (hhead r' c hr' hc).2.1
        exact .of_eq (by simp [Sys.linkBehind, Sys.offer_head, hbuf])

theorem Serving.submits {x y : Submission n × Sys n} (henv : env.Answers) (h : Serving x.1 x.2)
    (hpath : Submits env x y) : Serving y.1 y.2 ∧ Moves x y := by
  induction hpath with
  | refl => exact ⟨h, .refl⟩
  | tail _ hstep ih =>
      obtain ⟨hserving, hmoves⟩ := ih.1.submit henv hstep
      exact ⟨hserving, ih.2.trans hmoves⟩

/-- While the kernel waits, only the driver is at work. -/
theorem Waits.effects (henv : env.Answers) (h : Serving sub s) (hpath : Waits env s s') :
    Serving sub s' ∧ Effects sub s s' := by
  induction hpath with
  | refl => exact ⟨h, .refl⟩
  | tail _ hwait ih =>
      obtain ⟨hserving, heffects⟩ := ih
      cases hwait with
      | time clock intr =>
          exact ⟨(hserving.submit henv (.time clock intr)).1,
            heffects.tail (.of_same rfl rfl rfl rfl (.refl rfl))⟩
      | interrupt hirq hint =>
          exact ⟨(hserving.submit henv (.interrupt hirq hint)).1,
            heffects.trans (hserving.interrupt_effects (henv _ _ hirq) hint)⟩

/-- The driver leaves a buffer alone for which there is no request. -/
theorem Effects.free (h : Effects sub s s') (hfree : ∀ cmd, ¬ s.Queued b cmd) :
    s'.buf b = s.buf b ∧ ∀ cmd, ¬ s'.Queued b cmd := by
  induction h with
  | refl => exact ⟨rfl, hfree⟩
  | tail _ heff ih =>
      obtain ⟨hbuf, hnone⟩ := ih
      cases heff with
      | none _ hsame _ hqueue _ =>
          exact ⟨(congrFun hsame b).trans hbuf, fun cmd hq => hnone cmd ((hqueue b cmd).mp hq)⟩
      | @load c _ hc _ hother _ _ hqueue _ =>
          have hbc : b ≠ c := by
            rintro rfl
            exact hnone .read hc
          exact ⟨(hother b hbc).trans hbuf, fun cmd hq => hnone cmd ((hqueue b cmd).mp hq)⟩
      | save _ _ _ hsame _ hqueue _ =>
          exact ⟨(congrFun hsame b).trans hbuf, fun cmd hq => hnone cmd ((hqueue b cmd).mp hq)⟩
      | @done c cmd _ _ hc _ _ hsame _ hqueue _ _ =>
          have hbc : b ≠ c := by
            rintro rfl
            exact hnone cmd hc
          refine ⟨?_, fun cmd' hq => hnone cmd' ((hqueue b cmd').mp hq).1⟩
          rw [hsame, Function.update_of_ne hbc, hbuf]

end EgGS
