import EgGS.Block.Pool

/-!
# Transfers

`Transfer s` says how far the transfer of the request in service is.  A sector
that is counted as done agrees in memory and on disk, and while the controller
owes an interrupt its command is about the sector the request is at.

The agreement is lost if a holder changes the buffer during the transfer.  The
holder then sets `b_dirt`, so the invariant speaks of buffers that are not
dirty.

Interrupts only answer a command that is outstanding (`Env.Answers`).
-/

namespace EgGS

open Lib Prog

variable {n : ℕ} {env : Env n} {k : ℕ} {s s' : Sys n}
variable {sub : Submission n} {r : Fin nrRequest} {b : Fin n}

/-! ## Sectors of a block -/

/-- The contents on disk of sector `j` of the block of the header `b`. -/
def Sys.sector (s : Sys n) (b : Fin n) (j : ℕ) : Sector :=
  s.disk (minor (s.buf b).bDev / 5) (s.geo.lba (s.buf b).bDev (2 * (s.buf b).bBlocknr + j))

theorem Sys.diskBlock_eq (s : Sys n) (b : Fin n) :
    s.diskBlock (s.buf b).bDev (s.buf b).bBlocknr = joinSectors (s.sector b 0) (s.sector b 1) :=
  rfl

theorem Geometry.lba_add (geo : Geometry) (dev i j : ℕ) :
    (geo.lba dev i + j) % 4294967296 = geo.lba dev (i + j) := by
  simp only [Geometry.lba]
  omega

theorem Geometry.lba_congr (geo : Geometry) (dev : ℕ) {i j : ℕ}
    (h : i % 4294967296 = j % 4294967296) : geo.lba dev i = geo.lba dev j := by
  simp only [Geometry.lba]
  omega

theorem Geometry.lba_ne (geo : Geometry) (dev : ℕ) {i j : ℕ}
    (h : i % 4294967296 ≠ j % 4294967296) : geo.lba dev i ≠ geo.lba dev j := by
  simp only [Geometry.lba]
  omega

theorem Block.sectorAt_storeSector_self (data : Block) (sector : Sector) {off : ℕ}
    (hoff : off + 512 ≤ 1024) : (data.storeSector off sector).sectorAt off = sector := by
  funext i
  have hi : off + i.val < 1024 := by omega
  simp [Block.sectorAt, Block.storeSector, hi]

theorem Block.sectorAt_storeSector_ne (data : Block) (sector : Sector) {off off' : ℕ}
    (h : off' + 512 ≤ off) : (data.storeSector off sector).sectorAt off' = data.sectorAt off' := by
  funext i
  have hi : ¬ off ≤ off' + i.val := by omega
  simp [Block.sectorAt, Block.storeSector, hi]

/-- A block is its two sectors. -/
theorem Block.join_sectorAt (data : Block) :
    joinSectors (data.sectorAt 0) (data.sectorAt 512) = data := by
  funext i
  simp only [joinSectors, Block.sectorAt]
  by_cases hi : i.val < 512
  · simp [hi]
  · have h1 : 512 + (i.val - 512) = i.val := by omega
    simp [hi, h1]

/-! ## The transfer in progress -/

/-- The number of sectors of the request in slot `r` that are done. -/
def Sys.done (s : Sys n) (r : Fin nrRequest) : ℕ := 2 - (s.request r).nrSectors

/-- The outstanding command serves the request in slot `r`, whose buffer is `b`. -/
inductive InService (s : Sys n) (r : Fin nrRequest) (b : Fin n) : Prop
  | recal : s.handler = .recalIntr →
      s.ctl.command.cmd = .specify ∨ s.ctl.command.cmd = .restore → InService s r b
  | read : s.handler = .readIntr → s.ctl.command.cmd = .read → (s.request r).cmd = .read →
      s.ctl.command.drive = minor (s.buf b).bDev / 5 →
      s.ctl.sector = s.geo.lba (s.buf b).bDev (2 * (s.buf b).bBlocknr + s.done r) →
      s.ctl.phase + (s.request r).nrSectors = s.ctl.command.nsect → InService s r b
  | write : s.handler = .writeIntr → s.ctl.command.cmd = .write → (s.request r).cmd = .write →
      s.ctl.command.drive = minor (s.buf b).bDev / 5 →
      s.ctl.sector = s.geo.lba (s.buf b).bDev (2 * (s.buf b).bBlocknr + s.done r + 1) →
      s.ctl.phase + (s.request r).nrSectors = s.ctl.command.nsect + 1 →
      ((s.buf b).bDirt = false →
        s.sector b (s.done r) = (s.buf b).bData.sectorAt (512 * s.done r)) → InService s r b

/-- The transfer of the request in service. -/
structure Transfer (s : Sys n) : Prop where
  half : ∀ r b, s.current = some r → (s.request r).bh = some b →
    (s.request r).nrSectors = 1 → (s.buf b).bDirt = false →
    s.sector b 0 = (s.buf b).bData.sectorAt 0
  command : s.ctl.outstanding = true →
    ∃ r b, s.current = some r ∧ (s.request r).bh = some b ∧ InService s r b

/-- The header `b` belongs to the same block, and if it is clean it was clean before and
has the same contents. -/
structure SameHead (s s' : Sys n) (b : Fin n) : Prop where
  key : s'.Keyed b (s.buf b).bDev (s.buf b).bBlocknr
  clean : (s'.buf b).bDirt = false → (s.buf b).bDirt = false ∧ (s'.buf b).bData = (s.buf b).bData

theorem SameHead.of_eq (h : s'.buf b = s.buf b) : SameHead s s' b := by
  refine ⟨.of_links (by rw [h]), fun hclean => ?_⟩
  rw [h] at hclean ⊢
  exact ⟨hclean, rfl⟩

/-- Interrupts answer the outstanding command. -/
def Env.Answers (env : Env n) : Prop := ∀ s i, env.irq s = some i → s.ctl.outstanding = true

namespace Transfer

/-- A command is outstanding only while a request is in service. -/
theorem idle (h : Transfer s) (hcur : s.current = none) : s.ctl.outstanding = false := by
  cases hout : s.ctl.outstanding with
  | false => rfl
  | true =>
      obtain ⟨r, b, hr, -⟩ := h.command hout
      rw [hcur] at hr
      exact absurd hr (by simp)

/-- Nothing is said of a request that was not started while nothing is outstanding. -/
theorem of_fresh (hout : s.ctl.outstanding = false)
    (hfresh : ∀ r, s.current = some r → (s.request r).nrSectors = 2) : Transfer s where
  half r b hcur _ hone := by
    rw [hfresh r hcur] at hone
    exact absurd hone (by decide)
  command h := by
    rw [hout] at h
    exact absurd h (by decide)

/-- What the half that is done depends on. -/
theorem half_congr (h : Transfer s) (hdisk : s'.disk = s.disk) (hgeo : s'.geo = s.geo)
    (hcur : s'.current = s.current)
    (hreq : ∀ r, s.current = some r → (s'.request r).bh = (s.request r).bh ∧
      (s'.request r).nrSectors = (s.request r).nrSectors)
    (hbuf : ∀ r b, s.current = some r → (s.request r).bh = some b → SameHead s s' b) :
    ∀ r b, s'.current = some r → (s'.request r).bh = some b → (s'.request r).nrSectors = 1 →
      (s'.buf b).bDirt = false → s'.sector b 0 = (s'.buf b).bData.sectorAt 0 := by
  intro r b hr hb hone hclean
  rw [hcur] at hr
  obtain ⟨hbh, hleft⟩ := hreq r hr
  rw [hbh] at hb
  obtain ⟨⟨hdev, hnr⟩, hsame⟩ := hbuf r b hr hb
  obtain ⟨hclean, hdata⟩ := hsame hclean
  simp only [Sys.sector, hdev, hnr, hdata, hdisk, hgeo]
  exact h.half r b hr hb (hleft ▸ hone) hclean

/-- What the transfer depends on: the hardware, and the request in service with its buffer. -/
theorem congr (h : Transfer s) (hctl : s'.ctl = s.ctl) (hhandler : s'.handler = s.handler)
    (hdisk : s'.disk = s.disk) (hgeo : s'.geo = s.geo) (hcur : s'.current = s.current)
    (hreq : ∀ r, s.current = some r → ∃ next, s'.request r = { s.request r with next })
    (hbuf : ∀ r b, s.current = some r → (s.request r).bh = some b → SameHead s s' b) :
    Transfer s' := by
  constructor
  · refine h.half_congr hdisk hgeo hcur (fun r hr => ?_) hbuf
    obtain ⟨next, heq⟩ := hreq r hr
    exact ⟨by rw [heq], by rw [heq]⟩
  · intro hout
    obtain ⟨r, b, hr, hb, hserve⟩ := h.command (hctl ▸ hout)
    obtain ⟨next, heq⟩ := hreq r hr
    obtain ⟨⟨hdev, hnr⟩, hsame⟩ := hbuf r b hr hb
    refine ⟨r, b, hcur ▸ hr, by rw [heq, hb], ?_⟩
    cases hserve with
    | recal h₁ h₂ => exact .recal (hhandler ▸ h₁) (hctl ▸ h₂)
    | read h₁ h₂ h₃ h₄ h₅ h₆ =>
        refine .read ?_ ?_ ?_ ?_ ?_ ?_ <;>
          simp only [hhandler, hctl, heq, hdev, hnr, hgeo, Sys.done] <;> assumption
    | write h₁ h₂ h₃ h₄ h₅ h₆ h₇ =>
        refine .write ?_ ?_ ?_ ?_ ?_ ?_ fun hclean => ?_ <;>
          simp only [hhandler, hctl, heq, hdev, hnr, hgeo, hdisk, Sys.done, Sys.sector]
        all_goals try assumption
        obtain ⟨hclean, hdata⟩ := hsame hclean
        rw [hdata]
        exact h₇ hclean

end Transfer

/-! ## Ending a request -/

theorem endRequest_ctl (uptodate : Bool) (s : Sys n) : (endRequest uptodate s).ctl = s.ctl := by
  unfold endRequest
  split
  · rfl
  · split <;> rfl

/-- The request that comes into service when one ends was not started. -/
theorem Pool.next_fresh {q : List (Fin nrRequest)} (h : Pool sub s (r :: q)) (uptodate : Bool)
    (same : SamePool (EgGS.endRequest uptodate s) s') {r' : Fin nrRequest}
    (hr' : s'.current = some r') :
    (s'.request r').nrSectors = 2 ∧ (s'.request r').errors = 0 := by
  obtain ⟨b, hb⟩ := h.goodMem (List.mem_cons_self ..)
  have hq := h.endRequest uptodate
  have hmem : r' ∈ q := by
    have := hq.current_eq
    rw [← same.current, hr'] at this
    exact List.mem_of_mem_head? this.symm
  have hne : r' ≠ r := fun heq => (List.nodup_cons.mp h.nodup).1 (heq ▸ hmem)
  have hused := (hq.slots r').mpr (.inl hmem)
  rw [(same.request r').resolve_right fun hfree => by omega,
    endRequest_eq uptodate h.chain.1 hb.bh]
  simpa [hne] using (h.untouched r' (.inl hmem)).symm

/-- Between two commands: the state in which `do_hd_request` is called. -/
structure Between (sub : Submission n) (s : Sys n) : Prop where
  pooled : Pooled sub s
  transfer : Transfer s
  quiet : s.ctl.outstanding = false

theorem Between.endRequest (h : Between sub s) (hcur : s.current = some r) (uptodate : Bool) :
    Between sub (endRequest uptodate s) := by
  obtain ⟨q, hq⟩ := h.pooled
  obtain ⟨q, rfl⟩ := hq.eq_cons hcur
  have hquiet : (EgGS.endRequest uptodate s).ctl.outstanding = false := by
    rw [endRequest_ctl]
    exact h.quiet
  exact ⟨⟨q, hq.endRequest uptodate⟩,
    .of_fresh hquiet fun r' hr' => (hq.next_fresh uptodate (.of_buf rfl rfl rfl) hr').1, hquiet⟩

theorem Between.addError (h : Between sub s) (hcur : s.current = some r) :
    Between sub (addError r s) := by
  obtain ⟨q, hq⟩ := h.pooled
  obtain ⟨q, rfl⟩ := hq.eq_cons hcur
  refine ⟨⟨_, hq.addError⟩, ⟨?_, fun hout => ?_⟩, h.quiet⟩
  · refine h.transfer.half_congr rfl rfl rfl (fun r' hr' => ?_) fun _ _ _ _ => .of_eq rfl
    by_cases hr : r' = r
    · subst hr; simp [EgGS.addError]
    · simp [EgGS.addError, hr]
  · exact absurd (h.quiet.symm.trans hout) (by decide)

theorem Between.congr (h : Between sub s) (same : SamePool s s') (hctl : s'.ctl = s.ctl)
    (hhandler : s'.handler = s.handler) (hdisk : s'.disk = s.disk) (hgeo : s'.geo = s.geo)
    (hreq : s'.request = s.request) (hbuf : s'.buf = s.buf) : Between sub s' :=
  ⟨h.pooled.congr same, h.transfer.congr hctl hhandler hdisk hgeo same.current
    (fun r _ => ⟨(s.request r).next, congrFun hreq r⟩) fun _ b _ _ => .of_eq (congrFun hbuf b),
    hctl ▸ h.quiet⟩

theorem Between.failed (h : Between sub s) (hf : Failed s s') : Between sub s' := by
  cases hf with
  | null _ => exact h.congr (.of_buf rfl rfl rfl) rfl rfl rfl rfl rfl rfl
  | retry hcur _ _ => exact (h.addError hcur).congr (.of_buf rfl rfl rfl) rfl rfl rfl rfl rfl rfl
  | giveUp hcur _ _ =>
      exact ((h.addError hcur).endRequest hcur false).congr (.of_buf rfl rfl rfl)
        rfl rfl rfl rfl rfl rfl

/-! ## Data phases -/

/-- The next data phase of the controller is about sector `j` of the block of `b`. -/
structure Sys.At (s : Sys n) (b : Fin n) (j : ℕ) : Prop where
  drive : s.ctl.command.drive = minor (s.buf b).bDev / 5
  sector : s.ctl.sector = s.geo.lba (s.buf b).bDev (2 * (s.buf b).bBlocknr + j)

/-- A data phase moves on to the next sector. -/
theorem Sys.At.next {j : ℕ} (h : s.At b j) :
    (s.ctl.command.lba + (s.ctl.phase + 1)) % 4294967296 =
      s.geo.lba (s.buf b).bDev (2 * (s.buf b).bBlocknr + j + 1) := by
  have := s.geo.lba_add (s.buf b).bDev (2 * (s.buf b).bBlocknr + j) 1
  rw [← this, ← h.sector, Controller.sector]
  omega

section PortWrite

variable {j off : ℕ}

theorem portWrite_sector (h : s.At b j) :
    (portWrite (some ⟨b, off⟩) s).sector b j = (s.buf b).bData.sectorAt off := by
  simp [portWrite, Sys.sector, h.drive, h.sector]

theorem portWrite_sector_ne (h : s.At b j) {i : ℕ}
    (hij : (2 * (s.buf b).bBlocknr + i) % 4294967296 ≠
    (2 * (s.buf b).bBlocknr + j) % 4294967296) :
    (portWrite (some ⟨b, off⟩) s).sector b i = s.sector b i := by
  simp [portWrite, Sys.sector, h.drive, h.sector, s.geo.lba_ne _ hij]

theorem portWrite_at (off : ℕ) (h : s.At b j) : (portWrite (some ⟨b, off⟩) s).At b (j + 1) :=
  ⟨h.drive, h.next⟩

end PortWrite

theorem Good.dev_lt (h : Good s r b) : (s.buf b).bDev < 1024 := by
  have := h.major
  simp only [EgGS.major] at this
  omega

theorem Good.unsigned_dev (h : Good s r b) : unsigned (s.request r).dev = (s.buf b).bDev := by
  have := h.dev_lt
  rw [h.dev, unsigned]
  omega

/-- `do_hd_request` addresses the sector the request is at. -/
theorem Good.issue_at (h : Good s r b) (cmd : Win) (handler : Handler) :
    (s.issue (s.transferCommand r cmd) handler).At b (s.done r) := by
  constructor
  · simp [Sys.transferCommand, chsCommand, h.unsigned_dev]
  · change (s.geo.lba (unsigned (s.request r).dev) (s.request r).sector + 0) % 4294967296 = _
    rw [h.unsigned_dev, Geometry.lba_add]
    refine Geometry.lba_congr _ _ ?_
    rw [h.sector, Sys.done, Sys.issue_buf]
    omega

theorem Good.buffer_done (h : Good s r b) :
    (s.request r).buffer = some ⟨b, 512 * s.done r⟩ := h.buffer

/-! ## Passes of `do_hd_request` -/

/-- A command is dropped, whatever it was. -/
theorem Between.dropped (hpool : Pooled sub s) (hhalf : ∀ r b, s.current = some r →
      (s.request r).bh = some b → (s.request r).nrSectors = 1 → (s.buf b).bDirt = false →
      s.sector b 0 = (s.buf b).bData.sectorAt 0) : Between sub s.drop :=
  ⟨hpool.congr (.of_buf rfl rfl rfl), ⟨hhalf, fun hout => absurd hout (by simp)⟩, rfl⟩

theorem Between.drop (h : Between sub s) (c : Command) (handler : Handler) :
    Between sub (s.issue c handler).drop :=
  .dropped (h.pooled.congr (.issue ..)) h.transfer.half

theorem Between.again (h : Between sub s) (hp : Pass env s (.inl ()) s') : Between sub s' := by
  cases hp with
  | reject hcur _ => exact h.endRequest hcur false
  | timeout _ _ _ _ _ => exact (h.drop _ _).failed (failed_cases env _)

/-- A command is sent: from now on the controller owes an interrupt for it. -/
theorem Between.issue (h : Between sub s) (hcur : s.current = some r) (hb : Good s r b)
    {c : Command} {handler : Handler} (hserve : InService (s.issue c handler) r b) :
    Transfer (s.issue c handler) :=
  ⟨h.transfer.half_congr rfl rfl rfl (fun _ _ => ⟨rfl, rfl⟩) fun _ _ _ _ => .of_eq rfl,
    fun _ => ⟨r, b, hcur, hb.bh, hserve⟩⟩

theorem Between.good (h : Between sub s) (hcur : s.current = some r) : ∃ b, Good s r b := by
  obtain ⟨q, hq⟩ := h.pooled
  obtain ⟨q, rfl⟩ := hq.eq_cons hcur
  exact hq.goodMem (List.mem_cons_self ..)

/-- A `WRITE` was sent for the request in slot `r`, and its first data phase is to come. -/
structure Sent (sub : Submission n) (s : Sys n) (r : Fin nrRequest) (b : Fin n) : Prop where
  pooled : Pooled sub s
  half : ∀ r b, s.current = some r → (s.request r).bh = some b →
    (s.request r).nrSectors = 1 → (s.buf b).bDirt = false →
    s.sector b 0 = (s.buf b).bData.sectorAt 0
  current : s.current = some r
  good : Good s r b
  cmd : (s.request r).cmd = .write
  handler : s.handler = .writeIntr
  command : s.ctl.command.cmd = .write
  place : s.At b (s.done r)
  phase : s.ctl.phase = 0
  nsect : s.ctl.command.nsect = (s.request r).nrSectors

theorem Between.sent (h : Between sub s) (served : Served s r)
    (hwrite : (s.request r).cmd = .write) :
    ∃ b, Sent sub (s.issue (s.transferCommand r .write) .writeIntr) r b := by
  obtain ⟨b, hb⟩ := h.good served.current
  exact ⟨b, h.pooled.congr (.issue ..), h.transfer.half, served.current,
    hb.congr ⟨_, rfl⟩ ⟨rfl, rfl⟩ rfl, hwrite, rfl, rfl, hb.issue_at .write .writeIntr, rfl, rfl⟩

/-- The first data phase of a `WRITE`. -/
theorem Sent.transfer (h : Sent sub s r b) : Transfer (portWrite (s.request r).buffer s) := by
  have hat := h.place
  rw [h.good.buffer_done]
  refine ⟨fun r' b' hr' hb' hone hclean => ?_, fun _ => ⟨r, b, h.current, h.good.bh, ?_⟩⟩
  · obtain rfl : r = r' := Option.some.inj (h.current.symm.trans hr')
    obtain rfl : b = b' := Option.some.inj (h.good.bh.symm.trans hb')
    have hdone : s.done r = 1 := by
      have : (s.request r).nrSectors = 1 := hone
      rw [Sys.done, this]
    rw [portWrite_sector_ne hat (by rw [hdone]; omega)]
    exact h.half r b hr' hb' hone hclean
  · have hnext := portWrite_at (512 * s.done r) hat
    refine .write h.handler h.command h.cmd hnext.drive hnext.sector ?_ fun _ =>
      portWrite_sector hat
    change s.ctl.phase + 1 + (s.request r).nrSectors = s.ctl.command.nsect + 1
    rw [h.phase, h.nsect]
    omega

theorem Between.returns (h : Between sub s) (hp : Pass env s (.inr ()) s') : Transfer s' := by
  cases hp with
  | idle _ => exact h.transfer
  | @reset r c served _ hc =>
      obtain ⟨b, hb⟩ := h.good served.current
      have hflags : Between sub { s with reset := false, recalibrate := true } :=
        h.congr (.of_buf rfl rfl rfl) rfl rfl rfl rfl rfl rfl
      have hb' : Good { s with reset := false, recalibrate := true } r b :=
        hb.congr ⟨_, rfl⟩ ⟨rfl, rfl⟩ rfl
      exact hflags.issue served.current hb' (.recal rfl (.inl hc))
  | @recalibrate r c served _ _ hc =>
      obtain ⟨b, hb⟩ := h.good served.current
      have hflags : Between sub { s with recalibrate := false } :=
        h.congr (.of_buf rfl rfl rfl) rfl rfl rfl rfl rfl rfl
      have hb' : Good { s with recalibrate := false } r b :=
        hb.congr ⟨_, rfl⟩ ⟨rfl, rfl⟩ rfl
      exact hflags.issue served.current hb' (.recal rfl (.inr hc))
  | @read r served _ _ hread =>
      obtain ⟨b, hb⟩ := h.good served.current
      have hat := hb.issue_at .read .readIntr
      exact h.issue served.current hb (.read rfl rfl hread hat.drive hat.sector (Nat.zero_add _))
  | write served _ _ hwrite _ =>
      obtain ⟨b, hsent⟩ := h.sent served hwrite
      exact hsent.transfer

/-! ## Interrupts -/

/-- The state between interrupts. -/
structure Serving (sub : Submission n) (s : Sys n) : Prop where
  pooled : Pooled sub s
  transfer : Transfer s

theorem Between.serving (h : Between sub s) : Serving sub s := ⟨h.pooled, h.transfer⟩

/-- The request in service and its buffer while a command is outstanding. -/
theorem Serving.command (h : Serving sub s) (hout : s.ctl.outstanding = true) :
    ∃ r b q, Pool sub s (r :: q) ∧ Good s r b ∧ InService s r b := by
  obtain ⟨r, b, hcur, hbh, hserve⟩ := h.transfer.command hout
  obtain ⟨q, hq⟩ := h.pooled
  obtain ⟨q, rfl⟩ := hq.eq_cons hcur
  obtain ⟨c, hc⟩ := hq.goodMem (List.mem_cons_self ..)
  obtain rfl : b = c := Option.some.inj (hbh.symm.trans hc.bh)
  exact ⟨r, b, q, hq, hc, hserve⟩

theorem InService.read_of (h : InService s r b) (hh : s.handler = .readIntr) :
    s.ctl.command.cmd = .read ∧ (s.request r).cmd = .read ∧ s.At b (s.done r) ∧
      s.ctl.phase + (s.request r).nrSectors = s.ctl.command.nsect := by
  cases h with
  | recal h₁ _ => exact absurd (hh.symm.trans h₁) (by decide)
  | read _ h₂ h₃ h₄ h₅ h₆ => exact ⟨h₂, h₃, ⟨h₄, h₅⟩, h₆⟩
  | write h₁ _ _ _ _ _ _ => exact absurd (hh.symm.trans h₁) (by decide)

theorem InService.write_of (h : InService s r b) (hh : s.handler = .writeIntr) :
    s.ctl.command.cmd = .write ∧ (s.request r).cmd = .write ∧ s.At b (s.done r + 1) ∧
      s.ctl.phase + (s.request r).nrSectors = s.ctl.command.nsect + 1 ∧
      ((s.buf b).bDirt = false →
        s.sector b (s.done r) = (s.buf b).bData.sectorAt (512 * s.done r)) := by
  cases h with
  | recal h₁ _ => exact absurd (hh.symm.trans h₁) (by decide)
  | read h₁ _ _ _ _ _ => exact absurd (hh.symm.trans h₁) (by decide)
  | write _ h₂ h₃ h₄ h₅ h₆ h₇ => exact ⟨h₂, h₃, ⟨h₄, h₅⟩, h₆, h₇⟩

theorem InService.recal_of (h : InService s r b) (hh : s.handler = .recalIntr) :
    s.ctl.command.cmd = .specify ∨ s.ctl.command.cmd = .restore := by
  cases h with
  | recal _ h₂ => exact h₂
  | read h₁ _ _ _ _ _ => exact absurd (hh.symm.trans h₁) (by decide)
  | write h₁ _ _ _ _ _ _ => exact absurd (hh.symm.trans h₁) (by decide)

theorem InService.handled (h : InService s r b) : s.handler ≠ .none := by
  intro hh
  cases h with
  | recal h₁ _ => exact absurd (hh.symm.trans h₁) (by decide)
  | read h₁ _ _ _ _ _ => exact absurd (hh.symm.trans h₁) (by decide)
  | write h₁ _ _ _ _ _ _ => exact absurd (hh.symm.trans h₁) (by decide)

/-- The controller owes no interrupt after its last answer. -/
theorem Serving.answer (h : Serving sub s) {ok : Bool}
    (hquiet : (s.ctl.answer ok).outstanding = false) : Between sub (s.answer ok) :=
  ⟨h.pooled.congr (.of_buf rfl rfl rfl),
    ⟨h.transfer.half_congr rfl rfl rfl (fun _ _ => ⟨rfl, rfl⟩) fun _ _ _ _ => .of_eq rfl,
      fun hout => absurd (hquiet.symm.trans hout) (by decide)⟩, hquiet⟩

theorem two_of_more (hb : Good s r b) (hmore : oneLess (s.request r).nrSectors ≠ 0) :
    (s.request r).nrSectors = 2 :=
  hb.left.resolve_left fun hone => hmore (by rw [hone]; rfl)

theorem one_of_last (hb : Good s r b) (hlast : oneLess (s.request r).nrSectors = 0) :
    (s.request r).nrSectors = 1 :=
  hb.left.resolve_right fun htwo => by rw [htwo] at hlast; exact absurd hlast (by decide)

section ReadSector

variable {j : ℕ}

@[simp] theorem readSector_current : (readSector r s).current = s.current := by simp [readSector]

@[simp] theorem readSector_disk : (readSector r s).disk = s.disk :=
  portRead_disk (s.request r).buffer s

@[simp] theorem readSector_geo : (readSector r s).geo = s.geo := by simp [readSector]

theorem readSector_head (c : Fin n) :
    (readSector r s).buf c = { s.buf c with bData := ((readSector r s).buf c).bData } :=
  portRead_head (s.request r).buffer s c

theorem readSector_ctl {ptr : BufPtr n} (hptr : (s.request r).buffer = some ptr) :
    (readSector r s).ctl = { s.ctl with phase := s.ctl.phase + 1 } := by
  simp [readSector, portRead, hptr]

theorem readSector_request : (readSector r s).request r =
    { (s.request r).advance with errors := 0, nrSectors := oneLess (s.request r).nrSectors } := by
  simp [readSector]

theorem readSector_sector (c : Fin n) (i : ℕ) : (readSector r s).sector c i = s.sector c i := by
  simp only [Sys.sector, readSector_disk, readSector_geo]
  rw [readSector_head]

/-- The buffer now has the sector the controller was at. -/
theorem readSector_data (hptr : (s.request r).buffer = some ⟨b, 512 * j⟩) (hat : s.At b j)
    (hj : j < 2) : ((readSector r s).buf b).bData.sectorAt (512 * j) = s.sector b j := by
  have hdata : ((readSector r s).buf b).bData =
      (s.buf b).bData.storeSector (512 * j) (s.disk s.ctl.command.drive s.ctl.sector) := by
    simp [readSector, portRead, hptr]
  rw [hdata, Block.sectorAt_storeSector_self _ _ (by omega), hat.drive, hat.sector]
  rfl

/-- The first half stays as it is when the second is read. -/
theorem readSector_data_zero (hptr : (s.request r).buffer = some ⟨b, 512 * 1⟩) :
    ((readSector r s).buf b).bData.sectorAt 0 = (s.buf b).bData.sectorAt 0 := by
  have hdata : ((readSector r s).buf b).bData =
      (s.buf b).bData.storeSector (512 * 1) (s.disk s.ctl.command.drive s.ctl.sector) := by
    simp [readSector, portRead, hptr]
  rw [hdata, Block.sectorAt_storeSector_ne _ _ (by decide)]

end ReadSector

/-- `read_intr` took the first sector and waits for the second. -/
theorem readMore_transfer (hb : Good s r b) (hcur : s.current = some r)
    (htwo : (s.request r).nrSectors = 2) (hat : s.At b 0) (hcmd : s.ctl.command.cmd = .read)
    (hread : (s.request r).cmd = .read) (hphase : s.ctl.phase + 2 = s.ctl.command.nsect) :
    Transfer { readSector r s with handler := .readIntr } := by
  have hptr : (s.request r).buffer = some ⟨b, 512 * 0⟩ := by rw [hb.buffer, htwo]
  have hreq := readSector_request (r := r) (s := s)
  have hctl := readSector_ctl hptr
  have hkey := congrArg BufferHead.toBufferLinks (readSector_head (r := r) (s := s) b)
  have hbh : ((readSector r s).request r).bh = some b := by rw [hreq]; exact hb.bh
  have hleft : ((readSector r s).request r).nrSectors = 1 := by rw [hreq, htwo]; rfl
  refine ⟨fun r' b' hr' hb' _ _ => ?_, fun _ => ⟨r, b, ?_, hbh, ?_⟩⟩
  · obtain rfl : r = r' := Option.some.inj (hcur.symm.trans (readSector_current.symm.trans hr'))
    obtain rfl : b = b' := Option.some.inj (hbh.symm.trans hb')
    exact (readSector_sector b 0).trans (readSector_data hptr hat (by decide)).symm
  · exact readSector_current.trans hcur
  · have hdone : Sys.done { readSector r s with handler := .readIntr } r = 1 := by
      simp only [Sys.done, hleft]
    refine .read rfl ?_ ?_ ?_ ?_ ?_
    · simp only [hctl, hcmd]
    · simp only [hreq]
      exact hread
    · simp only [hctl, hkey]
      exact hat.drive
    · rw [hdone]
      simp only [hctl, hkey, readSector_geo]
      exact hat.next
    · simp only [hctl, hleft]
      exact hphase

/-- `write_intr` counted the first sector and sent the second. -/
theorem writeMore_transfer (hb : Good s r b) (hcur : s.current = some r)
    (htwo : (s.request r).nrSectors = 2) (hat : s.At b 1) (hcmd : s.ctl.command.cmd = .write)
    (hwrite : (s.request r).cmd = .write) (hphase : s.ctl.phase + 1 = s.ctl.command.nsect)
    (hsame : (s.buf b).bDirt = false → s.sector b 0 = (s.buf b).bData.sectorAt 0) :
    Transfer (writeNext r s) := by
  -- the state before the data phase, in which the request is at its second sector
  obtain ⟨t, ht⟩ : ∃ t : Sys n, t = { (countSector r s).setRequest r Request.advance with
    handler := .writeIntr } := ⟨_, rfl⟩
  have hreq : t.request r =
      { (s.request r).advance with nrSectors := oneLess (s.request r).nrSectors } := by
    simp [ht, countSector, Request.advance]
  have hnext : writeNext r s = portWrite (some ⟨b, 512 * 1⟩) t := by
    have hptr : (t.request r).buffer = some ⟨b, 512 * 1⟩ := by
      simp [hreq, Request.advance, hb.buffer, htwo]
    rw [← hptr, ht]
    rfl
  have hbh : (t.request r).bh = some b := by rw [hreq]; exact hb.bh
  have hleft : (t.request r).nrSectors = 1 := by rw [hreq, htwo]; rfl
  have hcur' : t.current = some r := by rw [ht]; exact hcur
  have hbuf : t.buf = s.buf := by rw [ht]; rfl
  have hctl : t.ctl = s.ctl := by rw [ht]; rfl
  have hat' : t.At b 1 := by rw [ht]; exact ⟨hat.drive, hat.sector⟩
  have hdone : (portWrite (some ⟨b, 512 * 1⟩) t).done r = 1 := by
    simp only [Sys.done, portWrite_request, hleft]
  rw [hnext]
  refine ⟨fun r' b' hr' hb' _ hclean => ?_, fun _ => ⟨r, b, ?_, ?_, ?_⟩⟩
  · rw [portWrite_current, hcur'] at hr'
    obtain rfl := Option.some.inj hr'
    rw [portWrite_request] at hb'
    obtain rfl : b = b' := Option.some.inj (hbh.symm.trans hb')
    have hsec : t.sector b 0 = s.sector b 0 := by rw [ht]; rfl
    rw [portWrite_buf, hbuf] at hclean
    rw [portWrite_sector_ne hat' (by omega), portWrite_buf, hsec, hsame hclean, hbuf]
  · rw [portWrite_current, hcur']
  · rw [portWrite_request, hbh]
  · have hnext' := portWrite_at (512 * 1) hat'
    refine .write ?_ ?_ ?_ hnext'.drive ?_ ?_ fun _ => ?_
    · rw [ht]; rfl
    · exact (congrArg (·.command.cmd) hctl).trans hcmd
    · rw [portWrite_request, hreq]
      exact hwrite
    · rw [hdone]
      exact hnext'.sector
    · change t.ctl.phase + 1 + ((portWrite _ t).request r).nrSectors = t.ctl.command.nsect + 1
      rw [portWrite_request, hleft, hctl, hphase]
    · rw [hdone, portWrite_sector hat', portWrite_buf]

/-- An interrupt after which the command goes on. -/
theorem Serving.handled {ok : Bool} (h : Serving sub s) (hout : s.ctl.outstanding = true)
    (hh : Handled env ok s false s') : Transfer s' := by
  obtain ⟨r, b, q, hq, hb, hserve⟩ := h.command hout
  have hcur : s.current = some r := hq.chain.1
  have hb' : Good (s.answer ok) r b := hb.congr ⟨_, rfl⟩ ⟨rfl, rfl⟩ rfl
  cases hh with
  | unhandled hnone => exact absurd hnone hserve.handled
  | nullRead _ _ hnull => exact absurd (hcur.symm.trans hnull) (by simp)
  | nullWrite _ _ hnull => exact absurd (hcur.symm.trans hnull) (by simp)
  | @readMore r' _ hread hcur' hmore =>
      obtain rfl : r = r' := Option.some.inj (hcur.symm.trans hcur')
      obtain ⟨hcmd, hreq, hat, hphase⟩ := hserve.read_of hread
      have htwo := two_of_more hb hmore
      rw [Sys.done, htwo] at hat
      rw [htwo] at hphase
      exact readMore_transfer hb' hcur htwo ⟨hat.drive, hat.sector⟩ hcmd hreq hphase
  | @writeMore r' _ hwrite hcur' hmore =>
      obtain rfl : r = r' := Option.some.inj (hcur.symm.trans hcur')
      obtain ⟨hcmd, hreq, hat, hphase, hsame⟩ := hserve.write_of hwrite
      have htwo := two_of_more hb hmore
      rw [Sys.done, htwo] at hat hsame
      rw [htwo] at hphase
      exact writeMore_transfer hb' hcur htwo ⟨hat.drive, hat.sector⟩ hcmd hreq
        (Nat.succ_injective hphase) hsame

/-- An interrupt that ends the command, up to the call of `do_hd_request`. -/
theorem Serving.called {ok : Bool} (h : Serving sub s) (hout : s.ctl.outstanding = true)
    (hh : Handled env ok s true s') : Between sub s' := by
  obtain ⟨r, b, q, hq, hb, hserve⟩ := h.command hout
  have hcur : s.current = some r := hq.chain.1
  have hq' : Pool sub (s.answer ok) (r :: q) := hq.congr (.of_buf rfl rfl rfl)
  cases hh with
  | fail hok _ =>
      refine (h.answer ?_).failed (failed_cases env _)
      simp [Controller.answer, hok]
  | recal _ hrecal =>
      refine h.answer ?_
      rcases hserve.recal_of hrecal with hc | hc <;> simp [Controller.answer, hc]
  | @readLast r' _ hread hcur' hlast =>
      obtain rfl : r = r' := Option.some.inj (hcur.symm.trans hcur')
      obtain ⟨hcmd, -, -, hphase⟩ := hserve.read_of hread
      rw [one_of_last hb hlast] at hphase
      have hquiet : (endRequest true (readSector r (s.answer ok))).ctl.outstanding = false := by
        rw [endRequest_ctl, readSector_ctl (s := s.answer ok) hb.buffer]
        simp [Controller.answer, hcmd, hphase]
      exact ⟨⟨q, (hq'.endRequest true).congr hq'.readLast_same⟩,
        .of_fresh hquiet fun r' hr' => (hq'.next_fresh true hq'.readLast_same hr').1, hquiet⟩
  | @writeLast r' _ hwrite hcur' hlast =>
      obtain rfl : r = r' := Option.some.inj (hcur.symm.trans hcur')
      obtain ⟨hcmd, -, -, hphase, -⟩ := hserve.write_of hwrite
      rw [one_of_last hb hlast] at hphase
      have hquiet : (endRequest true (countSector r (s.answer ok))).ctl.outstanding = false := by
        rw [endRequest_ctl]
        simp [countSector, Controller.answer, hcmd, Nat.succ_injective hphase]
      exact ⟨⟨q, (hq'.endRequest true).congr hq'.writeLast_same⟩,
        .of_fresh hquiet fun r' hr' => (hq'.next_fresh true hq'.writeLast_same hr').1, hquiet⟩

/-- **Interrupts keep the transfer**, as long as they answer the outstanding command. -/
theorem Serving.interrupt {i : Irq} (h : Serving sub s) (hout : s.ctl.outstanding = true)
    (hint : hdInterrupt i env k s = .ok () s') : Serving sub s' :=
  hdInterrupt_ensures (J := Between sub)
    (fun hh => ⟨h.pooled.handled hh, h.handled hout hh⟩) (h.called hout)
    (fun hJ hp => hJ.again hp) (fun hJ hp => ⟨hJ.pooled.pass hp, hJ.returns hp⟩) hint

theorem Between.request (h : Between sub s) (hdo : doHdRequest env k s = .ok () s') :
    Serving sub s' :=
  doHdRequest_ensures (fun hJ hp => hJ.again hp)
    (fun hJ hp => ⟨hJ.pooled.pass hp, hJ.returns hp⟩) h hdo

end EgGS
