import EgGS.Block.Micro
import EgGS.Block.Success

/-!
# Why a request fails

`do_hd_request` ends a request as failed if its sectors leave the partition, and
`bad_rw_intr` does after `MAX_ERRORS` failures.  But the range test is made again on every
retry, with the sector of a request whose first sector is done already and room for two
sectors behind it.  So a failure in the second sector of the last block of a partition is
final.

The runs are those in small steps (`Micro`), which count the failures of each slot on the
way.  A call of `do_hd_request` in `add_request` comes to the range test with such a request
if an interrupt transferred its first sector while the call waited for DRQ.

* `failed_for_cause`: in every run without such a failure and such a test, a request that is
  ended as failed leaves its partition or has had `MAX_ERRORS` failures since its `errors` was
  zeroed.
-/

namespace EgGS

open Lib Prog Relation

variable {n : ℕ} {env : Env n} {k : ℕ} {s s' s₀ : Sys n}
variable {sub sub' : Submission n} {r : Fin nrRequest} {b : Fin n}

/-! ## The last block of a partition -/

/-- The two sectors of the block lie inside its partition. -/
def Geometry.Holds (geo : Geometry) (dev block : ℕ) : Prop :=
  minor dev < geo.nrHd * 5 ∧ 2 * block + 2 ≤ (geo.partitionInfo (minor dev)).nrSects

/-- They are the last two sectors of it. -/
def Geometry.Last (geo : Geometry) (dev block : ℕ) : Prop :=
  minor dev < geo.nrHd * 5 ∧ 2 * block + 2 = (geo.partitionInfo (minor dev)).nrSects

/-- The request in service is for the last block of a partition, and its first sector is
done. -/
def Sys.HalfLast (s : Sys n) : Prop :=
  ∃ r b, s.current = some r ∧ (s.request r).bh = some b ∧ (s.request r).nrSectors = 1 ∧
    s.geo.Last (s.buf b).bDev (s.buf b).bBlocknr

/-- The request in service would be tried again after a failure, but is for the last block of
a partition and has its first sector done. -/
def Sys.Doomed (s : Sys n) : Prop :=
  ∃ r b, s.current = some r ∧ (s.request r).bh = some b ∧ (s.request r).nrSectors = 1 ∧
    s.geo.Last (s.buf b).bDev (s.buf b).bBlocknr ∧ (s.request r).errors + 1 < maxErrors

/-- The interrupt does not fail a request that is `Doomed`. -/
def Sparing (s : Sys n) (i : Irq) : Prop :=
  s.handler ≠ .none → winResult i.status = false → ¬ s.Doomed

/-- What a run may do: an interrupt spares such a request, and the call of `add_request` does
not test one that is half done. -/
@[simps] def causeLimits : Limits n where
  irq := Sparing
  goOn s := ¬ s.HalfLast
  drq _ _ := True
  timeout _ := True

theorem Sys.HalfLast.congr (h : s'.HalfLast) (hrest : s'.rest = s.rest)
    (hcur : s'.current = s.current) (hreq : ∀ r, s.current = some r →
      (s'.request r).bh = (s.request r).bh ∧ (s'.request r).nrSectors = (s.request r).nrSectors) :
    s.HalfLast := by
  obtain ⟨r, b, hr, hb, hone, hlast⟩ := h
  rw [hcur] at hr
  obtain ⟨hbh, hleft⟩ := hreq r hr
  refine ⟨r, b, hr, hbh ▸ hb, hleft ▸ hone, ?_⟩
  rwa [show s'.geo = s.geo from congrArg Rest.geo hrest,
    show (s'.buf b).bDev = (s.buf b).bDev from congrArg (fun x => (x.links b).bDev) hrest,
    show (s'.buf b).bBlocknr = (s.buf b).bBlocknr from
      congrArg (fun x => (x.links b).bBlocknr) hrest] at hlast

/-- A request whose two sectors are left is not half done. -/
theorem Sys.not_halfLast (h : ∀ r, s.current = some r → (s.request r).nrSectors = 2) :
    ¬ s.HalfLast := by
  rintro ⟨r, b, hr, -, hone, -⟩
  exact absurd ((h r hr).symm.trans hone) (by decide)

/-- If the range test rejects a request that is not half done with the last block, the block
does not lie inside its partition. -/
theorem Good.rejected (h : Good s r b) (hcur : s.current = some r) (hhalf : ¬ s.HalfLast)
    (hout : outOfPartition s.geo (unsigned (s.request r).dev) (s.request r).sector = true) :
    ¬ s.geo.Holds (s.buf b).bDev (s.buf b).bBlocknr := by
  rintro ⟨hminor, hin⟩
  rw [h.unsigned_dev, h.sector] at hout
  simp only [outOfPartition, decide_eq_true_eq] at hout
  have hpast := hout.resolve_left (by omega)
  rcases h.left with hone | htwo
  · refine hhalf ⟨r, b, hcur, h.bh, hone, hminor, ?_⟩
    rw [hone] at hpast
    omega
  · rw [htwo] at hpast
    omega

/-! ## The count is `errors` -/

/-- For every slot in use the failures counted are those of `errors`. -/
def Tallied (f : Tally) (s : Sys n) : Prop :=
  ∀ r, 0 ≤ (s.request r).dev → (s.request r).errors = f r

variable {f : Tally} {w : Bool}

theorem Tallied.of_fields (h : Tallied f s) (hreq : ∀ x, (s'.request x).dev = (s.request x).dev ∧
    (s'.request x).errors = (s.request x).errors) : Tallied f s' := by
  intro r hused
  rw [(hreq r).1] at hused
  rw [(hreq r).2]
  exact h r hused

theorem Tallied.of_next (h : Tallied f s)
    (hreq : ∀ x, ∃ next, s'.request x = { s.request x with next }) : Tallied f s' :=
  h.of_fields fun x => by
    obtain ⟨next, heq⟩ := hreq x
    rw [heq]
    exact ⟨rfl, rfl⟩

theorem Tallied.of_request (h : Tallied f s) (hreq : s'.request = s.request) : Tallied f s' :=
  h.of_next fun x => ⟨(s.request x).next, congrFun hreq x⟩

/-- One slot is assigned. -/
theorem Tallied.assign {c : ℕ} (h : Tallied f s)
    (hother : ∀ x, x ≠ r → s'.request x = s.request x)
    (hself : 0 ≤ (s'.request r).dev → (s'.request r).errors = c) :
    Tallied (Function.update f r c) s' := by
  intro x hused
  by_cases hx : x = r
  · subst hx
    simpa using hself hused
  · rw [hother x hx] at hused ⊢
    simpa [hx] using h x hused

/-- The slot of a request that is ended is not in use. -/
theorem Tallied.ended (h : Tallied f s) (ok : Bool) (c : ℕ) (hcur : s.current = some r)
    (hbh : (s.request r).bh = some b) : Tallied (Function.update f r c) (endRequest ok s) := by
  rw [endRequest_eq ok hcur hbh]
  refine h.assign (fun x hx => ?_) fun hused => ?_
  · simp [hx]
  · simp at hused

theorem Pool.used {q : List (Fin nrRequest)} (h : Pool sub s q) (hcur : s.current = some r) :
    0 ≤ (s.request r).dev := by
  obtain ⟨q, rfl⟩ := h.eq_cons hcur
  exact (h.slots r).mpr (.inl (List.mem_cons_self ..))

/-- A failed transfer is one more failure of the request in service. -/
theorem Pooled.tally_failed (hpool : Pooled sub s) (h : Tallied f s) (hf : Failed s s') :
    Tallied (f.fail s.current) s' := by
  obtain ⟨q, hq⟩ := hpool
  cases hf with
  | null hcur =>
      rw [hcur]
      exact h.of_request rfl
  | @retry r reset hcur _ _ =>
      rw [hcur]
      refine h.assign (fun x hx => ?_) fun _ => ?_
      · simp [addError, hx]
      · simp [addError, h r (hq.used hcur)]
  | @giveUp r reset j hcur _ _ =>
      rw [hcur]
      obtain ⟨q, rfl⟩ := hq.eq_cons hcur
      obtain ⟨b, hb⟩ := hq.goodMem (List.mem_cons_self ..)
      have herror : Tallied (f.fail (some r)) (addError r s) := by
        refine h.assign (fun x hx => ?_) fun _ => ?_
        · simp [addError, hx]
        · simp [addError, h r (hq.used hcur)]
      have hended : Tallied (f.fail (some r)) (endRequest false (addError r s)) := by
        have := herror.ended false (f.fail (some r) r) (b := b)
          (by simpa [addError] using hcur) (by simpa [addError] using hb.bh)
        rwa [Function.update_eq_self] at this
      exact hended.of_request rfl

/-! ## The invariant -/

/-- The count agrees with `errors`, and wherever `do_hd_request` looks at the queue next, the
request in service is not half done with the last block of its partition. -/
structure Accounted (x : Moment n) : Prop where
  pooled : Pooled x.sub x.sys
  tallied : Tallied x.tally x.sys
  whole : x.called = true ∨ x.sys.handler = .recalIntr → ¬ x.sys.HalfLast

theorem Sys.Doomed.halfLast (h : s.Doomed) : s.HalfLast := by
  obtain ⟨r, b, hr, hb, hone, hlast, -⟩ := h
  exact ⟨r, b, hr, hb, hone, hlast⟩

theorem Sys.not_halfLast_of_idle (h : s.current = none) : ¬ s.HalfLast :=
  Sys.not_halfLast fun r hr => absurd (hr.symm.trans h) (by simp)

/-- When a request ends, the next one was not started. -/
theorem Pool.ended_whole {q : List (Fin nrRequest)} {ok : Bool} (h : Pool sub s (r :: q))
    (same : SamePool (EgGS.endRequest ok s) s') : ¬ s'.HalfLast :=
  Sys.not_halfLast fun _ hr => (h.next_fresh ok same hr).1

/-- A failed transfer leaves a request that can be tried again, or the next one. -/
theorem Pooled.failed_whole (hpool : Pooled sub s) (hspared : ¬ s.Doomed) (hf : Failed s s') :
    ¬ s'.HalfLast := by
  obtain ⟨q, hq⟩ := hpool
  cases hf with
  | null hcur => exact Sys.not_halfLast_of_idle hcur
  | @retry r reset hcur hfew _ =>
      intro hhalf
      obtain ⟨r', b, hr', hb, hone, hlast⟩ := hhalf.congr (s := s) rfl rfl fun x hx => by
        obtain rfl : r = x := Option.some.inj (hcur.symm.trans hx)
        exact ⟨by simp [addError], by simp [addError]⟩
      obtain rfl : r = r' := Option.some.inj (hcur.symm.trans hr')
      exact hspared ⟨r, b, hr', hb, hone, hlast, hfew⟩
  | giveUp hcur _ _ =>
      obtain ⟨q, rfl⟩ := hq.eq_cons hcur
      exact hq.addError.ended_whole (.of_buf rfl rfl rfl)

theorem Accounted.interrupt {i : Irq} {called : Bool} {o o' : Outer}
    (h : Accounted ⟨false, o, f, w, sub, s⟩) (hmay : Sparing s i)
    (hh : Handled env (winResult i.status) s called s') :
    Accounted ⟨called, o', f.interrupt (winResult i.status) s, w, sub, s'⟩ := by
  obtain ⟨hpool, htally, hwhole⟩ := h
  have hanswer : Pooled sub (s.answer (winResult i.status)) := hpool.congr (.of_buf rfl rfl rfl)
  have hpool' := hpool.handled hh
  -- by the branch of the handler: only a failure counts, and a sector read clears the count
  cases hh with
  | unhandled hnone =>
      have hsame : f.interrupt (winResult i.status) s = f := by rw [Tally.interrupt, hnone]
      rw [hsame]
      exact ⟨hpool', htally, fun hor => absurd (hor.resolve_left (by simp)) (by simp [hnone])⟩
  | fail hok hsome =>
      have hf := failed_cases env (s.answer (winResult i.status))
      have htally' := hanswer.tally_failed htally hf
      rw [Tally.interrupt_fail hok hsome]
      exact ⟨hpool', htally', fun _ => hanswer.failed_whole (hmay hsome hok) hf⟩
  | recal hok hrecal =>
      rw [Tally.interrupt_same hok (by simp [hrecal])]
      exact ⟨hpool', htally, fun _ => hwhole (.inr hrecal)⟩
  | nullRead hok hread hcur =>
      rw [Tally.interrupt_read hok hread, hcur]
      exact ⟨hpool', htally, fun _ => Sys.not_halfLast_of_idle hcur⟩
  | nullWrite hok hwrite hcur =>
      rw [Tally.interrupt_same hok (by simp [hwrite])]
      exact ⟨hpool', htally, fun _ => Sys.not_halfLast_of_idle hcur⟩
  | @readMore r hok hread hcur _ =>
      refine ⟨hpool', ?_, fun hor => absurd (hor.resolve_left (by simp)) (by simp)⟩
      rw [Tally.interrupt_read hok hread, hcur]
      refine htally.assign (fun x hx => ?_) fun _ => ?_
      · simp [readSector, hx]
      · simp [readSector]
  | @readLast r hok hread hcur _ =>
      obtain ⟨q, hq⟩ := hanswer
      obtain ⟨q, rfl⟩ := hq.eq_cons hcur
      obtain ⟨b, hb⟩ := hq.goodMem (List.mem_cons_self ..)
      refine ⟨hpool', ?_, fun _ => hq.ended_whole hq.readLast_same⟩
      rw [Tally.interrupt_read hok hread, hcur]
      have hread' : Tallied (f.clear (some r)) (readSector r (s.answer (winResult i.status))) := by
        refine htally.assign (fun x hx => ?_) fun _ => ?_
        · simp [readSector, hx]
        · simp [readSector]
      have hended := hread'.ended true (f.clear (some r) r) (b := b)
        (by simpa using hcur) (by rw [readSector_request]; exact hb.bh)
      rwa [Function.update_eq_self] at hended
  | @writeMore r hok hwrite hcur _ =>
      refine ⟨hpool', ?_, fun hor => absurd (hor.resolve_left (by simp)) ?_⟩
      · rw [Tally.interrupt_same hok (by simp [hwrite])]
        refine htally.of_fields fun x => ?_
        by_cases hx : x = r
        · subst hx; simp [writeNext, countSector, Request.advance]
        · simp [writeNext, countSector, hx]
      · simp [writeNext, portWrite_handler]
  | @writeLast r hok hwrite hcur _ =>
      -- the request ends with both sectors, so it is no case of a second half that fails
      obtain ⟨q, hq⟩ := hanswer
      obtain ⟨q, rfl⟩ := hq.eq_cons hcur
      obtain ⟨b, hb⟩ := hq.goodMem (List.mem_cons_self ..)
      refine ⟨hpool', ?_, fun _ => hq.ended_whole hq.writeLast_same⟩
      rw [Tally.interrupt_same hok (by simp [hwrite])]
      have hcount : Tallied f (countSector r (s.answer (winResult i.status))) := by
        refine htally.of_fields fun x => ?_
        by_cases hx : x = r
        · subst hx; simp [countSector]
        · simp [countSector, hx]
      have hended := hcount.ended true (f r) (b := b)
        (by simpa [countSector] using hcur) (by simpa [countSector] using hb.bh)
      rwa [Function.update_eq_self] at hended

/-- The range test ends the request in service. -/
theorem Pooled.rejected (hpool : Pooled sub s) (h : Tallied f s) (hcur : s.current = some r) :
    Tallied f (endRequest false s) ∧ ¬ (endRequest false s).HalfLast := by
  obtain ⟨q, hq⟩ := hpool
  obtain ⟨q, rfl⟩ := hq.eq_cons hcur
  obtain ⟨b, hb⟩ := hq.goodMem (List.mem_cons_self ..)
  have hended := h.ended false (f r) hcur hb.bh
  rw [Function.update_eq_self] at hended
  exact ⟨hended, hq.ended_whole (.of_buf rfl rfl rfl)⟩

/-- Back at `repeat`. -/
theorem Accounted.again {o : Outer} (h : Accounted ⟨true, o, f, w, sub, s⟩)
    (hp : Pass env s (.inl ()) s') : Accounted ⟨true, o, f.pass s, w, sub, s'⟩ := by
  obtain ⟨hpool, htally, hwhole⟩ := h
  have hpool' := hpool.pass hp
  unfold Tally.pass
  cases hp with
  | @reject r hcur hout =>
      obtain ⟨hended, hwhole'⟩ := hpool.rejected htally hcur
      exact ⟨hpool', by simpa [hcur, hout] using hended, fun _ => hwhole'⟩
  | @timeout r served _ _ _ _ =>
      have hsent : Pooled sub (s.issue (s.transferCommand r .write) .writeIntr).drop :=
        hpool.congr (.of_buf rfl rfl rfl)
      have hf := failed_cases env (s.issue (s.transferCommand r .write) .writeIntr).drop
      have htally' := hsent.tally_failed htally hf
      refine ⟨hpool', ?_, fun _ => hsent.failed_whole (fun hdoomed => ?_) hf⟩
      · simpa [served.current, served.inRange] using htally'
      · exact hwhole (.inl rfl) (hdoomed.halfLast.congr rfl rfl fun _ _ => ⟨rfl, rfl⟩)

/-- `do_hd_request` returns. -/
theorem Accounted.done {o o' : Outer} {called : Bool} (h : Accounted ⟨called, o, f, w, sub, s⟩)
    (hwhole : ¬ s.HalfLast) (hp : Pass env s (.inr ()) s') :
    Accounted ⟨false, o', f, w, sub, s'⟩ := by
  obtain ⟨hpool, htally, -⟩ := h
  have hpool' := hpool.pass hp
  cases hp with
  | idle hcur => exact ⟨hpool', htally, fun _ => Sys.not_halfLast_of_idle hcur⟩
  | reset _ _ _ => exact ⟨hpool', htally, fun _ => hwhole⟩
  | recalibrate _ _ _ _ => exact ⟨hpool', htally, fun _ => hwhole⟩
  | read _ _ _ _ => exact ⟨hpool', htally, fun hor => by simp at hor⟩
  | write _ _ _ _ _ =>
      exact ⟨hpool', htally.of_request (portWrite_request ..),
        fun hor => by simp [portWrite_handler] at hor⟩

/-! ### The call of `add_request` -/

/-- The request in service and its handler stay as they are. -/
theorem Accounted.congr {o o' : Outer} {w' : Bool} {f' : Tally}
    (h : Accounted ⟨false, o, f, w, sub, s⟩) (hpool : Pooled sub' s') (htally : Tallied f' s')
    (hrest : s'.rest = s.rest) (hhandler : s'.handler = s.handler)
    (hcur : s'.current = s.current)
    (hreq : ∀ r, s.current = some r → (s'.request r).bh = (s.request r).bh ∧
      (s'.request r).nrSectors = (s.request r).nrSectors) :
    Accounted ⟨false, o', f', w', sub', s'⟩ :=
  ⟨hpool, htally, fun hor hhalf => h.whole (hhandler ▸ hor) (hhalf.congr hrest hcur hreq)⟩

theorem Failed.handler (hf : Failed s s') : s'.handler = s.handler := by
  have hend : ∀ t : Sys n, (endRequest false t).handler = t.handler := by
    intro t
    unfold endRequest
    split
    · rfl
    · split <;> rfl
  cases hf with
  | null _ => rfl
  | retry _ _ _ => rfl
  | giveUp _ _ _ => exact hend _

/-- The wait for DRQ times out.  If an interrupt has sent a `WIN_SPECIFY` or a `WIN_RESTORE`
since, the request in service is not half done with its last block. -/
theorem Accounted.timeout {o o' : Outer} (h : Accounted ⟨false, o, f, w, sub, s⟩) :
    Accounted ⟨false, o', f.fail s.current, w, sub, printCurrent (badRwIntr env s.drop)⟩ := by
  have hdrop : Pooled sub s.drop := h.pooled.congr (.of_buf rfl rfl rfl)
  have hf := failed_cases env s.drop
  refine ⟨hdrop.failed hf, hdrop.tally_failed h.tallied hf, fun hor => ?_⟩
  have hrecal : s.handler = .recalIntr := hf.handler ▸ hor.resolve_left (by simp)
  refine hdrop.failed_whole (fun hdoomed => ?_) hf
  exact h.whole (.inr hrecal) (hdoomed.halfLast.congr rfl rfl fun _ _ => ⟨rfl, rfl⟩)

/-! ### Steps -/

theorem Accounted.fill {o : Outer} {rw : Rw}
    (h : Accounted ⟨false, o, f, w, ⟨some b, some rw, none⟩, s⟩) (hfree : freeSlot s rw = some r) :
    Accounted ⟨false, o, f.clear (some r), w, ⟨some b, some rw, some r⟩,
      s.setRequest r fun _ => makeRequest s rw b⟩ := by
  obtain ⟨q, hq⟩ := h.pooled
  have hunused : (s.request r).dev < 0 := (freeSlot_eq_some hfree).2
  have hsame : ∀ x, x ≠ r → (s.setRequest r fun _ => makeRequest s rw b).request x = s.request x :=
    fun x hx => by simp [hx]
  refine h.congr ⟨q, hq.fill hfree⟩ (h.tallied.assign hsame fun _ => ?_) rfl rfl rfl fun x hx => ?_
  · simp [makeRequest]
  · have hne : x ≠ r := by
      rintro rfl
      exact absurd (hq.used hx) (not_le.mpr hunused)
    rw [hsame x hne]
    exact ⟨rfl, rfl⟩

theorem Accounted.start {o o' : Outer} {buf : Option (Fin n)} {cmd : Option Rw}
    (h : Accounted ⟨false, o, f, w, ⟨buf, cmd, some r⟩, s⟩) (hcur : s.current = none) :
    Accounted ⟨false, o', f, w, .idle, ((s.offer r).start r).setIntr true⟩ := by
  obtain ⟨q, hq⟩ := h.pooled
  have hnext : ∀ x, ∃ next, (((s.offer r).start r).setIntr true).request x =
      { s.request x with next } := s.offer_next r
  refine ⟨⟨_, hq.startQueue hcur⟩, h.tallied.of_next hnext, fun _ => ?_⟩
  refine Sys.not_halfLast fun x hx => ?_
  obtain rfl : r = x := Option.some.inj hx
  obtain ⟨next, heq⟩ := hnext r
  rw [heq]
  exact (hq.untouched r (.inr rfl)).2

/-- The steps of `ll_rw_block` leave the request in service alone. -/
theorem Accounted.own {o : Outer} {x y : Submission n × Sys n}
    (h : Accounted ⟨false, o, f, w, x.1, x.2⟩) (hstep : Own x y) :
    Accounted ⟨false, o, f.clear y.1.slot, w, y.1, y.2⟩ := by
  have hpool := h.pooled.submit (hstep.submit (Env.diligent 0x50))
  have hrest := (hstep.submit (Env.diligent 0x50)).rest
  cases hstep with
  | lock _ _ _ => exact h.congr hpool h.tallied hrest rfl rfl fun _ _ => ⟨rfl, rfl⟩
  | check _ _ _ => exact h.congr hpool h.tallied hrest rfl rfl fun _ _ => ⟨rfl, rfl⟩
  | giveUp => exact h.congr hpool h.tallied hrest rfl rfl fun _ _ => ⟨rfl, rfl⟩
  | fill hfree => exact h.fill hfree
  | @queue s b cmd r head tmp e k hcur helev =>
      have hnext : ∀ x, ∃ next, (((s.offer r).linkBehind tmp r).setIntr true).request x =
          { s.request x with next } := by
        intro x
        obtain ⟨next, hlink⟩ := (s.offer r).linkBehind_next tmp r x
        obtain ⟨next', hoffer⟩ := s.offer_next r x
        exact ⟨next, hlink.trans (by rw [hoffer])⟩
      refine h.congr hpool (h.tallied.of_next hnext) hrest ?_ ?_ fun x _ => ?_
      · unfold Sys.offer Sys.clean
        split <;> rfl
      · simp [Sys.linkBehind]
      · obtain ⟨next, heq⟩ := hnext x
        rw [heq]
        exact ⟨rfl, rfl⟩

theorem Accounted.step {x y : Moment n} (h : Accounted x)
    (hstep : Micro env causeLimits x y) : Accounted y := by
  cases hstep with
  | time _ _ =>
      exact h.congr (h.pooled.congr (.of_buf rfl rfl rfl)) h.tallied rfl rfl rfl
        fun _ _ => ⟨rfl, rfl⟩
  | @elsewhere f w s s' helse =>
      refine ⟨h.pooled.congr helse.samePool, h.tallied.of_request helse.request, fun hor => ?_⟩
      -- nobody else touches a request in service or its locked buffer
      rintro ⟨r, b, hr, hb, hone, hlast⟩
      rw [helse.current] at hr
      rw [helse.request] at hb hone
      have hlock := h.pooled.locked_head hr hb
      rw [helse.geo, helse.held b hlock.1] at hlast
      rw [helse.handler] at hor
      exact h.whole hor ⟨r, b, hr, hb, hone, hlast⟩
  | own hown => exact h.own hown
  | start hcur => exact h.start hcur
  | interrupt _ hspares hh => exact h.interrupt hspares hh
  | again hp => exact h.again hp
  | done hp => exact h.done (h.whole (.inl rfl)) hp
  | leave _ => exact ⟨h.pooled, h.tallied, h.whole⟩
  | begin _ => exact ⟨h.pooled, h.tallied, h.whole⟩
  | lost _ _ =>
      exact h.congr (h.pooled.congr (.of_buf rfl rfl rfl)) h.tallied rfl rfl rfl
        fun _ _ => ⟨rfl, rfl⟩
  | reject _ hcur hout =>
      -- the range test ends a request: with the partition to blame, and the next one is whole
      obtain ⟨hended, hwhole⟩ := h.pooled.rejected h.tallied hcur
      have hpass : Pass env _ _ _ := .reject hcur hout
      exact ⟨h.pooled.pass hpass, hended, fun _ => hwhole⟩
  | command hgo _ _ hp => exact h.done hgo hp
  | write _ _ _ _ _ =>
      exact ⟨h.pooled.congr (.issue ..), h.tallied, fun hor => by simp at hor⟩
  | @drq _ _ _ _ s r _ _ _ =>
      exact h.congr (h.pooled.congr (.portWrite ..)) (h.tallied.of_request (portWrite_request ..))
        (portWrite_rest ..) (portWrite_handler ..) (portWrite_current ..)
        fun _ _ => by simp
  | drqLost _ _ _ =>
      exact h.congr (h.pooled.congr (.of_buf rfl rfl rfl)) h.tallied rfl rfl rfl
        fun _ _ => ⟨rfl, rfl⟩
  | timeout _ _ => exact h.timeout

theorem Watched.accounted {x : Moment n} (hquiet : s₀.Quiet)
    (h : Watched env causeLimits s₀ x) : Accounted x := by
  induction h with
  | refl =>
      refine ⟨⟨[], Pool.init hquiet.current hquiet.unlocked⟩, fun r hused => ?_, fun _ => ?_⟩
      · simp [initRequestQueue] at hused
      · exact Sys.not_halfLast_of_idle hquiet.current
  | tail _ hstep ih => exact ih.step hstep

/-! ## The cause -/

/-- Between the two states a request for `b` was ended as failed. -/
def FailedBetween (b : Fin n) (s s' : Sys n) : Prop :=
  ∃ es cmd data disk, s'.log = es ++ s.log ∧ .ended b cmd false data disk ∈ es

/-- No request was. -/
def NoneFailed (s s' : Sys n) : Prop :=
  ∃ es, s'.log = es ++ s.log ∧ ∀ e ∈ es, ¬ e.Failed fun _ => True

theorem NoneFailed.refl (hlog : s'.log = s.log) : NoneFailed s s' := ⟨[], hlog, by simp⟩

theorem NoneFailed.one {e : Event n} (he : ¬ e.Failed fun _ => True)
    (hlog : s'.log = e :: s.log) : NoneFailed s s' :=
  ⟨[e], hlog, by simpa using he⟩

theorem NoneFailed.trans {t : Sys n} (h : NoneFailed s t) (h' : NoneFailed t s') :
    NoneFailed s s' := by
  obtain ⟨es, heq, hes⟩ := h
  obtain ⟨es', heq', hes'⟩ := h'
  refine ⟨es' ++ es, by rw [heq', heq, List.append_assoc], fun e he => ?_⟩
  exact (List.mem_append.mp he).elim (hes' e) (hes e)

theorem NoneFailed.not_failed (h : NoneFailed s s') : ¬ FailedBetween b s s' := by
  rintro ⟨es, cmd, data, disk, heq, he⟩
  obtain ⟨es', heq', hes'⟩ := h
  obtain rfl : es = es' := List.append_cancel_right (heq.symm.trans heq')
  exact hes' _ he trivial

/-- The request that failed is the one that was recorded. -/
theorem FailedBetween.eq {c : Fin n} (h : FailedBetween b s s') (es : List (Event n))
    (hes : ∀ e ∈ es, ¬ e.Failed fun _ => True)
    (hlog : ∃ cmd data disk, s'.log = es ++ .ended c cmd false data disk :: s.log) : b = c := by
  obtain ⟨es', cmd', data', disk', heq, he⟩ := h
  obtain ⟨cmd, data, disk, hlog⟩ := hlog
  have hsplit : es' = es ++ [.ended c cmd false data disk] := by
    refine List.append_cancel_right (heq.symm.trans (hlog.trans ?_))
    simp
  rw [hsplit, List.mem_append, List.mem_singleton] at he
  rcases he with he | he
  · exact absurd trivial (hes _ he)
  · injection he

/-- It was ended behind `t` if it was not before. -/
theorem FailedBetween.behind {t : Sys n} (h : FailedBetween b s s') (hfirst : NoneFailed s t)
    (hlater : ∃ es, s'.log = es ++ t.log) : FailedBetween b t s' := by
  obtain ⟨es, cmd, data, disk, heq, he⟩ := h
  obtain ⟨es₁, heq₁, hes₁⟩ := hfirst
  obtain ⟨es₂, heq₂⟩ := hlater
  have hsplit : es = es₂ ++ es₁ := by
    refine List.append_cancel_right (heq.symm.trans (heq₂.trans ?_))
    rw [heq₁, List.append_assoc]
  rw [hsplit, List.mem_append] at he
  exact ⟨es₂, cmd, data, disk, heq₂, he.resolve_right fun he => hes₁ _ he trivial⟩

theorem endRequest_log (ok : Bool) (s : Sys n) : ∃ es, (endRequest ok s).log = es ++ s.log := by
  unfold endRequest
  split
  · exact ⟨[.nullAccess], rfl⟩
  · split
    · exact ⟨[], rfl⟩
    · exact ⟨[_], rfl⟩

theorem Failed.log (hf : Failed s s') : ∃ es, s'.log = es ++ s.log := by
  cases hf with
  | null _ => exact ⟨_, rfl⟩
  | retry _ _ _ => exact ⟨[], rfl⟩
  | @giveUp r reset j _ _ _ =>
      obtain ⟨es, heq⟩ := endRequest_log false (addError r s)
      refine ⟨List.replicate j .nullAccess ++ es, ?_⟩
      rw [List.append_assoc]
      exact congrArg (List.replicate j .nullAccess ++ ·) heq

theorem NoneFailed.portRead (ptr : Option (BufPtr n)) (s : Sys n) :
    NoneFailed s (portRead ptr s) := by
  cases ptr with
  | none => exact .refl rfl
  | some p => exact .one (e := .dataPhase p) id rfl

theorem NoneFailed.portWrite (ptr : Option (BufPtr n)) (s : Sys n) :
    NoneFailed s (portWrite ptr s) := by
  cases ptr with
  | none => exact .refl rfl
  | some p => exact .one (e := .dataPhase p) id rfl

theorem NoneFailed.offer (s : Sys n) (r : Fin nrRequest) : NoneFailed s (s.offer r) := by
  unfold Sys.offer Sys.clean
  split
  · exact .refl rfl
  · exact .one id rfl

/-- A request that ends well. -/
theorem NoneFailed.ended (s : Sys n) : NoneFailed s (endRequest true s) := by
  unfold endRequest
  split
  · exact .one (e := .nullAccess) id rfl
  · split
    · exact .refl rfl
    · exact .one id rfl

theorem NoneFailed.pass (hp : Pass env s (.inr ()) s') : NoneFailed s s' := by
  cases hp with
  | idle _ => exact .refl rfl
  | reset _ _ _ => exact .one (e := .command _) id rfl
  | recalibrate _ _ _ _ => exact .one (e := .command _) id rfl
  | read _ _ _ _ => exact .one (e := .command _) id rfl
  | write _ _ _ _ _ => exact NoneFailed.trans (.one (e := .command _) id rfl) (.portWrite ..)

theorem NoneFailed.own {x y : Submission n × Sys n} (hstep : Own x y) :
    NoneFailed x.2 y.2 := by
  cases hstep with
  | lock _ _ _ => exact .refl rfl
  | check _ _ _ => exact .refl rfl
  | giveUp => exact .refl rfl
  | fill _ => exact .refl rfl
  | queue _ _ => exact .offer ..

end EgGS
