import EgGS.Block.Micro

/-!
# Null accesses of the driver

`bad_rw_intr` looks at `CURRENT_REQUEST` again after `end_request` may have
emptied the queue, and so do the messages of its callers; the handlers look at
it on an interrupt that nobody waits for.  `SafeIrq` is the condition on the
state before an interrupt under which none of this happens.

The call of `do_hd_request` in `add_request` has interrupts enabled, and reads
`CURRENT_REQUEST` again wherever one may have emptied the queue: behind its
test, and at both ends of the wait for DRQ.  `nullLimits` adds to `SafeIrq` that
there still is a request then, and that a time-out does not give up the last
one; `no_null_access` shows that this is enough.

Within one call of `do_hd_request` from a handler the error count cannot run up
to its limit: after the fourth error a reset is due, which ends the call.  Only a
request that enters it with one error left can be given up there.
-/

namespace EgGS

open Lib Prog Relation

variable {n : ℕ} {env : Env n} {k : ℕ} {s s' s₀ : Sys n}
variable {sub : Submission n} {r : Fin nrRequest}

/-- The write that `do_hd_request` would send for the request in slot `r` gets no DRQ. -/
structure WriteTimesOut (env : Env n) (s : Sys n) (r : Fin nrRequest) : Prop where
  cmd : (s.request r).cmd = .write
  reset : s.reset = false
  recalibrate : s.recalibrate = false
  inRange : outOfPartition s.geo (unsigned (s.request r).dev) (s.request r).sector = false
  drq : env.drq (s.issue (s.transferCommand r .write) .writeIntr) = false

/-- The interrupt `i` finds a request where its handler looks for one, and does not
make the driver give up the last request of the queue. -/
def SafeIrq (env : Env n) (s : Sys n) (i : Irq) : Prop :=
  match s.current with
  | none => s.handler = .none ∨ s.handler = .recalIntr ∧ winResult i.status = true
  | some r =>
      (s.request r).next = none → (s.request r).errors + 1 = maxErrors → s.handler ≠ .none →
        winResult i.status = true ∧ (s.handler = .recalIntr → ¬ WriteTimesOut env s r)

/-- What a run may do: an interrupt is safe, and the call of `add_request` finds a request
wherever it looks for one and does not give up the last one at the end of its wait. -/
@[simps] def nullLimits (env : Env n) : Limits n where
  irq := SafeIrq env
  goOn s := s.current ≠ none
  drq _ s := s.current ≠ none
  timeout s := ∃ r, s.current = some r ∧
    ((s.request r).errors + 1 = maxErrors → (s.request r).next ≠ none)

/-- Between interrupts: no null access so far, and the request in service has an
error left. -/
structure Calm (sub : Submission n) (s : Sys n) : Prop where
  pooled : Pooled sub s
  log : .nullAccess ∉ s.log
  errors : ∀ r, s.current = some r → (s.request r).errors + 1 ≤ maxErrors

/-- Where `do_hd_request` looks at the queue: the last request is not about to be given up. -/
structure Poised (env : Env n) (sub : Submission n) (s : Sys n) : Prop extends Calm sub s where
  last : ∀ r, s.current = some r → (s.request r).errors + 1 = maxErrors →
    (s.request r).next = none → ¬ WriteTimesOut env s r

theorem Poised.of_fresh (hpooled : Pooled sub s) (hlog : .nullAccess ∉ s.log)
    (hfresh : ∀ r, s.current = some r → (s.request r).errors = 0) : Poised env sub s where
  pooled := hpooled
  log := hlog
  errors r hr := by rw [hfresh r hr]; decide
  last r hr hmany := by rw [hfresh r hr] at hmany; exact absurd hmany (by decide)

/-- Ending the request in service is no null access, and its successor has no errors. -/
theorem Pool.endRequest_poised {q : List (Fin nrRequest)} (h : Pool sub s (r :: q))
    (hlog : .nullAccess ∉ s.log) (ok : Bool) : Poised env sub (EgGS.endRequest ok s) := by
  obtain ⟨b, hb⟩ := h.goodMem (List.mem_cons_self ..)
  refine .of_fresh ⟨q, h.endRequest ok⟩ ?_
    fun r' hr' => (h.next_fresh ok (.of_buf rfl rfl rfl) hr').2
  rw [endRequest_eq ok h.chain.1 hb.bh]
  simpa [Sys.note, Sys.dequeue] using hlog

theorem Poised.failed (h : Calm sub s) (hcur : s.current = some r)
    (hlast : (s.request r).errors + 1 = maxErrors → (s.request r).next ≠ none)
    (hf : Failed s s') : Poised env sub s' := by
  obtain ⟨q, hq⟩ := h.pooled
  obtain ⟨q, rfl⟩ := hq.eq_cons hcur
  cases hf with
  | null hnull => exact absurd (hcur.symm.trans hnull) (by simp)
  | @retry r' reset hr' hfew hreset =>
      obtain rfl : r = r' := Option.some.inj (hcur.symm.trans hr')
      have herrors : ((addError r s).request r).errors = (s.request r).errors + 1 := by
        simp [addError]
      refine ⟨⟨⟨_, hq.addError.congr (.of_buf rfl rfl rfl)⟩, h.log, fun r' hr' => ?_⟩,
        fun r' hr' hmany _ hout => ?_⟩
      · obtain rfl : r = r' := Option.some.inj (hcur.symm.trans hr')
        exact herrors ▸ hfew
      · obtain rfl : r = r' := Option.some.inj (hcur.symm.trans hr')
        have hmany' : (s.request r).errors + 1 + 1 = maxErrors := by
          rw [← herrors]
          exact hmany
        have hreset' := hreset (by simp only [maxErrors] at hmany' ⊢; omega)
        exact absurd (hreset'.symm.trans hout.reset) (by decide)
  | @giveUp r' reset j hr' hmany hj =>
      obtain rfl : r = r' := Option.some.inj (hcur.symm.trans hr')
      obtain ⟨b, hb⟩ := hq.addError.goodMem (List.mem_cons_self ..)
      have hnext : (endRequest false (addError r s)).current = (s.request r).next := by
        rw [endRequest_eq false hq.addError.chain.1 hb.bh]
        simp [addError]
      obtain rfl : j = 0 := hj.mpr <| by
        rw [hnext]
        exact hlast (Nat.le_antisymm (h.errors r hcur) hmany)
      have hended : Poised env sub (endRequest false (addError r s)) :=
        hq.addError.endRequest_poised h.log false
      exact .of_fresh (hended.pooled.congr (.of_buf rfl rfl rfl)) hended.log fun r' hr' =>
        (hq.addError.next_fresh false (.of_buf rfl rfl rfl) hr').2

/-! ## Passes -/

theorem Poised.again (h : Poised env sub s) (hp : Pass env s (.inl ()) s') :
    Poised env sub s' := by
  obtain ⟨q, hq⟩ := h.pooled
  cases hp with
  | reject hcur _ =>
      obtain ⟨q, rfl⟩ := hq.eq_cons hcur
      exact hq.endRequest_poised h.log false
  | @timeout r served hreset hrecal hwrite hdrq =>
      have hsent : Calm sub (s.issue (s.transferCommand r .write) .writeIntr).drop :=
        ⟨h.pooled.congr (.of_buf rfl rfl rfl), by simpa using h.log, h.errors⟩
      exact Poised.failed hsent served.current
        (fun hmany hnext => h.last r served.current hmany hnext
        ⟨hwrite, hreset, hrecal, served.inRange, hdrq⟩) (failed_cases env _)

theorem Calm.wrote (h : Calm sub s) (ptr : Option (BufPtr n)) :
    Calm sub (portWrite ptr s) := by
  refine ⟨h.pooled.congr (.portWrite ..), ?_, fun r hr => ?_⟩
  · unfold portWrite
    split <;> simpa using h.log
  · rw [portWrite_request]
    exact h.errors r (by simpa using hr)

theorem Calm.sent (h : Calm sub s) (c : Command) (handler : Handler) :
    Calm sub (s.issue c handler) :=
  ⟨h.pooled.congr (.issue ..), by simpa using h.log, h.errors⟩

theorem Calm.returns (h : Calm sub s) (hp : Pass env s (.inr ()) s') : Calm sub s' := by
  have hpooled := h.pooled.pass hp
  cases hp with
  | idle _ => exact h
  | reset _ _ _ => exact ⟨hpooled, by simpa using h.log, h.errors⟩
  | recalibrate _ _ _ _ => exact ⟨hpooled, by simpa using h.log, h.errors⟩
  | read _ _ _ _ => exact h.sent ..
  | write _ _ _ _ _ => exact (h.sent ..).wrote _

/-! ## Interrupts -/

theorem Calm.called {i : Irq} (h : Calm sub s) (hsafe : SafeIrq env s i)
    (hh : Handled env (winResult i.status) s true s') : Poised env sub s' := by
  have hanswer : Calm sub (s.answer (winResult i.status)) :=
    ⟨h.pooled.congr (.of_buf rfl rfl rfl), h.log, h.errors⟩
  unfold SafeIrq at hsafe
  cases hh with
  | fail hok hhandler =>
      -- with an empty queue a failure is harmless for the dummy handler only
      rcases Option.eq_none_or_eq_some s.current with hcur | ⟨r, hcur⟩
      · rw [hcur] at hsafe
        rcases hsafe with hnone | ⟨-, hgood⟩
        · exact absurd hnone hhandler
        · exact absurd (hok.symm.trans hgood) (by decide)
      · rw [hcur] at hsafe
        refine Poised.failed hanswer hcur (fun hmany hnext => ?_) (failed_cases env _)
        exact absurd (hok.symm.trans (hsafe hnext hmany hhandler).1) (by decide)
  | recal _ hrecal =>
      -- `recal_intr` goes on to `do_hd_request`, which must not give the last request up
      refine ⟨hanswer, fun r hcur hmany hnext hout => ?_⟩
      replace hcur : s.current = some r := hcur
      rw [hcur] at hsafe
      exact (hsafe hnext hmany (by simp [hrecal])).2 hrecal
        ⟨hout.cmd, hout.reset, hout.recalibrate, hout.inRange, hout.drq⟩
  | @readLast r _ _ hcur _ =>
      obtain ⟨q, hq⟩ := hanswer.pooled
      obtain ⟨q, rfl⟩ := hq.eq_cons hcur
      obtain ⟨b, hb⟩ := hq.goodMem (List.mem_cons_self ..)
      refine .of_fresh ⟨q, (hq.endRequest true).congr hq.readLast_same⟩ ?_
        fun r' hr' => (hq.next_fresh true hq.readLast_same hr').2
      have hcur' : (readSector r (s.answer (winResult i.status))).current = some r :=
        readSector_current.trans hcur
      rw [endRequest_eq true hcur' (by rw [readSector_request]; exact hb.bh)]
      have hlog : .nullAccess ∉ (readSector r (s.answer (winResult i.status))).log := by
        simp only [readSector, portRead, hb.buffer]
        simpa using h.log
      simpa using hlog
  | @writeLast r _ _ hcur _ =>
      obtain ⟨q, hq⟩ := hanswer.pooled
      obtain ⟨q, rfl⟩ := hq.eq_cons hcur
      obtain ⟨b, hb⟩ := hq.goodMem (List.mem_cons_self ..)
      refine .of_fresh ⟨q, (hq.endRequest true).congr hq.writeLast_same⟩ ?_
        fun r' hr' => (hq.next_fresh true hq.writeLast_same hr').2
      rw [endRequest_eq (b := b) true (by simpa [countSector] using hcur)
        (by simpa [countSector] using hb.bh)]
      simpa [countSector] using h.log

theorem Calm.handled {i : Irq} (h : Calm sub s) (hsafe : SafeIrq env s i)
    (hh : Handled env (winResult i.status) s false s') : Calm sub s' := by
  have hpooled := h.pooled.handled hh
  unfold SafeIrq at hsafe
  cases hh with
  | unhandled _ => exact ⟨hpooled, h.log, h.errors⟩
  | nullRead _ hread hcur =>
      rw [hcur] at hsafe
      rcases hsafe with hnone | ⟨hrecal, -⟩
      · exact absurd (hread.symm.trans hnone) (by decide)
      · exact absurd (hread.symm.trans hrecal) (by decide)
  | nullWrite _ hwrite hcur =>
      rw [hcur] at hsafe
      rcases hsafe with hnone | ⟨hrecal, -⟩
      · exact absurd (hwrite.symm.trans hnone) (by decide)
      · exact absurd (hwrite.symm.trans hrecal) (by decide)
  | @readMore r _ _ hcur _ =>
      refine ⟨hpooled, ?_, fun r' hr' => ?_⟩
      · simp only [readSector, portRead]
        split <;> simpa using h.log
      · have hcur' : (readSector r (s.answer (winResult i.status))).current = some r :=
          readSector_current.trans hcur
        obtain rfl : r = r' := Option.some.inj (hcur'.symm.trans hr')
        change ((readSector r (s.answer (winResult i.status))).request r).errors + 1 ≤ _
        rw [readSector_request]
        exact (by decide : 0 + 1 ≤ maxErrors)
  | @writeMore r _ _ hcur _ =>
      refine ⟨hpooled, ?_, fun r' hr' => ?_⟩
      · simp only [writeNext, portWrite]
        split <;> simpa [countSector] using h.log
      · simp only [writeNext, portWrite_current] at hr'
        obtain rfl : r = r' := Option.some.inj (hcur.symm.trans hr')
        simp only [writeNext, portWrite_request]
        simpa [countSector, Request.advance] using h.errors r hcur

/-! ## Runs -/

/-- The steps of `ll_rw_block` leave the request in service alone. -/
theorem Calm.own {x y : Submission n × Sys n} (h : Calm x.1 x.2) (hstep : Own x y) :
    Calm y.1 y.2 := by
  have hpooled := h.pooled.submit (hstep.submit (Env.diligent 0x50))
  cases hstep with
  | lock _ _ _ => exact ⟨hpooled, h.log, h.errors⟩
  | check _ _ _ => exact ⟨hpooled, h.log, h.errors⟩
  | giveUp => exact ⟨hpooled, h.log, h.errors⟩
  | @fill s b rw r _ =>
      refine ⟨hpooled, h.log, fun r' hr' => ?_⟩
      by_cases hr : r' = r
      · subst hr; simp [makeRequest, maxErrors]
      · simpa [hr] using h.errors r' hr'
  | @queue s buf cmd r head tmp e k hcur helev =>
      refine ⟨hpooled, ?_, fun r' hr' => ?_⟩
      · have hlog := h.log
        unfold Sys.linkBehind Sys.offer Sys.clean
        split <;> simpa using hlog
      · obtain ⟨next, hnext⟩ := (s.offer r).linkBehind_next tmp r r'
        obtain ⟨next', hnext'⟩ := s.offer_next r r'
        rw [Sys.setIntr_request, hnext, hnext']
        exact h.errors r' (by simpa [Sys.linkBehind] using hr')

/-- The first request of the queue has no errors yet. -/
theorem Calm.start {buf : Option (Fin n)} {cmd : Option Rw} (h : Calm ⟨buf, cmd, some r⟩ s)
    (hcur : s.current = none) : Calm .idle (((s.offer r).start r).setIntr true) := by
  obtain ⟨q, hq⟩ := h.pooled
  refine ⟨⟨_, hq.startQueue hcur⟩, ?_, fun r' hr' => ?_⟩
  · have hlog := h.log
    unfold Sys.offer Sys.clean
    split <;> simpa using hlog
  · obtain rfl : r = r' := Option.some.inj hr'
    have hzero := (hq.untouched r (.inr rfl)).1
    simp [Sys.offer_request, hzero, maxErrors]

/-- The wait for DRQ times out. -/
theorem Calm.timeout (h : Calm sub s) (hlimit : (nullLimits env).timeout s) :
    Calm sub (printCurrent (badRwIntr env s.drop)) := by
  obtain ⟨r, hcur, hnext⟩ := hlimit
  have hdrop : Calm sub s.drop := ⟨h.pooled.congr (.of_buf rfl rfl rfl), h.log, h.errors⟩
  have hpoised : Poised env sub (printCurrent (badRwIntr env s.drop)) :=
    .failed hdrop hcur hnext (failed_cases env _)
  exact hpoised.toCalm

/-- At every moment of a run: no null access so far, and where a handler has called
`do_hd_request`, its passes find what they look for. -/
structure Safe (env : Env n) (x : Moment n) : Prop where
  calm : Calm x.sub x.sys
  poised : x.called = true → Poised env x.sub x.sys

theorem Safe.uncalled {x : Moment n} (h : Calm x.sub x.sys) (hcalled : x.called = false) :
    Safe env x :=
  ⟨h, fun hcall => absurd (hcalled.symm.trans hcall) (by decide)⟩

theorem Safe.step {x y : Moment n} (h : Safe env x) (hstep : Micro env (nullLimits env) x y) :
    Safe env y := by
  have hcalm := h.calm
  cases hstep with
  | time _ _ =>
      exact .uncalled ⟨hcalm.pooled.congr (.of_buf rfl rfl rfl), hcalm.log, hcalm.errors⟩ rfl
  | elsewhere helse =>
      refine .uncalled ⟨hcalm.pooled.congr helse.samePool, helse.log ▸ hcalm.log, fun r hr =>
        ?_⟩ rfl
      rw [helse.request]
      exact hcalm.errors r (helse.current ▸ hr)
  | own hown => exact .uncalled (hcalm.own hown) rfl
  | start hcur => exact .uncalled (hcalm.start hcur) rfl
  | @interrupt _ _ _ _ _ _ i called _ hsafe hh =>
      cases called with
      | false => exact .uncalled (hcalm.handled hsafe hh) rfl
      | true => exact ⟨(hcalm.called hsafe hh).toCalm, fun _ => hcalm.called hsafe hh⟩
  | again hp => exact ⟨((h.poised rfl).again hp).toCalm, fun _ => (h.poised rfl).again hp⟩
  | done hp => exact .uncalled (hcalm.returns hp) rfl
  | leave _ => exact .uncalled hcalm rfl
  | begin _ => exact .uncalled hcalm rfl
  -- `CURRENT_REQUEST` is used without another test
  | lost hgo hcur => exact absurd hcur hgo
  | reject _ hcur _ =>
      obtain ⟨q, hq⟩ := hcalm.pooled
      obtain ⟨q, rfl⟩ := hq.eq_cons hcur
      have hpoised : Poised env _ _ := hq.endRequest_poised hcalm.log false
      exact .uncalled hpoised.toCalm rfl
  | command _ _ _ hp => exact .uncalled (hcalm.returns hp) rfl
  | write _ _ _ _ _ => exact .uncalled (hcalm.sent ..) rfl
  | drq _ _ _ => exact .uncalled (hcalm.wrote _) rfl
  | drqLost _ hsome hcur => exact absurd hcur hsome
  | timeout _ hlimit => exact .uncalled (hcalm.timeout hlimit) rfl

end EgGS
