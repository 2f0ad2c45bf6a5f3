import EgGS.Block.Effect

/-!
# Requests that succeed

A request is given up when it has had `MAX_ERRORS` errors, or when `do_hd_request`
finds it outside its partition.  `Env.Spares which` says that the hardware never brings
a request with a command in `which` that far: when a transfer fails, the request may be
tried again.  `Spared` then holds along every run that queues only requests inside their
partition: none of them ever ends as failed.

The partition is tested again at every retry, and then the sector may be the second one
of the block; at the end of a partition the test fails there.
-/

namespace EgGS

open Lib Prog Relation

variable {n : ℕ} {env : Env n} {k : ℕ} {s s' : Sys n}
variable {sub : Submission n} {r : Fin nrRequest} {b : Fin n} {which : Rw → Prop}

/-! ## Requests that are not given up -/

/-- `do_hd_request` finds the block inside its partition. -/
def Geometry.Inside (geo : Geometry) (dev block : ℕ) : Prop :=
  outOfPartition geo dev (block * 2 % 4294967296) = false

/-- `do_hd_request` would send the request in slot `r` to the controller. -/
def Sys.Passes (s : Sys n) (r : Fin nrRequest) : Prop :=
  outOfPartition s.geo (unsigned (s.request r).dev) (s.request r).sector = false

/-- If the request in service is one of `which`, it can take another error. -/
def Sys.Retryable (which : Rw → Prop) (s : Sys n) : Prop :=
  ∀ r, s.current = some r → which (s.request r).cmd →
    (s.request r).errors + 1 < maxErrors ∧ s.Passes r

/-- Transfers fail only for requests that can take another error, unless their command
is not in `which`. -/
structure Env.Spares (env : Env n) (which : Rw → Prop) : Prop where
  irq : ∀ s i, env.irq s = some i → winResult i.status = false → s.Retryable which
  drq : ∀ s, env.drq s = false → s.Retryable which

/-- The end of a request of `which` that failed. -/
def Event.Failed (which : Rw → Prop) : Event n → Prop
  | .ended _ cmd false _ _ => which cmd
  | _ => False

/-- Every queued request of `which` is inside its partition. -/
def Sys.Placed (which : Rw → Prop) (s : Sys n) : Prop :=
  ∀ b cmd, which cmd → s.Queued b cmd → s.geo.Inside (s.buf b).bDev (s.buf b).bBlocknr

theorem Sys.Placed.congr (h : s.Placed which) (hrest : s'.rest = s.rest)
    (hsub : ∀ b cmd, s'.Queued b cmd → s.Queued b cmd) : s'.Placed which := by
  intro b cmd hcmd hb
  have hgeo : s'.geo = s.geo := congrArg Rest.geo hrest
  have hdev : (s'.buf b).bDev = (s.buf b).bDev := congrArg (fun r => (r.links b).bDev) hrest
  have hnr : (s'.buf b).bBlocknr = (s.buf b).bBlocknr :=
    congrArg (fun r => (r.links b).bBlocknr) hrest
  rw [hgeo, hdev, hnr]
  exact h b cmd hcmd (hsub b cmd hb)

theorem Sys.Placed.effect (h : s.Placed which) (heff : Effect sub s s') : s'.Placed which := by
  cases heff with
  | none hrest _ _ hqueued _ => exact h.congr hrest fun b cmd => (hqueued b cmd).mp
  | load hrest _ _ _ _ _ hqueued _ => exact h.congr hrest fun b cmd => (hqueued b cmd).mp
  | save hrest _ _ _ _ hqueued _ => exact h.congr hrest fun b cmd => (hqueued b cmd).mp
  | done hrest _ _ _ _ _ hqueued _ _ =>
      exact h.congr hrest fun b cmd hb => ((hqueued b cmd).mp hb).1

theorem Sys.Placed.effects (h : s.Placed which) (hpath : Effects sub s s') : s'.Placed which := by
  induction hpath with
  | refl => exact h
  | tail _ heff ih => exact ih.effect heff

/-- A request that was not started passes the test. -/
theorem Pool.passes {q : List (Fin nrRequest)} (h : Pool sub s q) (hplaced : s.Placed which)
    (hr : r ∈ q) (htwo : (s.request r).nrSectors = 2) (hcmd : which (s.request r).cmd) :
    s.Passes r := by
  obtain ⟨b, hb⟩ := h.goodMem hr
  have hin := hplaced b _ hcmd ⟨r, (h.slots r).mpr (.inl hr), hb.bh, rfl⟩
  rw [Sys.Passes, hb.unsigned_dev, hb.sector, htwo]
  exact hin

/-! ## The invariant -/

/-- No request of `which` has failed, and after a reset or a recalibration the request in
service will be sent. -/
structure Spared (which : Rw → Prop) (s : Sys n) : Prop where
  log : ∀ e ∈ s.log, ¬ e.Failed which
  resumed : s.handler = .recalIntr → ∀ r, s.current = some r → which (s.request r).cmd →
    s.Passes r

/-- No request of `which` has failed, and the request in service will be sent. -/
structure Sendable (which : Rw → Prop) (s : Sys n) : Prop where
  log : ∀ e ∈ s.log, ¬ e.Failed which
  sent : ∀ r, s.current = some r → which (s.request r).cmd → s.Passes r

theorem Sendable.spared (h : Sendable which s) : Spared which s :=
  ⟨h.log, fun _ => h.sent⟩

theorem endRequest_spared {ok : Bool} (hcur : s.current = some r)
    (hbh : (s.request r).bh = some b) (hlog : ∀ e ∈ s.log, ¬ e.Failed which)
    (hcmd : ok = true ∨ ¬ which (s.request r).cmd) :
    ∀ e ∈ (endRequest ok s).log, ¬ e.Failed which := by
  intro e he
  rw [endRequest_eq ok hcur hbh] at he
  rcases List.mem_cons.mp he with rfl | he
  · rcases hcmd with rfl | hcmd
    · exact id
    · cases ok with
      | true => exact id
      | false => exact hcmd
  · exact hlog e he

/-- When a request ends, the next one was not started. -/
theorem Pool.sendable_next {q : List (Fin nrRequest)} (ok : Bool) (h : Pool sub s (r :: q))
    (same : SamePool (EgGS.endRequest ok s) s') (hplaced : s'.Placed which)
    (hlog : ∀ e ∈ s'.log, ¬ e.Failed which) : Sendable which s' := by
  have hq := (h.endRequest ok).congr same
  refine ⟨hlog, fun r' hr' => ?_⟩
  obtain ⟨q', hq'⟩ := hq.eq_cons hr'
  exact hq.passes hplaced (hq' ▸ List.mem_cons_self ..) (h.next_fresh ok same hr').1

theorem Sendable.congr (h : Sendable which s) (hgeo : s'.geo = s.geo)
    (hreq : ∀ r, s.current = some r → (s'.request r).dev = (s.request r).dev ∧
      (s'.request r).sector = (s.request r).sector ∧ (s'.request r).cmd = (s.request r).cmd)
    (hcur : s'.current = s.current) (hlog : ∀ e ∈ s'.log, e ∈ s.log ∨ e.Minor) :
    Sendable which s' := by
  refine ⟨fun e he => ?_, fun r hr hcmd => ?_⟩
  · rcases hlog e he with he | he
    · exact h.log e he
    · cases e with
      | ended b cmd ok data disk => exact he.elim
      | _ => exact id
  · rw [hcur] at hr
    obtain ⟨hdev, hsector, hcmd'⟩ := hreq r hr
    rw [Sys.Passes, hgeo, hdev, hsector]
    exact h.sent r hr (hcmd' ▸ hcmd)

/-- A failed transfer of a request that can take another error. -/
theorem Pooled.failed_sendable (h : Pooled sub s) (hplaced : s.Placed which)
    (hlog : ∀ e ∈ s.log, ¬ e.Failed which) (hretry : s.Retryable which) (hf : Failed s s') :
    Sendable which s' := by
  have hnull : ∀ (t : Sys n) (j : ℕ) (e : Event n),
      e ∈ List.replicate j .nullAccess ++ t.log → e ∈ t.log ∨ e.Minor := by
    intro t j e he
    rcases List.mem_append.mp he with he | he
    · rw [List.eq_of_mem_replicate he]
      exact .inr trivial
    · exact .inl he
  cases hf with
  | @null reset j hcur =>
      refine ⟨fun e he => ?_, fun r hr => ?_⟩
      · rcases List.mem_append.mp he with he | he
        · rw [List.eq_of_mem_replicate he]
          exact id
        · exact hlog e he
      · exact absurd (hcur.symm.trans hr) (by simp)
  | @retry r reset hcur _ _ =>
      refine ⟨hlog, fun r' hr' hcmd => ?_⟩
      obtain rfl : r = r' := Option.some.inj (hcur.symm.trans hr')
      have hpasses := (hretry r hcur (by simpa [addError] using hcmd)).2
      simpa [Sys.Passes, addError] using hpasses
  | @giveUp r reset j hcur hmax _ =>
      obtain ⟨q, hq⟩ := h
      obtain ⟨q, rfl⟩ := hq.eq_cons hcur
      obtain ⟨b, hb⟩ := hq.goodMem (List.mem_cons_self ..)
      have hcmd : ¬ which (s.request r).cmd := fun hcmd => by
        have := (hretry r hcur hcmd).1
        omega
      have hfirst : Effect sub s (addError r s) :=
        Head.change_effect (r := r)
        (f := fun req => { req with errors := req.errors + 1 }) rfl rfl rfl
      have hhead : Head sub (addError r s) r b := (hq.head hb).change rfl rfl rfl
      have hsend := hq.addError.sendable_next false (.of_buf rfl rfl rfl)
        ((hplaced.effect hfirst).effect (hhead.done_effect false (by simp)))
        (endRequest_spared hhead.current hhead.bh hlog (.inr (by simpa [addError] using hcmd)))
      exact hsend.congr rfl (fun _ _ => ⟨rfl, rfl, rfl⟩) rfl (hnull _ j)

/-! ## The invariant along the driver -/

theorem Between.sendable_again (h : Between sub s) (hspares : env.Spares which)
    (hplaced : s.Placed which) (hsend : Sendable which s) (hp : Pass env s (.inl ()) s') :
    Sendable which s' := by
  have hplaced' := hplaced.effects (h.effects hp)
  cases hp with
  | @reject r hcur hout =>
      obtain ⟨q, hq⟩ := h.pooled
      obtain ⟨q, rfl⟩ := hq.eq_cons hcur
      obtain ⟨b, hb⟩ := hq.goodMem (List.mem_cons_self ..)
      refine hq.sendable_next false (.of_buf rfl rfl rfl) hplaced'
        (endRequest_spared hcur hb.bh hsend.log (.inr fun hcmd => ?_))
      exact absurd (hout.symm.trans (hsend.sent r hcur hcmd)) (by decide)
  | @timeout r served _ _ _ hdrq =>
      have hissue : Effect sub s (s.issue (s.transferCommand r .write) .writeIntr) :=
        issue_effect s _ _
      have hdrop : Effect sub (s.issue (s.transferCommand r .write) .writeIntr)
          (s.issue (s.transferCommand r .write) .writeIntr).drop :=
        .of_same rfl rfl rfl rfl (.refl rfl)
      refine (h.drop (s.transferCommand r .write) .writeIntr).pooled.failed_sendable
        ((hplaced.effect hissue).effect hdrop) (fun e he => ?_)
        (hspares.drq (s.issue (s.transferCommand r .write) .writeIntr) hdrq) (failed_cases env _)
      rcases List.mem_cons.mp he with rfl | he
      · exact id
      · exact hsend.log e he

theorem Sendable.returns (h : Sendable which s) (hp : Pass env s (.inr ()) s') :
    Spared which s' := by
  have hissue : ∀ c, ∀ e ∈ .command c :: s.log, ¬ e.Failed which := by
    intro c e he
    rcases List.mem_cons.mp he with rfl | he
    · exact id
    · exact h.log e he
  cases hp with
  | idle _ => exact h.spared
  | @reset r c served _ _ => exact ⟨hissue _, fun _ => h.sent⟩
  | @recalibrate r c served _ _ _ => exact ⟨hissue _, fun _ => h.sent⟩
  | read _ _ _ _ =>
      exact ⟨hissue _, fun hh => absurd hh (by simp)⟩
  | @write r served _ _ _ _ =>
      have hhandler : (portWrite (s.request r).buffer
          (s.issue (s.transferCommand r .write) .writeIntr)).handler = .writeIntr := by
        cases (s.request r).buffer <;> rfl
      refine ⟨?_, fun hh => absurd (hhandler.symm.trans hh) (by decide)⟩
      cases hptr : (s.request r).buffer with
      | none => exact hissue _
      | some p =>
          intro e he
          rcases List.mem_cons.mp he with rfl | he
          · exact id
          · exact hissue _ e he

theorem Between.spared (h : Between sub s) (hspares : env.Spares which)
    (hplaced : s.Placed which) (hsend : Sendable which s)
    (hdo : doHdRequest env k s = .ok () s') : Spared which s' :=
  doHdRequest_ensures (I := fun t => Between sub t ∧ t.Placed which ∧ Sendable which t)
    (fun hI hp => ⟨hI.1.again hp, hI.2.1.effects (hI.1.effects hp),
      hI.1.sendable_again hspares hI.2.1 hI.2.2 hp⟩)
    (fun hI hp => hI.2.2.returns hp) ⟨h, hplaced, hsend⟩ hdo

theorem Sys.offer_log (s : Sys n) (r : Fin nrRequest) (h : ∀ e ∈ s.log, ¬ e.Failed which) :
    ∀ e ∈ (s.offer r).log, ¬ e.Failed which := by
  unfold Sys.offer Sys.clean
  split
  · exact h
  · intro e he
    rcases List.mem_cons.mp he with rfl | he
    · exact id
    · exact h e he

theorem portRead_log (ptr : Option (BufPtr n)) (s : Sys n) :
    ∀ e ∈ (portRead ptr s).log, e ∈ s.log ∨ ¬ e.Failed which := by
  cases ptr with
  | none => exact fun e he => .inl he
  | some p =>
      intro e he
      rcases List.mem_cons.mp he with rfl | he
      · exact .inr id
      · exact .inl he

theorem portWrite_log (ptr : Option (BufPtr n)) (s : Sys n) :
    ∀ e ∈ (portWrite ptr s).log, e ∈ s.log ∨ ¬ e.Failed which := by
  cases ptr with
  | none => exact fun e he => .inl he
  | some p =>
      intro e he
      rcases List.mem_cons.mp he with rfl | he
      · exact .inr id
      · exact .inl he

theorem portWrite_handler (ptr : Option (BufPtr n)) (s : Sys n) :
    (portWrite ptr s).handler = s.handler := by
  cases ptr <;> rfl

/-- An interrupt up to the call of `do_hd_request`. -/
theorem Serving.sendable {ok : Bool} (h : Serving sub s) (hout : s.ctl.outstanding = true)
    (hplaced : s.Placed which) (hspared : Spared which s)
    (hretry : ok = false → s.Retryable which) (hh : Handled env ok s true s') :
    Sendable which s' := by
  obtain ⟨r, b, q, hq, hb, -⟩ := h.command hout
  have hq' : Pool sub (s.answer ok) (r :: q) := hq.congr (.of_buf rfl rfl rfl)
  have hcur : s.current = some r := hq.chain.1
  have hplaced' := hplaced.effects (h.effects hout hh)
  cases hh with
  | fail hok _ =>
      exact Pooled.failed_sendable ⟨_, hq'⟩ (hplaced.congr rfl fun _ _ => id) hspared.log
        (hretry hok) (failed_cases env _)
  | recal _ hrecal => exact ⟨hspared.log, hspared.resumed hrecal⟩
  | @readLast r' _ _ hcur' _ =>
      obtain rfl : r = r' := Option.some.inj (hcur.symm.trans hcur')
      refine hq'.sendable_next true hq'.readLast_same hplaced' (endRequest_spared (r := r) (b := b)
        (readSector_current.trans hcur) ?_ ?_ (.inl rfl))
      · rw [readSector_request]
        exact hb.bh
      · exact fun e he => (portRead_log _ _ e he).elim (hspared.log e) id
  | @writeLast r' _ _ hcur' _ =>
      obtain rfl : r = r' := Option.some.inj (hcur.symm.trans hcur')
      refine hq'.sendable_next true hq'.writeLast_same hplaced'
        (endRequest_spared (b := b) hcur ?_ hspared.log (.inl rfl))
      simpa [countSector] using hb.bh

/-- An interrupt after which the command goes on. -/
theorem Spared.handled {ok : Bool} (h : Spared which s) (hh : Handled env ok s false s') :
    Spared which s' := by
  have hnull : ∀ e ∈ .nullAccess :: s.log, ¬ e.Failed which := by
    intro e he
    rcases List.mem_cons.mp he with rfl | he
    · exact id
    · exact h.log e he
  cases hh with
  | unhandled hnone => exact ⟨h.log, fun hh => absurd (hnone.symm.trans hh) (by decide)⟩
  | nullRead _ hread _ => exact ⟨hnull, fun hh => absurd (hread.symm.trans hh) (by decide)⟩
  | nullWrite _ hwrite _ => exact ⟨hnull, fun hh => absurd (hwrite.symm.trans hh) (by decide)⟩
  | readMore _ _ _ _ =>
      exact ⟨fun e he => (portRead_log _ _ e he).elim (h.log e) id,
        fun hh => absurd hh (by simp)⟩
  | @writeMore r _ _ _ _ =>
      refine ⟨fun e he => (portWrite_log _ _ e he).elim (h.log e) id, fun hh => ?_⟩
      rw [writeNext, portWrite_handler] at hh
      exact absurd hh (by simp)

theorem Serving.spared_interrupt {i : Irq} (h : Serving sub s) (hspares : env.Spares which)
    (hirq : env.irq s = some i) (hout : s.ctl.outstanding = true) (hplaced : s.Placed which)
    (hspared : Spared which s) (hint : hdInterrupt i env k s = .ok () s') : Spared which s' := by
  rcases hdInterrupt_handled hint with hh | ⟨t, hh, hdo⟩
  · exact hspared.handled hh
  · exact (h.called hout hh).spared hspares (hplaced.effects (h.effects hout hh))
      (h.sendable hout hplaced hspared (hspares.irq s i hirq) hh) hdo

/-! ## The invariant along the request layer -/

/-- **Requests that are spared do not fail**, as long as all of them are queued for
blocks inside their partition. -/
theorem Serving.spared {x y : Submission n × Sys n} (henv : env.Answers)
    (hspares : env.Spares which) (h : Serving x.1 x.2) (hplaced : x.2.Placed which)
    (hspared : Spared which x.2) (hstep : Submit env x y) : Spared which y.2 := by
  obtain ⟨q, hq⟩ := h.pooled
  -- only an interrupt and the start of a request call `do_hd_request`
  cases hstep with
  | time clock intr => exact ⟨hspared.log, hspared.resumed⟩
  | interrupt hirq hint =>
      exact h.spared_interrupt hspares hirq (henv _ _ hirq) hplaced hspared hint
  | lock _ _ _ => exact ⟨hspared.log, hspared.resumed⟩
  | check _ _ _ => exact hspared
  | giveUp => exact ⟨hspared.log, hspared.resumed⟩
  | @fill s b rw r hfree =>
      refine ⟨hspared.log, fun hh r' hr' hcmd => ?_⟩
      have hne : r' ≠ r := by
        rintro rfl
        obtain ⟨q', rfl⟩ := hq.eq_cons hr'
        have hused : 0 ≤ (s.request r').dev := (hq.slots r').mpr (.inl (List.mem_cons_self ..))
        have hdev := (freeSlot_eq_some hfree).2
        omega
      simp only [Sys.Passes, Sys.setRequest_request, Sys.setRequest_geo,
        Function.update_of_ne hne] at hcmd ⊢
      exact hspared.resumed hh r' hr' hcmd
  | @start s s' buf cmd r k hcur hdo =>
      have hbetween := h.started hcur
      have hplaced' : Sys.Placed which (((s.offer r).start r).setIntr true) :=
        hplaced.congr (s.offer_rest r) fun b cmd => (Sys.queued_of_next (s.offer_next r) b cmd).mp
      obtain ⟨q', hq'⟩ := hbetween.pooled
      refine hbetween.spared hspares hplaced' ⟨s.offer_log r hspared.log, fun r' hr' hcmd => ?_⟩ hdo
      obtain rfl : r = r' := Option.some.inj hr'
      obtain ⟨q'', hq''⟩ := hq'.eq_cons hr'
      refine hq'.passes hplaced' (hq'' ▸ List.mem_cons_self ..) ?_ hcmd
      simpa [Sys.offer_request] using (hq.untouched r (.inr rfl)).2
  | @queue s buf cmd r head tmp e k hcur helev =>
      have hhandler : (((s.offer r).linkBehind tmp r).setIntr true).handler = s.handler := by
        unfold Sys.linkBehind Sys.offer Sys.clean
        split <;> rfl
      have hgeo : (((s.offer r).linkBehind tmp r).setIntr true).geo = s.geo := by
        unfold Sys.linkBehind Sys.offer Sys.clean
        split <;> rfl
      have hcurrent : (((s.offer r).linkBehind tmp r).setIntr true).current = s.current := by
        simp [Sys.linkBehind, Sys.offer]
      refine ⟨s.offer_log r hspared.log, fun hh r' hr' => ?_⟩
      obtain ⟨next, hnext⟩ := (s.offer r).linkBehind_next tmp r r'
      obtain ⟨next', hnext'⟩ := s.offer_next r r'
      simp only [Sys.Passes, hgeo, Sys.setIntr_request, hnext, hnext']
      exact hspared.resumed (hhandler ▸ hh) r' (hcurrent ▸ hr')

end EgGS
