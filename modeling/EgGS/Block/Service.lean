import EgGS.Block.Frame
import EgGS.Block.Order
import EgGS.Block.Success
import EgGS.Block.Waiting

/-!
# Requests are served

`Env.Works which` is a disk that serves every request: the controller is ready, an
outstanding command is answered after a while, and no request with a command in `which` is
brought to its last error.  `Working` is what the request layer is like on such hardware,
where the blocks of such requests lie inside their partitions: nothing in it panics, faults
or loops, and the request in service has a command outstanding.

So the interrupt handlers, the waits and `ll_rw_block` return.  Every interrupt either ends
the request in service or leaves it fewer attempts, and the next one arrives in time;
`Delayed` counts both down.
-/

namespace EgGS

open Lib Prog Relation

variable {n : ℕ} {env : Env n} {k : ℕ} {s s' : Sys n}
variable {sub : Submission n} {r : Fin nrRequest} {b : Fin n} {q : List (Fin nrRequest)}
variable {which : Rw → Prop}

/-- The drives have sectors and heads, and not more than the controller can address. -/
structure Geometry.Drives (geo : Geometry) : Prop where
  count : geo.nrHd ≤ 2
  sect : ∀ d < geo.nrHd, 1 ≤ (geo.hdInfo d).sect
  head : ∀ d < geo.nrHd, 1 ≤ (geo.hdInfo d).head ∧ (geo.hdInfo d).head ≤ 16

/-- The hardware interrupts the kernel at its next look. -/
def Env.Calls (env : Env n) (s : Sys n) : Prop := (env.irq s).isSome = true ∧ 0 < env.burst s

/-- The hardware serves every request, and those of `which` well. -/
structure Env.Works (env : Env n) (which : Rw → Prop) : Prop where
  answers : env.Answers
  spares : env.Spares which
  ready : ∀ s : Sys n, env.ready s = true
  prompt : ∀ s : Sys n, s.ctl.outstanding = true → ∃ d, env.Calls { s with clock := s.clock + d }

/-- The request layer on hardware that works. -/
structure Working (which : Rw → Prop) (sub : Submission n) (s : Sys n) : Prop where
  serving : Serving sub s
  spared : Spared which s
  drives : s.geo.Drives
  enabled : s.hdEnabled = true
  inside : ∀ b cmd, which cmd → (s.buf b).bDev ≠ 0 →
    s.geo.Inside (s.buf b).bDev (s.buf b).bBlocknr
  going : s.current ≠ none → s.ctl.outstanding = true

theorem Good.dev_ne_zero (h : Good s r b) : (s.buf b).bDev ≠ 0 := by
  intro hzero
  have hmajor := h.major
  rw [hzero] at hmajor
  exact absurd hmajor (by decide)

theorem Pooled.queued_dev {cmd : Rw} (h : Pooled sub s) (hb : s.Queued b cmd) :
    (s.buf b).bDev ≠ 0 := by
  obtain ⟨q, hq⟩ := h
  obtain ⟨r, hused, hbh, -⟩ := hb
  obtain ⟨c, hc⟩ := hq.good r ((hq.slots r).mp hused)
  obtain rfl : b = c := Option.some.inj (hbh.symm.trans hc.bh)
  exact hc.dev_ne_zero

theorem Working.placed (h : Working which sub s) : s.Placed which := fun b cmd hcmd hb =>
  h.inside b cmd hcmd (h.serving.pooled.queued_dev hb)

/-! ## `do_hd_request` returns -/

/-- A command for an existing drive is taken. -/
theorem hdOut_avoids_any {c : Command} {h : Handler} (hready : ∀ s, env.ready s = true)
    (hdrive : c.drive ≤ 1) (hhead : c.head ≤ 15) (s : Sys n) :
    Avoids (· ≠ .spin) (hdOut c h) env s := by
  intro k why t hstop
  have hok : hdOut c h env k s = .ok () (s.issue c h) :=
    hdOut_eq_ok.mpr ⟨by omega, hready s, rfl⟩
  rw [hok] at hstop
  exact absurd hstop (by simp)

/-- The drive of a sector inside its partition exists. -/
theorem Geometry.Drives.of_inside {geo : Geometry} {dev sector : ℕ} (h : geo.Drives)
    (hin : outOfPartition geo dev sector = false) :
    minor dev / 5 ≤ 1 ∧ 1 ≤ (geo.hdInfo (minor dev / 5)).sect ∧
      1 ≤ (geo.hdInfo (minor dev / 5)).head ∧ (geo.hdInfo (minor dev / 5)).head ≤ 16 := by
  have hcount := h.count
  have hlt : minor dev / 5 < geo.nrHd := by
    simp only [outOfPartition, decide_eq_false_iff_not, not_or] at hin
    omega
  exact ⟨by omega, h.sect _ hlt, (h.head _ hlt).1, (h.head _ hlt).2⟩

/-- A pass does not stop. -/
theorem Between.pass_avoids (h : Between sub s) (hdrives : s.geo.Drives)
    (hready : ∀ s, env.ready s = true) :
    Avoids (· ≠ .spin) hdRequestPass env s := by
  refine .bind_read ?_
  cases hcur : s.current with
  | none => exact .pure _
  | some r =>
      obtain ⟨q, hq⟩ := h.pooled
      obtain ⟨q, rfl⟩ := hq.eq_cons hcur
      obtain ⟨b, hb⟩ := hq.goodMem (List.mem_cons_self ..)
      have hdev := hb.unsigned_dev
      have hlast : ∀ heads : ℕ, 1 ≤ heads → heads ≤ 16 → unsigned (heads - 1) ≤ 15 := by
        intro heads _ _
        unfold unsigned
        omega
      have hlow : 1 ≤ (s.geo.hdInfo (minor (unsigned (s.request r).dev) / 5)).head →
          (s.geo.hdInfo (minor (unsigned (s.request r).dev) / 5)).head ≤ 16 →
          ∀ cmd, (s.transferCommand r cmd).head ≤ 15 := by
        intro hhead hheads cmd
        have hlt := Nat.mod_lt (s.geo.lba (unsigned (s.request r).dev) (s.request r).sector /
          (s.geo.hdInfo (minor (unsigned (s.request r).dev) / 5)).sect) hhead
        simp only [Sys.transferCommand, chsCommand]
        omega
      -- the two panics are for requests that `Pool` excludes; then the ranges that `hd_out` checks
      refine .ite (fun hmajor => ?_) fun _ => .ite (fun hlock => ?_) fun _ =>
        .ite (fun _ => .bind (.update _) fun _ _ _ _ => .pure _) fun hout => ?_
      · rw [hdev] at hmajor
        exact absurd hb.major hmajor
      · simp [hb.bh, hb.lock] at hlock
      obtain ⟨hdrive, hsect, hhead, hheads⟩ := hdrives.of_inside (Bool.eq_false_iff.mpr hout)
      refine .ite (fun hzero => ?_) fun _ => .ite (fun _ => ?_) fun _ =>
        .ite (fun _ => ?_) fun _ => .ite (fun _ => ?_) fun hwrite => .ite
        (fun _ => ?_) fun hread => ?_
      · omega
      · refine .bind (.update _) fun k _ t ht => ?_
        simp only [update_run, Res.ok.injEq, true_and] at ht
        subst ht
        refine .bind (.bind_read ?_) fun _ _ _ _ => .pure _
        exact hdOut_avoids_any hready hdrive (hlast _ hhead hheads) _
      · exact .bind (.update _) fun _ _ t _ =>
          .bind (hdOut_avoids_any hready hdrive (Nat.zero_le _) t) fun _ _ _ _ => .pure _
      · have hfailed : ∀ t : Sys n, Avoids (· ≠ .spin) EgGS.failed env t := by
          intro t k why u hstop
          simp at hstop
        refine .bind (hdOut_avoids_any hready hdrive (hlow hhead hheads _) s) fun _ _ t _ => .bind
          (.ask _)
          fun _ _ t _ => .ite (fun _ => .bind (.update _) fun _ _ _ _ => .pure _) fun _ => ?_
        exact .bind (.update _) fun _ _ t _ => .bind (hfailed t) fun _ _ _ _ => .pure _
      · -- a `READ` is sent
        exact .bind (hdOut_avoids_any hready hdrive (hlow hhead hheads _) s) fun _ _ _ _ => .pure _
      · -- the third panic, for a command that is neither, is not reached
        rcases hb.cmd with hcmd | hcmd
        · exact absurd hcmd hread
        · exact absurd hcmd hwrite

theorem Between.doHdRequest_returns (hready : ∀ s, env.ready s = true) (h : Between sub s)
    (hdrives : s.geo.Drives) : Returns doHdRequest env s := by
  obtain ⟨q, hq⟩ := h.pooled
  refine (doHdRequest_settles hq.chain).returns ?_
  refine iterate_avoids (I := fun _ t => Between sub t ∧ t.geo.Drives) (by simp) ?_ ?_ ⟨h, hdrives⟩
  · rintro ⟨⟩ t ⟨hbetween, hdrives⟩
    exact hbetween.pass_avoids hdrives hready
  · rintro ⟨⟩ t ⟨⟩ t' k ⟨hbetween, hdrives⟩ hbody
    have hpass := hdRequestPass_pass hbody
    have hgeo : t'.geo = t.geo := congrArg Rest.geo hpass.rest
    exact ⟨hbetween.again hpass, hgeo ▸ hdrives⟩

/-- The next command is under way when `do_hd_request` returns. -/
theorem doHdRequest_going (h : doHdRequest env k s = .ok () s') (hcur : s'.current ≠ none) :
    s'.ctl.outstanding = true := by
  refine doHdRequest_ensures (I := fun _ => True)
    (Q := fun t => t.current ≠ none → t.ctl.outstanding = true) (fun _ _ => trivial)
    (fun {t t'} _ hpass hcur => ?_) trivial h hcur
  cases hpass with
  | idle hnone => exact absurd hnone hcur
  | reset _ _ _ => rfl
  | recalibrate _ _ _ _ => rfl
  | read _ _ _ _ => rfl
  | @write r _ _ _ _ _ => cases (t.request r).buffer <;> rfl

/-! ## Interrupts -/

namespace Working

/-- The controller goes on with a command that has another sector. -/
theorem handled_going {ok : Bool} (h : Working which sub s) (hout : s.ctl.outstanding = true)
    (hh : Handled env ok s false s') : s'.ctl.outstanding = true := by
  obtain ⟨r, b, q, hq, hb, hserve⟩ := h.serving.command hout
  have hcur : s.current = some r := hq.chain.1
  cases hh with
  | unhandled hnone => exact absurd hnone hserve.handled
  | nullRead _ _ hnull => exact absurd (hcur.symm.trans hnull) (by simp)
  | nullWrite _ _ hnull => exact absurd (hcur.symm.trans hnull) (by simp)
  | @readMore r' hok hread hcur' hmore =>
      obtain rfl : r = r' := Option.some.inj (hcur.symm.trans hcur')
      obtain ⟨hcmd, -, -, hphase⟩ := hserve.read_of hread
      have htwo := two_of_more hb hmore
      show (readSector r (s.answer ok)).ctl.outstanding = true
      rw [readSector_ctl (s := s.answer ok) hb.buffer]
      simp [Controller.answer, hout, hok, hcmd]
      omega
  | @writeMore r' hok hwrite hcur' hmore =>
      obtain rfl : r = r' := Option.some.inj (hcur.symm.trans hcur')
      obtain ⟨hcmd, -, -, hphase, -⟩ := hserve.write_of hwrite
      have htwo := two_of_more hb hmore
      have hctl : (writeNext r (s.answer ok)).ctl.outstanding = (s.ctl.answer ok).outstanding := by
        simp only [writeNext]
        cases (((countSector r
          (s.answer ok)).setRequest r Request.advance).request r).buffer <;> rfl
      rw [hctl]
      simp [Controller.answer, hout, hok, hcmd]
      omega

theorem interrupt_going {i : Irq} (h : Working which sub s) (hout : s.ctl.outstanding = true)
    (hint : hdInterrupt i env k s = .ok () s') (hcur : s'.current ≠ none) :
    s'.ctl.outstanding = true := by
  rcases hdInterrupt_handled hint with hh | ⟨t, -, hdo⟩
  · exact h.handled_going hout hh
  · exact doHdRequest_going hdo hcur

/-- **An interrupt returns.** -/
theorem hdInterrupt_returns {i : Irq} (henv : env.Works which) (h : Working which sub s)
    (hirq : env.irq s = some i) : Returns (hdInterrupt i) env s := by
  have hout := henv.answers s i hirq
  rcases hdInterrupt_run i env s with ⟨t, -, hrun⟩ | ⟨t, hh, hrun⟩
  · exact .of_eq hrun
  · have hgeo : t.geo = s.geo := congrArg Rest.geo hh.rest
    obtain ⟨a, s', N, hN⟩ := (h.serving.called hout hh).doHdRequest_returns henv.ready
      (hgeo ▸ h.drives)
    exact ⟨a, s', N, fun k hk => (hrun k).trans (hN k hk)⟩

/-- **One step of the request layer.** -/
theorem submit {x y : Submission n × Sys n} (henv : env.Works which) (h : Working which x.1 x.2)
    (hstep : Submit env x y) : Working which y.1 y.2 := by
  have hgeo : y.2.geo = x.2.geo := congrArg Rest.geo hstep.rest
  have hlinks : ∀ b, (y.2.buf b).toBufferLinks = (x.2.buf b).toBufferLinks := fun b =>
    congrFun (congrArg Rest.links hstep.rest) b
  refine ⟨(Serving.submit henv.answers h.serving hstep).1,
    Serving.spared henv.answers henv.spares h.serving h.placed h.spared hstep, hgeo ▸ h.drives,
    (congrArg Rest.hdEnabled hstep.rest).trans h.enabled, fun b cmd hcmd hb => ?_, ?_⟩
  · have hdev : (y.2.buf b).bDev = (x.2.buf b).bDev := congrArg BufferLinks.bDev (hlinks b)
    have hblock : (y.2.buf b).bBlocknr = (x.2.buf b).bBlocknr :=
      congrArg BufferLinks.bBlocknr (hlinks b)
    rw [hgeo, hdev, hblock]
    exact h.inside b cmd hcmd (hdev ▸ hb)
  · cases hstep with
    | time _ _ => exact h.going
    | interrupt hirq hint => exact h.interrupt_going (henv.answers _ _ hirq) hint
    | lock _ _ _ => exact h.going
    | check _ _ _ => exact h.going
    | giveUp => exact h.going
    | fill _ => exact h.going
    | start _ hdo => exact doHdRequest_going hdo
    | @queue s b cmd r head tmp e k hcur _ =>
        intro _
        have hctl : (((s.offer r).linkBehind tmp r).setIntr true).ctl = s.ctl := by
          unfold Sys.linkBehind Sys.offer Sys.clean
          split <;> rfl
        rw [hctl]
        exact h.going (by rw [hcur]; simp)

theorem submits {x y : Submission n × Sys n} (henv : env.Works which) (h : Working which x.1 x.2)
    (hpath : Submits env x y) : Working which y.1 y.2 :=
  hpath.invariant (fun h hstep => h.submit henv hstep) h

theorem time (h : Working which sub s) (clock : ℕ) (intr : Bool) :
    Working which sub { s with clock, intr } :=
  ⟨(h.serving.time clock intr).serving, ⟨h.spared.log, h.spared.resumed⟩, h.drives, h.enabled,
    h.inside, h.going⟩

theorem interrupts_returns (henv : env.Works which) (j : ℕ) (h : Working which sub s) :
    Returns (interrupts j) env s := by
  induction j generalizing s with
  | zero => exact .pure () env s
  | succ j ih =>
      cases hirq : env.irq s with
      | none =>
          have hrun : ∀ k, interrupts (j + 1) env k s = .ok () s := fun k => by
            simp [interrupts, hirq]
          exact .of_eq hrun
      | some i =>
          have hround : Returns (hdInterrupt i >>= fun _ => Prog.update Sys.tick >>= fun _ =>
              interrupts j) env s := by
            refine (h.hdInterrupt_returns henv hirq).bind fun k _ t ht => .bind_update ?_
            exact ih ((h.submit henv (.interrupt hirq ht)).time _ _)
          obtain ⟨a, s', N, hN⟩ := hround
          exact ⟨a, s', N, fun k hk => by
            simp only [interrupts, ask_bind, hirq]
            exact hN k hk⟩

theorem poll_returns (henv : env.Works which) (h : Working which sub s) : Returns poll env s := by
  refine .bind_update (.bind_read (.ite (fun _ => ?_) fun _ => .pure _ _ _))
  obtain ⟨a, s', N, hN⟩ := (h.time (s.clock + 1) s.intr).interrupts_returns henv
    (env.burst { s with clock := s.clock + 1 })
  exact ⟨a, s', N, fun k hk => hN k hk⟩

end Working

/-! ## What is left to do -/

/-- A bound on the interrupts that the queue `q` takes. -/
def Sys.work (s : Sys n) (q : List (Fin nrRequest)) : ℕ :=
  47 * q.length + match s.current with
    | none => 0
    | some r => s.attempts r

/-- The work that is left. -/
def Remaining (sub : Submission n) (m : ℕ) (s : Sys n) : Prop :=
  ∃ q, Pool sub s q ∧ s.work q = m

/-- **The step.**  An interrupt leaves less to do. -/
theorem Working.interrupt_remaining {i : Irq} {m : ℕ} (henv : env.Works which)
    (h : Working which sub s) (hm : Remaining sub m s) (hirq : env.irq s = some i)
    (hint : hdInterrupt i env k s = .ok () s') : ∃ m' < m, Remaining sub m' s' := by
  have hout := henv.answers s i hirq
  obtain ⟨r, b, q, hq, -, -⟩ := h.serving.command hout
  have hcur : s.current = some r := hq.chain.1
  obtain rfl : s.work (r :: q) = m := by
    obtain ⟨q', hq', rfl⟩ := hm
    rw [hq'.chain.unique hq.chain]
  obtain ⟨q', hsuffix, hqueue⟩ := (hdInterrupt_drained hint).queue _ hq.chain
  obtain ⟨q'', hq''⟩ := h.serving.pooled.interrupt hint
  obtain rfl : q' = q'' := hqueue.unique hq''.chain
  refine ⟨s'.work q', ?_, q', hq'', rfl⟩
  have hwork : s.work (r :: q) = 47 * (q.length + 1) + s.attempts r := by
    simp [Sys.work, hcur]
  rcases List.suffix_cons_iff.mp hsuffix with rfl | hshort
  · have hcur' : s'.current = some r := hqueue.1
    have hless := h.serving.interrupt_attempts hout hcur hint hcur'
    have hwork' : s'.work (r :: q) = 47 * (q.length + 1) + s'.attempts r := by
      simp [Sys.work, hcur']
    omega
  · have hlength := hshort.length_le
    cases q' with
    | nil =>
        have hcur' : s'.current = none := hqueue
        have hwork' : s'.work [] = 0 := by simp [Sys.work, hcur']
        omega
    | cons r' q' =>
        have hcur' : s'.current = some r' := hqueue.1
        have hle := hq''.attempts_le
        have hwork' : s'.work (r' :: q') = 47 * (q'.length + 1) + s'.attempts r' := by
          simp [Sys.work, hcur']
        simp only [List.length_cons] at hlength
        omega

theorem Remaining.congr {m : ℕ} (h : Remaining sub m s) (clock : ℕ) (intr : Bool) :
    Remaining sub m { s with clock, intr } := by
  obtain ⟨q, hq, hm⟩ := h
  exact ⟨q, hq.congr (.of_buf rfl rfl rfl), hm⟩

theorem Working.interrupts_remaining {m j : ℕ} (henv : env.Works which) (h : Working which sub s)
    (hm : Remaining sub m s) (hrun : interrupts j env k s = .ok () s') :
    ∃ m' ≤ m, Remaining sub m' s' ∧ (0 < j → (env.irq s).isSome = true → m' < m) := by
  induction j generalizing s m with
  | zero =>
      simp only [interrupts, pure_run, Res.ok.injEq, true_and] at hrun
      exact ⟨m, le_rfl, hrun ▸ hm, fun hj => absurd hj (lt_irrefl 0)⟩
  | succ j ih =>
      simp only [interrupts, ask_bind] at hrun
      cases hirq : env.irq s with
      | none =>
          simp only [hirq, pure_run, Res.ok.injEq, true_and] at hrun
          exact ⟨m, le_rfl, hrun ▸ hm, fun _ hsome => absurd hsome (by simp)⟩
      | some i =>
          simp only [hirq, bind_eq_ok, update_bind] at hrun
          obtain ⟨⟨⟩, t, hint, hrest⟩ := hrun
          obtain ⟨m₁, hlt, hm₁⟩ := h.interrupt_remaining henv hm hirq hint
          have hworking := (h.submit henv (.interrupt hirq hint)).time (t.clock + 1) t.intr
          obtain ⟨m₂, hle, hm₂, -⟩ := ih hworking (hm₁.congr _ _) hrest
          exact ⟨m₂, by omega, hm₂, fun _ _ => by omega⟩

/-! ## Waiting -/

/-- The work that is left, and the time until the hardware calls. -/
structure Delayed (env : Env n) (which : Rw → Prop) (sub : Submission n) (d : ℕ ×ₗ ℕ) (s : Sys n) :
    Prop where
  working : Working which sub s
  remaining : Remaining sub (ofLex d).1 s
  next : s.current ≠ none →
    env.Calls { s with intr := true, clock := s.clock + 1 + (ofLex d).2 }

theorem Working.delayed {m : ℕ} (henv : env.Works which) (h : Working which sub s)
    (hm : Remaining sub m s) :
    ∃ d, Delayed env which sub (toLex (m, d)) s := by
  by_cases hcur : s.current = none
  · exact ⟨0, h, hm, fun hne => absurd hcur hne⟩
  · obtain ⟨d, hd⟩ := henv.prompt { s with intr := true, clock := s.clock + 1 } (h.going hcur)
    exact ⟨d, h, hm, fun _ => hd⟩

theorem Working.starts (henv : env.Works which) (h : Working which sub s) :
    ∃ d, Delayed env which sub d s := by
  obtain ⟨q, hq⟩ := h.serving.pooled
  obtain ⟨d, hd⟩ := h.delayed henv ⟨q, hq, rfl⟩
  exact ⟨_, hd⟩

/-- **A look at the hardware**, with a request in service: it has called, or will do so
sooner. -/
theorem Delayed.look {d : ℕ ×ₗ ℕ} (henv : env.Works which) (h : Delayed env which sub d s)
    (hcur : s.current ≠ none) (hrun : poll env k (s.setIntr true) = .ok () s') :
    ∃ d' < d, Delayed env which sub d' s' := by
  obtain ⟨m, w, rfl⟩ : ∃ m w, d = toLex (m, w) := ⟨_, _, rfl⟩
  let t : Sys n := { s with intr := true, clock := s.clock + 1 }
  have ht : Working which sub t := h.working.time _ _
  have hm : Remaining sub m t := h.remaining.congr _ _
  have hburst : interrupts (env.burst t) env k t = .ok () s' := by
    unfold poll at hrun
    simp only [update_bind, read_bind, ite_run, ask_bind] at hrun
    rw [if_pos (show ((s.setIntr true).tick).intr = true from rfl)] at hrun
    exact hrun
  by_cases hcalls : env.Calls t
  · obtain ⟨m', -, hm', hless⟩ := ht.interrupts_remaining henv hm hburst
    obtain ⟨w', hw'⟩ := (ht.submits henv ((interrupts_waits _ hburst).submits _)).delayed henv hm'
    exact ⟨_, Prod.Lex.toLex_lt_toLex.mpr (.inl (hless hcalls.2 hcalls.1)), hw'⟩
  · have hsame : s' = t := by
      cases hirq : env.irq t with
      | none =>
          cases hj : env.burst t with
          | zero => simpa [hj, interrupts, eq_comm] using hburst
          | succ j => simpa [hj, interrupts, hirq, eq_comm] using hburst
      | some i =>
          have hzero : env.burst t = 0 := by
            by_contra hne
            exact hcalls ⟨by rw [hirq]; rfl, Nat.pos_of_ne_zero hne⟩
          simpa [hzero, interrupts, eq_comm] using hburst
    have hnext : env.Calls { s with intr := true, clock := s.clock + 1 + w } := h.next hcur
    cases w with
    | zero => exact absurd hnext hcalls
    | succ w =>
        subst hsame
        refine ⟨toLex (m, w), Prod.Lex.toLex_lt_toLex.mpr (.inr ⟨rfl, Nat.lt_succ_self w⟩), ht, hm,
          fun _ => ?_⟩
        have hclock : s.clock + 1 + (w + 1) = s.clock + 1 + 1 + w := by omega
        exact hclock ▸ hnext

namespace Working

/-- Who waits for a buffer that somebody else has locked waits for a request. -/
theorem busy (h : Working which sub s) (hlock : (s.buf b).bLock = true) (hb : sub.buf ≠ some b) :
    s.current ≠ none := by
  intro hcur
  obtain ⟨q, hq⟩ := h.serving.pooled
  obtain rfl := hq.eq_nil hcur
  rcases (hq.locked b).mp hlock with ⟨r, hr, -⟩ | hsub
  · exact absurd hr (by simp)
  · exact hb hsub

/-- **Waiting for a buffer comes to an end.** -/
theorem waitOnBuff_returns (henv : env.Works which) (h : Working which sub s)
    (hb : sub.buf ≠ some b) : Returns (waitOnBuff b) env s := by
  obtain ⟨d, hd⟩ := (h.time s.clock false).starts henv
  refine .bind_update (iterate_returns (I := fun d _ t => Delayed env which sub d t) ?_ ?_ hd)
  · intro d _ t hI
    refine .bind_read (.ite (fun _ => .bind_update ?_) fun _ => .pure _ _ _)
    have hpoll : Returns poll env (t.setIntr true) :=
      (hI.working.time t.clock true).poll_returns henv
    exact hpoll.bind fun _ _ _ _ => .pure _ _ _
  · intro d _ t _ t' k hI hbody
    unfold sti at hbody
    simp only [read_bind, ite_run, update_bind, pure_run] at hbody
    split at hbody
    · rename_i hlock
      obtain ⟨⟨⟩, u, hpoll, hret⟩ := bind_eq_ok.mp hbody
      simp only [pure_run, Res.ok.injEq, true_and] at hret
      exact hret ▸ hI.look henv (hI.working.busy hlock hb) hpoll
    · simp at hbody

/-- If no slot is free, requests are under way. -/
theorem full {rw : Rw} (h : Working which sub s) (hslot : sub.slot = none)
    (hfree : freeSlot s rw = none) : s.current ≠ none := by
  intro hcur
  obtain ⟨q, hq⟩ := h.serving.pooled
  obtain rfl := hq.eq_nil hcur
  have hempty : (s.request 0).dev < 0 := by
    by_contra hge
    rcases (hq.slots 0).mp (not_lt.mp hge) with hr | hsub
    · exact absurd hr (by simp)
    · exact absurd (hslot.symm.trans hsub) (by simp)
  have hall := List.find?_eq_none.mp hfree 0 (by simp)
  have hlimit : 0 < slotLimit rw := by
    unfold slotLimit
    split <;> decide
  exact hall (by simpa using ⟨hlimit, hempty⟩)

theorem findSlot_returns {rw : Rw} {ahead : Bool} (henv : env.Works which)
    (h : Working which sub s) (hslot : sub.slot = none) (hintr : s.intr = true) :
    Returns (findSlot rw ahead) env s := by
  obtain ⟨d, hd⟩ := h.starts henv
  refine iterate_returns (I := fun d _ t => Delayed env which sub d t ∧ t.intr = true) ?_ ?_
    ⟨hd, hintr⟩
  · rintro d _ t ⟨hI, -⟩
    refine .bind_read ?_
    cases freeSlot t rw with
    | some r => exact .pure _ _ _
    | none =>
        exact .ite (fun _ => .pure _ _ _) fun _ =>
          (hI.working.poll_returns henv).bind fun _ _ _ _ => .pure _ _ _
  · rintro d _ t _ t' k ⟨hI, hon⟩ hbody
    rw [read_bind] at hbody
    cases hfree : freeSlot t rw with
    | some r => simp [hfree] at hbody
    | none =>
        simp only [hfree, ite_run, pure_run] at hbody
        split at hbody
        · simp at hbody
        · obtain ⟨⟨⟩, u, hpoll, hret⟩ := bind_eq_ok.mp hbody
          simp only [pure_run, Res.ok.injEq, true_and] at hret
          have hsame : t.setIntr true = t := by
            rw [← hon]
            rfl
          obtain ⟨d', hlt, hd'⟩ := hI.look henv (hI.working.full hslot hfree) (hsame.symm ▸ hpoll)
          exact ⟨d', hlt, hret ▸ hd', by rw [← hret, poll_intr.eq hpoll, hon]⟩

end Working

/-! ## Making a request -/

/-- The elevator comes to the end of the queue. -/
theorem elevator_returns {req head : Fin nrRequest} (h : s.Queue (head :: q))
    (hcur : s.current = some head) :
    Returns (elevator req head) env s := by
  refine iterate_returns (δ := ℕ)
    (I := fun d x t => t = s ∧ ∃ l, Chain (fun r => (s.request r).next) (some x) l ∧ l.length = d)
    ?_ ?_ ⟨rfl, head :: q, hcur ▸ h, rfl⟩
  · rintro d x t ⟨rfl, -⟩
    refine .bind_read ?_
    cases (t.request x).next with
    | none => exact .pure _ _ _
    | some nxt => exact .ite (fun _ => .pure _ _ _) fun _ => .pure _ _ _
  · rintro d x t y t' k ⟨rfl, l, hl, hlen⟩ hbody
    rw [read_bind] at hbody
    cases hnext : (t.request x).next with
    | none => simp [hnext] at hbody
    | some z =>
        simp only [hnext, ite_run, pure_run] at hbody
        split at hbody
        · simp at hbody
        · simp only [Res.ok.injEq, Sum.inl.injEq] at hbody
          obtain ⟨rfl, rfl⟩ := hbody
          cases l with
          | nil => exact absurd hl (by simp)
          | cons x' l =>
              obtain ⟨hx, hrest⟩ := hl
              obtain rfl := Option.some.inj hx
              exact ⟨l.length, by simp [← hlen], rfl, l, hnext ▸ hrest, rfl⟩

/-- Before a request joins the queue, the queue is as it was. -/
theorem Pool.offer_queue {buf : Option (Fin n)} {cmd : Option Rw}
    (h : Pool ⟨buf, cmd, some r⟩ s q) :
    (s.offer r).Queue q := by
  have hchain : Chain (fun x => ((s.offer r).request x).next) s.current q := by
    refine h.chain.congr fun x hx => ?_
    have hne : x ≠ r := by
      rintro rfl
      exact h.fresh x hx rfl
    rw [Sys.offer_request, Function.update_of_ne hne]
  rwa [Sys.Queue, Sys.offer_current]

theorem Working.addRequest_returns {buf : Option (Fin n)} {cmd : Option Rw} (henv : env.Works which)
    (h : Working which ⟨buf, cmd, some r⟩ s) : Returns (addRequest r) env s := by
  obtain ⟨q, hq⟩ := h.serving.pooled
  have hrun : Returns (Prog.read >>= fun t => match t.current with
      | none => Prog.update (Sys.start · r) >>= fun _ => sti >>= fun _ => doHdRequest
      | some head =>
          elevator r head >>= fun tmp =>
            Prog.update (Sys.linkBehind · tmp r) >>= fun _ => sti : P n Unit) env (s.offer r) := by
    refine .bind_read ?_
    rw [Sys.offer_current]
    cases hcur : s.current with
    | none =>
        refine .bind_update (.bind_update ?_)
        have hgeo : (((s.offer r).start r).setIntr true).geo = s.geo := congrArg Rest.geo
          (s.offer_rest r)
        exact (h.serving.started hcur).doHdRequest_returns henv.ready (hgeo ▸ h.drives)
    | some head =>
        have hqueue := hq.offer_queue
        obtain ⟨q', rfl⟩ := hq.eq_cons hcur
        have helevator : Returns (elevator r head) env (s.offer r) :=
          elevator_returns hqueue ((Sys.offer_current s r).trans hcur)
        exact helevator.bind fun _ _ _ _ => .bind_update (.update _ _ _)
  obtain ⟨a, s', N, hN⟩ := hrun
  exact ⟨a, s', N, fun k hk => hN k hk⟩

/-- **`ll_rw_block` returns.** -/
theorem Working.llRwBlock_returns {rw : Rw} (henv : env.Works which) (h : Working which .idle s)
    (hlock : (s.buf b).bLock = false) : Returns (llRwBlock rw b) env s := by
  refine .bind_read (.ite (fun _ => .pure _ _ _) fun hdev => .ite (fun _ => .pure _ _ _) fun _ =>
    ?_)
  simp only [not_or, not_not] at hdev
  have hlocked : Working which ⟨some b, none, none⟩
      ((s.setBuf b fun bh => { bh with bLock := true }).setIntr true) := by
    have hstep : Submit env (.idle, s)
        (⟨some b, none, none⟩, s.setBuf b fun bh => { bh with bLock := true }) :=
      .lock hlock hdev.2.1 hdev.2.2
    exact (h.submit henv hstep).time s.clock true
  have hlockBuff : ∀ k, lockBuff b env k s =
      .ok () ((s.setBuf b fun bh => { bh with bLock := true }).setIntr true) := fun k => rfl
  refine (Returns.of_eq hlockBuff).bind fun k _ t ht => ?_
  obtain rfl : _ = t := (Res.ok.inj ((hlockBuff k).symm.trans ht)).2
  refine (hlocked.poll_returns henv).bind fun k _ t hpoll => .bind_read
    (.ite (fun _ => .update _ _ _) fun hflags => ?_)
  simp only [not_or, not_and, Bool.not_eq_true, Bool.not_eq_false'] at hflags
  have hon : t.intr = true := poll_intr.eq hpoll
  have hchecked : Working which ⟨some b, some rw.plain, none⟩ t :=
    (hlocked.submits henv (poll_submits hpoll)).submit henv
      (.check rw.plain_cases hflags.1 hflags.2)
  refine (hchecked.findSlot_returns henv rfl hon).bind fun k slot u hslot => ?_
  obtain ⟨hpath, hfree⟩ : Submits env (⟨some b, some rw.plain, none⟩, t)
      (⟨some b, some rw.plain, none⟩, u) ∧ ∀ r, slot = some r → freeSlot u rw.plain = some r :=
    findSlot_submits hslot
  cases slot with
  | none => exact .update _ _ _
  | some r =>
      refine .bind_update ?_
      have hfilled := (hchecked.submits henv hpath).submit henv (.fill (hfree r rfl))
      refine (hfilled.poll_returns henv).bind fun k _ v hpoll => ?_
      exact (hfilled.submits henv (poll_submits hpoll)).addRequest_returns henv

end EgGS
