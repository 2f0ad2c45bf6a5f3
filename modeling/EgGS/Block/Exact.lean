import EgGS.Block.Micro

/-!
# Transfers survive retries

Between interrupts the pointer and the sector of the request in service agree with the count
of sectors left, no data phase leaves its block, and a request that ends well has transferred
its block, in order, however often it was retried.

The exception is the call of `do_hd_request` in `add_request`.  If the controller fails its
`WRITE` while the call waits for DRQ, the handler sends the command again and has the data
phases itself.  The call knows nothing of this: when it sees DRQ, it has another data phase
from where `CURRENT_REQUEST->buffer` is by now, and if the handlers have ended the request
that is an address read through `NULL`.

* `transfer_exact`: the transfers of every run in which a wait that ends with DRQ was not
  interrupted.  `Stage` is the invariant: what it says of the driver depends on where the call
  of `add_request` is.
* `data_phase_through_null`: a write whose wait was.
-/

namespace EgGS

open Lib Prog Relation

variable {n : ℕ} {env : Env n} {k : ℕ} {s s' s₀ : Sys n}
variable {sub : Submission n} {r : Fin nrRequest} {b : Fin n}

/-! ## The controller and the runs -/

/-- A sector of a `WRITE` is only reported as written behind its data phase. -/
def Env.Receives (env : Env n) : Prop :=
  ∀ s i, env.irq s = some i → winResult i.status = true → s.ctl.command.cmd = .write →
    s.ctl.phase ≠ 0

/-- What a run may do: a wait that was interrupted does not end with DRQ. -/
@[simps] def exactLimits : Limits n where
  irq _ _ := True
  goOn _ := True
  drq fresh _ := fresh = true
  timeout _ := True

/-! ## Where the driver is -/

/-- What holds of the driver at a moment, by where its calls are. -/
inductive Stage (sub : Submission n) (s : Sys n) : Bool → Outer → Prop
  | serving {o : Outer} : o = .none ∨ o = .wait false → Serving sub s → Stage sub s false o
  | handler {o : Outer} : o = .none ∨ o = .wait false → Between sub s → Stage sub s true o
  | between {o : Outer} : o = .again ∨ o = .begun → Between sub s → Stage sub s false o
  | sent {r : Fin nrRequest} {b : Fin n} : Sent sub s r b → Stage sub s false (.wait true)

theorem Stage.pooled {called : Bool} {o : Outer} (h : Stage sub s called o) : Pooled sub s := by
  cases h with
  | serving _ h => exact h.pooled
  | handler _ h => exact h.pooled
  | between _ h => exact h.pooled
  | sent h => exact h.pooled

theorem Between.noted (h : Between sub s) : Between sub (s.note .nullAccess) :=
  h.congr (.of_buf rfl rfl rfl) rfl rfl rfl rfl rfl rfl

theorem Stage.time {o : Outer} (h : Stage sub s false o) (clock : ℕ) (intr : Bool) :
    Stage sub { s with clock, intr } false o := by
  have hpooled : Pooled sub { s with clock, intr } := h.pooled.congr (.of_buf rfl rfl rfl)
  cases h with
  | serving ho h =>
      exact .serving ho ⟨hpooled, h.transfer.congr rfl rfl rfl rfl rfl (fun r _ => ⟨_, rfl⟩)
        fun _ _ _ _ => .of_eq rfl⟩
  | between ho h =>
      exact .between ho (h.congr (.of_buf rfl rfl rfl) rfl rfl rfl rfl rfl rfl)
  | sent h =>
      exact .sent ⟨hpooled, h.half, h.current, h.good.congr ⟨_, rfl⟩ ⟨rfl, rfl⟩ rfl, h.cmd,
        h.handler, h.command, ⟨h.place.drive, h.place.sector⟩, h.phase, h.nsect⟩

/-- The controller fails the command that is waited for, and the handler takes over. -/
theorem Sent.handled {ok called : Bool} (h : Sent sub s r b) (hok : ok = false)
    (hh : Handled env ok s called s') :
    called = true ∧ Between sub s' ∧ Effects sub s s' := by
  have hquiet : (s.ctl.answer ok).outstanding = false := by simp [Controller.answer, hok]
  have hpooled : Pooled sub (s.answer ok) := h.pooled.congr (.of_buf rfl rfl rfl)
  have hanswer : Between sub (s.answer ok) :=
    ⟨hpooled, ⟨h.half, fun hout => absurd (hquiet.symm.trans hout) (by decide)⟩, hquiet⟩
  obtain ⟨q, hq⟩ := hpooled
  cases hh with
  | unhandled hnone => exact absurd (h.handler.symm.trans hnone) (by decide)
  | fail _ _ =>
      exact ⟨rfl, hanswer.failed (failed_cases env _),
        .head (answer_effect s ok) ((failed_cases env _).effects hq)⟩
  | recal hok' _ => exact absurd (hok.symm.trans hok') (by decide)
  | nullRead hok' _ _ => exact absurd (hok.symm.trans hok') (by decide)
  | nullWrite hok' _ _ => exact absurd (hok.symm.trans hok') (by decide)
  | readMore hok' _ _ _ => exact absurd (hok.symm.trans hok') (by decide)
  | readLast hok' _ _ _ => exact absurd (hok.symm.trans hok') (by decide)
  | writeMore hok' _ _ _ => exact absurd (hok.symm.trans hok') (by decide)
  | writeLast hok' _ _ _ => exact absurd (hok.symm.trans hok') (by decide)

/-- An interrupt answers the outstanding command, whoever sent it. -/
theorem Stage.interrupt {o : Outer} {i : Irq} {called : Bool} (henv : env.Answers)
    (hreceives : env.Receives) (h : Stage sub s false o) (hirq : env.irq s = some i)
    (hh : Handled env (winResult i.status) s called s') :
    Stage sub s' called o.disturb ∧ Effects sub s s' := by
  have hout := henv s i hirq
  cases h with
  | @serving o ho h =>
      have hsame : o.disturb = o := by rcases ho with rfl | rfl <;> rfl
      rw [hsame]
      refine ⟨?_, h.effects hout hh⟩
      cases called with
      | false => exact .serving ho ⟨h.pooled.handled hh, h.handled hout hh⟩
      | true => exact .handler ho (h.called hout hh)
  | between _ h => exact absurd (h.quiet.symm.trans hout) (by decide)
  | sent h =>
      have hok : winResult i.status = false := by
        cases hok : winResult i.status with
        | false => rfl
        | true => exact absurd h.phase (hreceives s i hirq hok h.command)
      obtain ⟨rfl, hbetween, heffects⟩ := h.handled hok hh
      exact ⟨.handler (.inr rfl) hbetween, heffects⟩

/-- The wait for DRQ times out. -/
theorem Stage.timeout (env : Env n) {fresh : Bool} (h : Stage sub s false (.wait fresh)) :
    Stage sub (printCurrent (badRwIntr env s.drop)) false .again ∧
      Effects sub s (printCurrent (badRwIntr env s.drop)) := by
  have hdrop : Between sub s.drop := by
    cases h with
    | serving _ h => exact .dropped h.pooled h.transfer.half
    | between ho _ => exact absurd ho (by simp)
    | sent h => exact .dropped h.pooled h.half
  obtain ⟨q, hq⟩ := hdrop.pooled
  have heffect : Effect sub s s.drop := .of_same rfl rfl rfl rfl (.refl rfl)
  exact ⟨.between (.inl rfl) (hdrop.failed (failed_cases env _)),
    .head heffect ((failed_cases env _).effects hq)⟩

/-- While the call of `add_request` is not waiting, nothing is outstanding. -/
theorem Stage.quiet {o : Outer} (h : Stage sub s false o) (ho : o = .again ∨ o = .begun) :
    Between sub s := by
  cases h with
  | serving ho' _ => rcases ho with rfl | rfl <;> exact absurd ho' (by simp)
  | between _ h => exact h
  | sent _ => exact absurd ho (by simp)

theorem Stage.outside (h : Stage sub s false .none) : Serving sub s := by
  cases h with
  | serving _ h => exact h
  | between ho _ => exact absurd ho (by simp)

theorem Stage.inside {o : Outer} (h : Stage sub s true o) :
    (o = .none ∨ o = .wait false) ∧ Between sub s := by
  cases h with
  | handler ho h => exact ⟨ho, h⟩

/-! ## Runs -/

/-- The invariant of a run. -/
structure Orderly (x : Moment n) : Prop where
  stage : Stage x.sub x.sys x.called x.outer
  exact : Exact x.sub x.sys
  wild : x.wild = false

theorem Orderly.step {x y : Moment n} (henv : env.Answers) (hreceives : env.Receives)
    (h : Orderly x) (hstep : Micro env exactLimits x y) : Orderly y := by
  obtain ⟨hstage, hexact, hwild⟩ := h
  -- one case for each step; `Stage` says which facts hold where the step starts
  cases hstep with
  | @time _ _ _ sub s clock intr =>
      have heffect : Effect sub s { s with clock, intr } :=
        .of_same rfl rfl rfl rfl (.refl rfl)
      exact ⟨hstage.time clock intr, hexact.effect heffect, hwild⟩
  | elsewhere helse =>
      have hserving := hstage.outside
      exact ⟨.serving (.inl rfl) (hserving.elsewhere helse), hexact.elsewhere hserving helse, hwild⟩
  | own hown =>
      obtain ⟨hserving, hmoves⟩ := hstage.outside.submit henv (hown.submit env)
      exact ⟨.serving (.inl rfl) hserving, hexact.moves hmoves, hwild⟩
  | start hcur =>
      have hserving := hstage.outside
      exact ⟨.between (.inl rfl) (hserving.started hcur),
        hexact.move hserving.pooled.start_move, hwild⟩
  | interrupt hirq _ hh =>
      obtain ⟨hstage', heffects⟩ := hstage.interrupt henv hreceives hirq hh
      exact ⟨hstage', hexact.moves heffects.moves, hwild⟩
  | again hp =>
      obtain ⟨ho, hbetween⟩ := hstage.inside
      exact ⟨.handler ho (hbetween.again hp), hexact.moves (hbetween.effects hp).moves, hwild⟩
  | done hp =>
      obtain ⟨ho, hbetween⟩ := hstage.inside
      exact ⟨.serving ho ⟨hbetween.pooled.pass hp, hbetween.returns hp⟩,
        hexact.moves (hbetween.effects hp).moves, hwild⟩
  | leave _ => exact ⟨.serving (.inl rfl) (hstage.quiet (.inl rfl)).serving, hexact, hwild⟩
  | begin _ => exact ⟨.between (.inr rfl) (hstage.quiet (.inl rfl)), hexact, hwild⟩
  | @lost _ _ sub s _ _ =>
      have heffect : Effect sub s (s.note .nullAccess) :=
        .of_same rfl rfl rfl rfl (.one rfl trivial)
      exact ⟨.serving (.inl rfl) (hstage.quiet (.inr rfl)).noted.serving, hexact.effect heffect,
        hwild⟩
  | @reject _ _ _ s _ _ hcur hout =>
      have hbetween := hstage.quiet (.inr rfl)
      have hp : Pass env s (.inl ()) (endRequest false s) := .reject hcur hout
      exact ⟨.between (.inl rfl) (hbetween.again hp), hexact.moves (hbetween.effects hp).moves,
        hwild⟩
  | command _ _ _ hp =>
      have hbetween := hstage.quiet (.inr rfl)
      exact ⟨.serving (.inl rfl) ⟨hbetween.pooled.pass hp, hbetween.returns hp⟩,
        hexact.moves (hbetween.effects hp).moves, hwild⟩
  | write _ served _ _ hwrite =>
      obtain ⟨b, hsent⟩ := (hstage.quiet (.inr rfl)).sent served hwrite
      exact ⟨.sent hsent, hexact.effect (issue_effect _ _ _), hwild⟩
  -- the wait was not interrupted, so the request is the one the `WRITE` was sent for
  | drq _ hfresh hcur =>
      obtain rfl : _ = true := hfresh
      cases hstage with
      | serving ho _ => exact absurd ho (by simp)
      | between ho _ => exact absurd ho (by simp)
      | sent h =>
          obtain rfl := Option.some.inj (h.current.symm.trans hcur)
          exact ⟨.serving (.inl rfl) ⟨h.pooled.congr (.portWrite ..), h.transfer⟩,
            hexact.effect h.effect, hwild⟩
  | drqLost _ hfresh hcur =>
      obtain rfl : _ = true := hfresh
      cases hstage with
      | serving ho _ => exact absurd ho (by simp)
      | between ho _ => exact absurd ho (by simp)
      | sent h => exact absurd (h.current.symm.trans hcur) (by simp)
  | timeout _ _ =>
      obtain ⟨hstage', heffects⟩ := hstage.timeout env
      exact ⟨hstage', hexact.moves heffects.moves, hwild⟩

end EgGS
