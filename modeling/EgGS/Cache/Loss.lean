import EgGS.Cache.Flags

/-!
# Updates that are not lost

A holder changes a buffer and sets `b_dirt`.  The history tells what became of the
change: `fate` is `dirty` until `add_request` queues a write for the buffer, then
`queued` until such a write ends well.

`add_request` clears `b_dirt` when the write is queued, and a write that is given up
clears `b_uptodate` and leaves `b_dirt` alone.  After that the buffer is neither dirty
nor queued although its change never reached the disk, and the next `read_buff` reads
the old block over it: `write_given_up` is such a run.  `updates_kept` says that this is
the only way to lose a change: where no write is given up, a changed buffer stays dirty
or queued until it is written, and is neither recycled nor read again before.
-/

namespace EgGS

open Lib Prog Relation

variable {n : ℕ} {env : Env n} {k : ℕ} {s s' s₀ : Sys n}
variable {sub : Submission n} {b : Fin n}

/-! ## The fate of a change -/

/-- What became of the last change of a buffer's contents: it was written, or there was
none; it waits for a write; a write that carries it was queued. -/
inductive Fate where
  | saved
  | dirty
  | queued
  deriving DecidableEq

/-- The fate of the contents of `b` after one more event. -/
def Fate.after (b : Fin n) (f : Fate) : Event n → Fate
  | .stored c => if c = b then .dirty else f
  | .invalidated c => if c = b then .saved else f
  | .queued c .write => if c = b ∧ f = .dirty then .queued else f
  | .ended c .write true _ _ => if c = b ∧ f = .queued then .saved else f
  | _ => f

/-- The fate of the contents of `b`, after a history. -/
def fate (b : Fin n) : List (Event n) → Fate
  | [] => .saved
  | e :: log => (fate b log).after b e

/-- The event costs the buffer `b` its contents: its header is recycled, or a read into it
is queued. -/
def Event.Discards (b : Fin n) : Event n → Prop
  | .recycled c => c = b
  | .queued c .read => c = b
  | _ => False

/-- No change is lost: until a write has carried it to the disk the buffer is dirty or has a
write in the queue, and it never lost its contents before that. -/
structure Lossless (s : Sys n) : Prop where
  kept : ∀ b, fate b s.log ≠ .saved → (s.buf b).bDirt = true ∨ s.Queued b .write
  discarded : ∀ b e older, e :: older <:+ s.log → e.Discards b → fate b older = .saved

/-- The fates are those of the flags and the queue. -/
structure Tracked (s : Sys n) : Prop where
  dirty : ∀ b, fate b s.log = .dirty → (s.buf b).bDirt = true
  queued : ∀ b, fate b s.log = .queued → s.Queued b .write
  discarded : ∀ b e older, e :: older <:+ s.log → e.Discards b → fate b older = .saved

theorem Tracked.lossless (h : Tracked s) : Lossless s := by
  refine ⟨fun b hb => ?_, h.discarded⟩
  cases hf : fate b s.log with
  | saved => exact absurd hf hb
  | dirty => exact .inl (h.dirty b hf)
  | queued => exact .inr (h.queued b hf)

/-- A buffer that is clean and not queued has nothing to lose. -/
theorem Tracked.saved (h : Tracked s) (hdirt : (s.buf b).bDirt = false) (hq : ¬ s.Queued b .write) :
    fate b s.log = .saved := by
  cases hf : fate b s.log with
  | saved => rfl
  | dirty => exact absurd ((h.dirty b hf).symm.trans hdirt) (by decide)
  | queued => exact absurd (h.queued b hf) hq

theorem Event.Minor.after {e : Event n} (he : e.Minor) (f : Fate) : f.after b e = f := by
  cases e with
  | nullAccess => rfl
  | command c => rfl
  | dataPhase p => rfl
  | _ => exact he.elim

theorem Event.Minor.not_discards {e : Event n} (he : e.Minor) : ¬ e.Discards b := by
  cases e with
  | nullAccess => exact id
  | command c => exact id
  | dataPhase p => exact id
  | _ => exact he.elim

namespace Tracked

/-- Nothing is recorded. -/
theorem congr (h : Tracked s) (hlog : s'.log = s.log)
    (hdirt : ∀ c, (s.buf c).bDirt = true → (s'.buf c).bDirt = true)
    (hqueued : ∀ c, s.Queued c .write → s'.Queued c .write) : Tracked s' := by
  refine ⟨fun c hc => ?_, fun c hc => ?_, ?_⟩
  · rw [hlog] at hc
    exact hdirt c (h.dirty c hc)
  · rw [hlog] at hc
    exact hqueued c (h.queued c hc)
  · rw [hlog]
    exact h.discarded

/-- One event is recorded. -/
theorem event {e : Event n} (h : Tracked s) (hlog : s'.log = e :: s.log)
    (hdirty : ∀ c, (fate c s.log).after c e = .dirty → (s'.buf c).bDirt = true)
    (hqueued : ∀ c, (fate c s.log).after c e = .queued → s'.Queued c .write)
    (hdiscard : ∀ c, e.Discards c → fate c s.log = .saved) : Tracked s' := by
  refine ⟨fun c hc => ?_, fun c hc => ?_, fun c e' older hsuffix he' => ?_⟩
  · rw [hlog] at hc
    exact hdirty c hc
  · rw [hlog] at hc
    exact hqueued c hc
  · rw [hlog] at hsuffix
    rcases List.suffix_cons_iff.mp hsuffix with heq | hsuffix
    · obtain ⟨rfl, rfl⟩ := List.cons.inj heq
      exact hdiscard c he'
    · exact h.discarded c e' older hsuffix he'

/-- Minor events are recorded. -/
theorem minor (h : Tracked s) (hminor : MinorLog s s')
    (hdirt : ∀ c, (s.buf c).bDirt = true → (s'.buf c).bDirt = true)
    (hqueued : ∀ c, s.Queued c .write → s'.Queued c .write) : Tracked s' := by
  obtain ⟨es, hlog, hes⟩ := hminor
  suffices hall : ∀ es, (∀ e ∈ es, e.Minor) → Tracked { s with log := es ++ s.log } from
    (hall es hes).congr hlog hdirt hqueued
  intro es
  induction es with
  | nil => exact fun _ => h.congr rfl (fun _ => id) fun _ => id
  | cons e es ih =>
      intro hes
      have he := hes e (List.mem_cons_self ..)
      have hrest := ih fun e' he' => hes e' (List.mem_cons_of_mem _ he')
      refine hrest.event (e := e) rfl (fun c hc => ?_) (fun c hc => ?_) fun c hc => ?_
      · rw [he.after] at hc
        exact hrest.dirty c hc
      · rw [he.after] at hc
        exact hrest.queued c hc
      · exact absurd hc he.not_discards

/-- The driver keeps track of the changes as long as no write fails. -/
theorem effect (h : Tracked s) (hflags : Flags sub s) (heff : Effect sub s s')
    (hlog : ∀ e ∈ s'.log, ¬ e.Failed (· = .write)) : Tracked s' := by
  -- transfers are minor events; the end of a request is the one that decides a fate
  cases heff with
  | none _ hbuf _ hqueued hminor =>
      exact h.minor hminor (fun c hc => by rwa [hbuf]) fun c hc => (hqueued c .write).mpr hc
  | @load b _ _ _ hother hself _ hqueued hminor =>
      refine h.minor hminor (fun c hc => ?_) fun c hc => (hqueued c .write).mpr hc
      by_cases hcb : c = b
      · subst hcb
        rwa [hself]
      · rwa [hother c hcb]
  | save _ _ _ hbuf _ hqueued hminor =>
      exact h.minor hminor (fun c hc => by rwa [hbuf]) fun c hc => (hqueued c .write).mpr hc
  | @done b cmd ok _ hb _ hcmd hbuf _ hqueued _ hended =>
      have hdirt : ∀ c, (s.buf c).bDirt = true → (s'.buf c).bDirt = true := by
        intro c hc
        by_cases hcb : c = b
        · subst hcb; simpa [hbuf] using hc
        · simpa [hbuf, hcb] using hc
      have hother : ∀ c, c ≠ b → s.Queued c .write → s'.Queued c .write := fun c hcb hc =>
        (hqueued c .write).mpr ⟨hc, hcb⟩
      rcases hcmd with rfl | rfl
      -- a read has ended: its buffer had no write in the queue
      · refine h.event hended (fun c hc => hdirt c (h.dirty c hc)) (fun c hc => ?_) fun c hc =>
          hc.elim
        have hwrite := h.queued c hc
        refine hother c (fun hcb => ?_) hwrite
        subst hcb
        exact (hflags.queued c .write hwrite).not_read (hflags.queued c .read hb)
      · cases ok with
        | false =>
            rw [hended] at hlog
            have hfailed := hlog _ (List.mem_cons_self ..)
            exact (hfailed rfl).elim
        | true =>
            refine h.event hended (fun c hc => ?_) (fun c hc => ?_) fun c hc => hc.elim
            · simp only [Fate.after] at hc
              split at hc
              · exact absurd hc (by decide)
              · exact hdirt c (h.dirty c hc)
            · simp only [Fate.after] at hc
              split at hc
              · exact absurd hc (by decide)
              · rename_i hnot
                exact hother c (fun hcb => hnot ⟨hcb.symm, hc⟩) (h.queued c hc)

/-- A step of the request layer keeps track of the changes as long as no write fails. -/
theorem move {x y : Submission n × Sys n} (h : Tracked x.2) (hflags : Flags x.1 x.2)
    (hmove : Move x y) (hlog : ∀ e ∈ y.2.log, ¬ e.Failed (· = .write)) : Tracked y.2 := by
  -- what a submission does before it offers the buffer leaves the log as it is
  cases hmove with
  | effect heff => exact h.effect hflags heff hlog
  | @lock s b _ =>
      refine h.congr rfl (fun c hc => ?_) fun c => id
      rwa [Sys.setBuf_at (·.bDirt), ite_self]
  | check _ _ _ => exact h
  | @giveUp s b cmd _ =>
      refine h.congr rfl (fun c hc => ?_) fun c => id
      rwa [unlockBuff, Sys.setBuf_at (·.bDirt), ite_self]
  | @fill s b rw r hfree _ =>
      refine h.congr rfl (fun c hc => hc) fun c hc => ?_
      obtain ⟨r', hused, hbh, hcmd⟩ := hc
      have hr : r' ≠ r := by
        rintro rfl
        exact absurd hfree (not_lt.mpr hused)
      exact ⟨r', by simpa [hr] using hused, by simpa [hr] using hbh, by simpa [hr] using hcmd⟩
  | @offer s s' b cmd r hb _ _ hbuf hqueued hended =>
      have hother : ∀ c, c ≠ b → s'.buf c = s.buf c := fun c hcb => by
        rw [hbuf, Function.update_of_ne hcb]
      have hdue := hflags.queued b cmd hb
      cases cmd with
      | read =>
          -- the buffer is not up to date, so it is neither dirty nor queued for writing
          have hsaved : fate b s.log = .saved := by
            refine h.saved (Bool.eq_false_iff.mpr fun hd => ?_) fun hq => ?_
            · exact (hflags.dirty b hd).not_read hdue
            · exact (hflags.queued b .write hq).not_read hdue
          refine h.event hended (fun c hc => ?_) (fun c hc => ?_) fun c hc => ?_
          · have hcb : c ≠ b := by
              rintro rfl
              exact absurd (hsaved.symm.trans hc) (by decide)
            rw [hother c hcb]
            exact h.dirty c hc
          · exact (hqueued c .write).mpr (h.queued c hc)
          · obtain rfl : b = c := hc
            exact hsaved
      | write =>
          refine h.event hended (fun c hc => ?_) (fun c hc => ?_) fun c hc => hc.elim
          · simp only [Fate.after] at hc
            -- the log says what became of `c`: this `WRITE` is for it, or an older event counts
            split at hc
            · exact absurd hc (by decide)
            · rename_i hnot
              have hcb : c ≠ b := fun hcb => hnot ⟨hcb.symm, hc⟩
              rw [hother c hcb]
              exact h.dirty c hc
          · simp only [Fate.after] at hc
            split at hc
            · rename_i heq
              exact (hqueued c .write).mpr (heq.1 ▸ hb)
            · exact (hqueued c .write).mpr (h.queued c hc)
      | readA => exact hdue.elim
      | writeA => exact hdue.elim

end Tracked

/-! ## The invariants together -/

/-- No write has failed, and no change was lost. -/
structure Secure (sub : Submission n) (s : Sys n) : Prop where
  serving : Serving sub s
  spared : Spared (· = .write) s
  flags : Flags sub s
  tracked : Tracked s

theorem Effect.log (h : Effect sub s s') : s.log <:+ s'.log := by
  have hminor : MinorLog s s' → s.log <:+ s'.log := fun ⟨es, hlog, _⟩ => ⟨es, hlog.symm⟩
  cases h with
  | none _ _ _ _ hlog => exact hminor hlog
  | load _ _ _ _ _ _ _ hlog => exact hminor hlog
  | save _ _ _ _ _ _ hlog => exact hminor hlog
  | done _ _ _ _ _ _ _ _ hlog => exact ⟨[_], hlog.symm⟩

theorem Move.log {x y : Submission n × Sys n} (h : Move x y) : x.2.log <:+ y.2.log := by
  cases h with
  | effect heff => exact heff.log
  | offer _ _ _ _ _ hlog => exact ⟨[_], hlog.symm⟩
  | _ => exact List.suffix_rfl

/-- Moves keep flags and fates if no write has failed when they are over. -/
theorem Moves.secure {x y : Submission n × Sys n} (hflags : Flags x.1 x.2)
    (htracked : Tracked x.2) (hpath : Moves x y) (hlog : ∀ e ∈ y.2.log, ¬ e.Failed (· = .write)) :
    Flags y.1 y.2 ∧ Tracked y.2 := by
  induction hpath with
  | refl => exact ⟨hflags, htracked⟩
  | @tail y z _ hmove ih =>
      obtain ⟨hflags', htracked'⟩ := ih fun e he => hlog e (hmove.log.subset he)
      exact ⟨hflags'.move hmove hlog, htracked'.move hflags' hmove hlog⟩

theorem Flags.placed (h : Flags sub s) : s.Placed (· = .write) := by
  rintro b cmd rfl hb
  exact (h.queued b .write hb).2

/-- **One step of the request layer.** -/
theorem Secure.submit {x y : Submission n × Sys n} (henv : env.Answers)
    (hspares : env.Spares (· = .write)) (h : Secure x.1 x.2) (hstep : Submit env x y) :
    Secure y.1 y.2 := by
  obtain ⟨hserving, hmoves⟩ := h.serving.submit henv hstep
  have hspared := h.serving.spared henv hspares h.flags.placed h.spared hstep
  obtain ⟨hflags, htracked⟩ := hmoves.secure h.flags h.tracked hspared.log
  exact ⟨hserving, hspared, hflags, htracked⟩

/-! ## The steps of the buffer cache -/

theorem Pooled.queued_locked {cmd : Rw} (h : Pooled .idle s) (hb : s.Queued b cmd) :
    (s.buf b).bLock = true := by
  obtain ⟨r, hused, hbh, -⟩ := hb
  obtain ⟨q, hq⟩ := h
  have hr : r ∈ q := ((hq.slots r).mp hused).resolve_right (by simp)
  exact (hq.locked b).mpr (.inl ⟨r, hr, hbh⟩)

/-- What the holders of buffers may do without losing a change: they change buffers that
are up to date, and blocks that are inside their partition. -/
def Sound (geo : Geometry) (s : Sys n) : Change n → Prop
  | .store b => (s.buf b).bUptodate = true ∧ geo.Inside (s.buf b).bDev (s.buf b).bBlocknr
  | .zero b => geo.Inside (s.buf b).bDev (s.buf b).bBlocknr
  | .invalidate _ => True

/-- A step of the buffer cache that leaves the queue alone keeps the invariants when the
flags it assigns suit the queue and the history. -/
theorem Secure.touched (h : Secure .idle s) (ht : Touched s s')
    (hdirty : ∀ c, (s'.buf c).bDirt = true → s'.Due c .write)
    (hqueued : ∀ c cmd, s.Queued c cmd → s.Due c cmd → s'.Due c cmd) (htracked : Tracked s') :
    Secure .idle s' := by
  refine ⟨h.serving.touched ht, h.spared.touched ht, ⟨hdirty, fun c cmd hc => ?_, by simp⟩,
    htracked⟩
  have hold := (ht.queued c cmd).mp hc
  exact hqueued c cmd hold (h.flags.queued c cmd hold)

/-- Flags, key and history stay the same. -/
theorem Secure.same (h : Secure .idle s) (ht : Touched s s') (hlog : s'.log = s.log)
    (hkey : ∀ c, s'.Keyed c (s.buf c).bDev (s.buf c).bBlocknr)
    (hflags : ∀ c, (s'.buf c).bUptodate = (s.buf c).bUptodate ∧
      (s'.buf c).bDirt = (s.buf c).bDirt) : Secure .idle s' := by
  have hdue : ∀ c cmd, s.Due c cmd → s'.Due c cmd := fun c cmd hc =>
    hc.congr ht.geo (hkey c) (hflags c).1
  refine h.touched ht (fun c hc => hdue c .write (h.flags.dirty c ?_)) (fun c cmd _ => hdue c cmd)
    (h.tracked.congr hlog (fun c hc => (hflags c).2.trans hc) fun c => (ht.queued c .write).mpr)
  exact (hflags c).2.symm.trans hc

theorem Secure.count (h : Secure .idle s) (b : Fin n) (count : ℕ) :
    Secure .idle (s.setBuf b fun bh => { bh with bCount := count }) := by
  refine h.same (.count s b count) rfl (fun c => ⟨?_, ?_⟩) fun c => ⟨?_, ?_⟩
  · rw [Sys.setBuf_at (·.bDev), ite_self]
  · rw [Sys.setBuf_at (·.bBlocknr), ite_self]
  · rw [Sys.setBuf_at (·.bUptodate), ite_self]
  · rw [Sys.setBuf_at (·.bDirt), ite_self]

/-- One buffer gets new flags, with one event. -/
theorem Secure.assign {e : Event n} (h : Secure .idle s) (ht : Touched s s')
    (hlog : s'.log = e :: s.log) (hself : (s'.buf b).bDirt = true → s'.Due b .write)
    (hkeep : ∀ cmd, s.Queued b cmd → s.Due b cmd → s'.Due b cmd)
    (hother : ∀ c, c ≠ b → s'.Keyed c (s.buf c).bDev (s.buf c).bBlocknr ∧
      (s'.buf c).bUptodate = (s.buf c).bUptodate ∧ (s'.buf c).bDirt = (s.buf c).bDirt ∧
      (fate c s.log).after c e = fate c s.log ∧ ¬ e.Discards c)
    (hfate : (fate b s.log).after b e = .saved ∨
      (fate b s.log).after b e = .dirty ∧ (s'.buf b).bDirt = true)
    (hdiscard : e.Discards b → fate b s.log = .saved) : Secure .idle s' := by
  have hdue : ∀ c, c ≠ b → ∀ cmd, s.Due c cmd → s'.Due c cmd := fun c hcb cmd hc =>
    hc.congr ht.geo (hother c hcb).1 (hother c hcb).2.1
  refine h.touched ht (fun c hc => ?_) (fun c cmd hc hold => ?_)
    (h.tracked.event hlog (fun c hc => ?_) (fun c hc => ?_) fun c hc => ?_)
  · by_cases hcb : c = b
    · subst hcb
      exact hself hc
    · refine hdue c hcb .write (h.flags.dirty c ?_)
      exact (hother c hcb).2.2.1.symm.trans hc
  · by_cases hcb : c = b
    · subst hcb
      exact hkeep cmd hc hold
    · exact hdue c hcb cmd hold
  · by_cases hcb : c = b
    · subst hcb
      rcases hfate with hf | hf
      · exact absurd (hf.symm.trans hc) (by decide)
      · exact hf.2
    · rw [(hother c hcb).2.2.2.1] at hc
      exact (hother c hcb).2.2.1.trans (h.tracked.dirty c hc)
  · by_cases hcb : c = b
    · subst hcb
      rcases hfate with hf | hf
      · exact absurd (hf.symm.trans hc) (by decide)
      · exact absurd (hf.1.symm.trans hc) (by decide)
    · rw [(hother c hcb).2.2.2.1] at hc
      exact (ht.queued c .write).mpr (h.tracked.queued c hc)
  · by_cases hcb : c = b
    · exact hcb ▸ hdiscard (hcb ▸ hc)
    · exact absurd hc (hother c hcb).2.2.2.2

/-- The buffer of an unlocked header has no request. -/
theorem Secure.not_queued (h : Secure .idle s) (hlock : (s.buf b).bLock = false) (cmd : Rw) :
    ¬ s.Queued b cmd := fun hb =>
  absurd ((h.serving.pooled.queued_locked hb).symm.trans hlock) (by decide)

theorem Secure.reuse {dev block : ℕ} (h : Secure .idle s) (ht : Touched s s')
    (hrec : Recyclable env s dev block b) (hreuse : reuse b dev block env k s = .ok () s') :
    Secure .idle s' := by
  obtain ⟨hstate, hself, hother⟩ := reuse_spec hreuse
  have hsaved : fate b s.log = .saved := h.tracked.saved hrec.dirt (h.not_queued hrec.lock .write)
  have hclean : (s'.buf b).bDirt = false := congrArg BufferCore.bDirt hself
  refine h.assign ht (e := .recycled b) (by rw [hstate]) (fun hc => ?_) (fun cmd hc => ?_)
    (fun c hcb => ?_) (.inl hsaved) fun _ => hsaved
  · exact absurd (hc.symm.trans hclean) (by decide)
  · exact absurd hc (h.not_queued hrec.lock cmd)
  · have hcore := hother c hcb
    exact ⟨⟨congrArg BufferCore.bDev hcore, congrArg BufferCore.bBlocknr hcore⟩,
      congrArg BufferCore.bUptodate hcore, congrArg BufferCore.bDirt hcore, rfl, Ne.symm hcb⟩

/-- A holder changes a buffer that is up to date. -/
theorem Secure.store (h : Secure .idle s) (data : Block) (hsound : Sound s.geo s (.store b))
    (ht : Touched s (store b data s)) : Secure .idle (store b data s) := by
  have hup : ((EgGS.store b data s).buf b).bUptodate = (s.buf b).bUptodate := by simp [EgGS.store]
  have hkey : (EgGS.store b data s).Keyed b (s.buf b).bDev (s.buf b).bBlocknr := by
    simp [EgGS.store, Sys.Keyed]
  refine h.assign ht (e := .stored b) rfl (fun _ => ?_) (fun cmd _ hc => hc.congr rfl hkey hup)
    (fun c hcb => ?_) (.inr ⟨?_, ?_⟩) (fun hd => hd.elim)
  · have hdue : s.Due b .write := hsound
    exact hdue.congr rfl hkey hup
  · simp [EgGS.store, Sys.Keyed, Fate.after, hcb, Ne.symm hcb, Event.Discards]
  · simp [Fate.after]
  · simp [EgGS.store]

/-- **One step of the buffer cache** that changes contents soundly. -/
theorem Secure.step {asked : ℕ → ℕ → Prop} (henv : env.Answers)
    (hspares : env.Spares (· = .write)) (h : Secure .idle s)
    (hstep : CacheStep env asked (Sound s.geo) s s') : Secure .idle s' := by
  have hsubmits : Submits env (.idle, s) (.idle, s') → Secure .idle s' := fun hpath =>
    hpath.invariant (fun h hstep => h.submit henv hspares hstep) h
  rcases hstep.touched with hpath | ht
  · exact hsubmits hpath
  cases hstep with
  | block hpath => exact hsubmits hpath
  | up b => exact h.count b _
  | down b => exact h.count b _
  | reuse _ hrec hreuse => exact h.reuse ht hrec hreuse
  | copy mem => exact h.same ht rfl (fun _ => ⟨rfl, rfl⟩) fun _ => ⟨rfl, rfl⟩
  | store data hsound => exact h.store data hsound ht
  | @zero b hsound hlock =>
      refine h.assign ht (e := .stored b) rfl (fun _ => ?_)
        (fun cmd hc => absurd hc (h.not_queued hlock cmd)) (fun c hcb => ?_) (.inr ⟨?_, ?_⟩)
        (fun hd => hd.elim)
      · exact ⟨by simp [Sys.zero], by simpa [Sys.zero, Sound] using hsound⟩
      · simp [Sys.zero, Sys.Keyed, Fate.after, hcb, Ne.symm hcb, Event.Discards]
      · simp [Fate.after]
      · simp [Sys.zero]
  | @invalidate b _ hlock =>
      refine h.assign ht (e := .invalidated b) rfl (fun hc => ?_)
        (fun cmd hc => absurd hc (h.not_queued hlock cmd)) (fun c hcb => ?_) (.inl ?_)
        (fun hd => hd.elim)
      · simp [Sys.invalidate] at hc
      · simp [Sys.invalidate, Sys.Keyed, Fate.after, hcb, Ne.symm hcb, Event.Discards]
      · simp [Fate.after]

/-! ## Runs -/

/-- Contents are changed soundly: buffers that are up to date, and blocks inside their
partition. -/
def Careful (env : Env n) (_ : Refs n) (s : Sys n) (c : CacheCall n) : Prop :=
  c.Changes env (c.Asks env s) (Sound s.geo) s

theorem CacheStep.geo {asked : ℕ → ℕ → Prop} {may : Sys n → Change n → Prop}
    (h : CacheStep env asked may s s') : s'.geo = s.geo := by
  rcases h.touched with hpath | ht
  · exact congrArg Rest.geo hpath.rest
  · exact ht.geo

theorem Secure.steps {asked : ℕ → ℕ → Prop} (henv : env.Answers)
    (hspares : env.Spares (· = .write)) (h : Secure .idle s)
    (hpath : CacheSteps env asked (Sound s.geo) s s') : Secure .idle s' := by
  have hboth : Secure .idle s' ∧ s'.geo = s.geo := by
    refine hpath.invariant (I := fun t => Secure .idle t ∧ t.geo = s.geo)
      (fun {t t'} hI hstep => ?_) ⟨h, rfl⟩
    have hsound : CacheStep env asked (Sound t.geo) t t' := by
      rw [hI.2]
      exact hstep
    exact ⟨hI.1.step henv hspares hsound, hstep.geo.trans hI.2⟩
  exact hboth.1

/-- Behind `init_request_queue` and `init_buff` nothing is dirty and nothing is queued. -/
theorem Secure.init [NeZero n] (hquiet : s₀.Quiet) :
    Secure .idle (initBuff (initRequestQueue s₀)) := by
  have hfree : ∀ b, ((initRequestQueue s₀).buf b).bLock = false := hquiet.unlocked
  have ht : Touched (initRequestQueue s₀) (initBuff (initRequestQueue s₀)) :=
    ⟨rfl, rfl, rfl, rfl, rfl, rfl, fun b => (hfree b).symm,
      fun b hb => absurd (hb.symm.trans (hfree b)) (by decide), [], rfl, by simp⟩
  have hlog : (initBuff (initRequestQueue s₀)).log = [] := hquiet.log
  have hcurrent : (initBuff (initRequestQueue s₀)).current = none := hquiet.current
  refine ⟨(Serving.init hquiet).touched ht, ⟨?_, fun _ r hr => ?_⟩,
    ⟨fun b hb => absurd hb (by simp [initBuff]), fun b cmd hb => ?_, by simp⟩, ⟨?_, ?_, ?_⟩⟩
  · simp [hlog]
  · exact absurd (hcurrent.symm.trans hr) (by simp)
  · obtain ⟨r, hused, -⟩ := hb
    exact absurd hused (by simp [initBuff, initRequestQueue])
  · simp [hlog, fate]
  · simp [hlog, fate]
  · simp [hlog]

/-- **A change is not lost unless a write is given up.**  In every run in which no write is
given up, a buffer that was changed stays dirty or queued for writing until a write of its
contents has ended well, and until then its header is not recycled and no read into it is
queued. -/
theorem updates_kept [NeZero n] {refs : Refs n} (hquiet : s₀.Quiet) (henv : env.Answers)
    (hspares : env.Spares (· = .write))
    (h : CacheReach env (Careful env) (initRequestQueue s₀) refs s) : Lossless s := by
  suffices hsecure : Secure .idle s from hsecure.tracked.lossless
  induction h with
  | init => exact .init hquiet
  | call c _ hlegal hexec ih => exact ih.steps henv hspares (c.steps (fun _ _ => id) hlegal hexec)

/-- A buffer is read and changed. -/
def changed (env : Env 1) : Sys 1 :=
  CacheCall.after (.store 0 zeroBlock) env
    (CacheCall.after (.read 0x300 0) env (initBuff oneHeader))

/-- The change is written back, and time passes. -/
def settled (env : Env 1) : Sys 1 :=
  CacheCall.after .idle env (CacheCall.after (.sync 0x300) env (changed env))

/-- The answers of a drive that cannot write. -/
def Env.readOnly : Env n :=
  { Env.diligent 0x50 with
    irq := fun s =>
      if s.ctl.outstanding then some ⟨if s.ctl.command.cmd = .write then 0x51 else 0x50⟩ else none
    burst := fun _ => 40 }

/-- The calls up to `settled` return, and the store is sound. -/
structure Settles (env : Env 1) : Prop where
  read : ((CacheCall.read 0x300 0).exec env 40 (initBuff oneHeader)).value? = some (some 0)
  sound : Sound (CacheCall.after (.read 0x300 0) env (initBuff oneHeader)).geo
    (CacheCall.after (.read 0x300 0) env (initBuff oneHeader)) (.store 0)
  sync : ((CacheCall.sync 0x300).exec env 40 (changed env)).value? = some none
  idle : (CacheCall.idle.exec env 40 (CacheCall.after (.sync 0x300) env (changed env))).value? =
    some none

theorem Settles.reach {env : Env 1} (h : Settles env) :
    ∃ refs, CacheReach env (Careful env) oneHeader refs (settled env) := by
  have hread : CacheReach env (Careful env) oneHeader _ _ :=
    .after (.read 0x300 0) .init trivial h.read
  have hstore : CacheReach env (Careful env) oneHeader _ (changed env) :=
    .after (.store 0 zeroBlock) hread h.sound (show _ = some none from rfl)
  have hsync : CacheReach env (Careful env) oneHeader _ _ :=
    .after (.sync 0x300) hstore trivial h.sync
  exact ⟨_, .after .idle hsync trivial h.idle⟩

/-- The drive cannot write, and the change is lost: after seven errors the buffer is neither
dirty nor queued, and the next `read_buff` reads the old block over it. -/
theorem write_given_up :
    (Env.readOnly : Env 1).Answers ∧
    (∃ refs, CacheReach Env.readOnly (Careful Env.readOnly) oneHeader refs
      (settled Env.readOnly)) ∧
    ¬ Lossless (settled Env.readOnly) ∧
    ((changed Env.readOnly).buf 0).bData 600 = 0 ∧
    ((CacheCall.after (.read 0x300 0) Env.readOnly (settled Env.readOnly)).buf 0).bData 600 =
      7 := by
  refine ⟨fun s i h => ?_, Settles.reach ⟨?_, ⟨?_, ?_⟩, ?_, ?_⟩, fun h => ?_, ?_, ?_⟩
  · simp only [Env.readOnly] at h
    split at h
    · assumption
    · exact absurd h (by simp)
  · decide +kernel
  · decide +kernel
  · unfold Geometry.Inside; decide +kernel
  · decide +kernel
  · decide +kernel
  · have hunsaved : fate 0 (settled Env.readOnly).log = .queued := by decide +kernel
    have hclean : ((settled Env.readOnly).buf 0).bDirt = false := by decide +kernel
    have hunqueued : ∀ r, ((settled Env.readOnly).request r).dev < 0 := by decide +kernel
    rcases h.kept 0 (by rw [hunsaved]; decide) with hdirt | ⟨r, hused, -⟩
    · exact absurd (hdirt.symm.trans hclean) (by decide)
    · exact absurd hused (not_le.mpr (hunqueued r))
  · decide +kernel
  · decide +kernel

/-- A drive that writes. -/
theorem updates_kept_synced : Lossless (settled (Env.diligent 0x50)) := by
  have hquiet : Sys.Quiet { (Sys.load fun _ _ _ => 7 : Sys 1) with
      geo := smallDrive, hdEnabled := true } := ⟨rfl, fun _ => rfl, rfl, rfl⟩
  have hspares : (Env.diligent 0x50 : Env 1).Spares (· = .write) := by
    refine ⟨fun s i h hfail => ?_, fun s h => absurd h (by simp [Env.diligent])⟩
    simp only [Env.diligent] at h
    split at h
    · obtain rfl := Option.some.inj h
      exact absurd hfail (by decide)
    · exact absurd h (by simp)
  have hruns : Settles (Env.diligent 0x50) :=
    ⟨by decide +kernel, ⟨by decide +kernel, by unfold Geometry.Inside; decide +kernel⟩, by
      decide +kernel, by decide +kernel⟩
  obtain ⟨_, hreach⟩ := hruns.reach
  exact updates_kept hquiet (diligent_answers 0x50) hspares hreach

end EgGS
