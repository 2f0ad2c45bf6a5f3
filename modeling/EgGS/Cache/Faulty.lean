import EgGS.Cache.Access
import EgGS.Cache.Recycle

/-!
# A disk that fails

Where requests may fail, a buffer that was to be written can be left out of date, with contents
that the disk never got.  Still the cache shows contents for every block: those of its buffer,
if that is up to date, and those of the disk otherwise (`Sys.contents`).

* `Faithful`: a buffer that is up to date, clean and not being written has what the disk has,
  whether earlier requests have succeeded or not.
* `CacheRun` are the runs of the cache in which any request may fail.
* `Sustained.mapped`: in every state of such a run in which no buffer with something to write is
  out of date, the cache is a map as on a disk that works, with the contents that it shows.
-/

namespace EgGS

open Lib Prog Relation

variable {n : ℕ} {env : Env n} {k : ℕ} {s s' s₀ t : Sys n}
variable {sub : Submission n} {b c : Fin n} {dev block : ℕ}
variable {which : Rw → Prop} {used : ℕ × ℕ → Prop}

/-! ## Buffers and disk -/

/-- Headers belong to blocks that are used, no two to one block, and no two blocks that are used
have a sector in common. -/
structure Housed (used : ℕ × ℕ → Prop) (s : Sys n) : Prop where
  known : ∀ b, (s.buf b).bDev ≠ 0 → used (s.key b)
  tiled : s.geo.Tiled used
  unique : ∀ b c, (s.buf b).bDev ≠ 0 → s.key c = s.key b → c = b

theorem Housed.congr (h : Housed used s) (hrest : s'.rest = s.rest) : Housed used s' := by
  have hkey := Sys.key_of_rest hrest
  have hdev : ∀ c, (s'.buf c).bDev = (s.buf c).bDev := fun c => congrArg Prod.fst (hkey c)
  have hgeo : s'.geo = s.geo := congrArg Rest.geo hrest
  refine ⟨fun b hb => ?_, hgeo ▸ h.tiled, fun b c hb hbc => ?_⟩
  · rw [hkey]
    exact h.known b (hdev b ▸ hb)
  · rw [hkey, hkey] at hbc
    exact h.unique b c (hdev b ▸ hb) hbc

/-- What a request needs that is queued for the buffer `b`: a read is for a buffer that is not up
to date. -/
def Sys.Wanted (s : Sys n) (b : Fin n) : Rw → Prop
  | .read => (s.buf b).bUptodate = false
  | .write => True
  | _ => False

theorem Sys.Wanted.congr {cmd : Rw} (h : s.Wanted b cmd)
    (hup : (s'.buf b).bUptodate = (s.buf b).bUptodate) : s'.Wanted b cmd := by
  cases cmd with
  | read => exact hup.trans h
  | _ => exact h

/-- Reads are for buffers that are not up to date, and a buffer that is up to date, clean and not
being written has what the disk has. -/
structure Faithful (sub : Submission n) (s : Sys n) : Prop where
  queued : ∀ b cmd, s.Queued b cmd → s.Wanted b cmd
  decided : ∀ b cmd, sub.buf = some b → sub.cmd = some cmd → s.Wanted b cmd
  agrees : ∀ b, (s.buf b).bDev ≠ 0 → (s.buf b).bUptodate = true → (s.buf b).bDirt = false →
    ¬ s.Queued b .write → (s.buf b).bData = s.diskBlock (s.buf b).bDev (s.buf b).bBlocknr

namespace Faithful

/-- Keys, flags and disk stay the same, and so do the buffers that are up to date. -/
theorem congr {sub' : Submission n} (h : Faithful sub s) (hkey : ∀ c, s'.key c = s.key c)
    (hdata : ∀ c, (s'.buf c).bUptodate = (s.buf c).bUptodate ∧
      ((s.buf c).bUptodate = true → (s'.buf c).bData = (s.buf c).bData))
    (hdisk : s'.disk = s.disk) (hgeo : s'.geo = s.geo)
    (hclean : ∀ c, (s.buf c).bUptodate = true → (s'.buf c).bDirt = false → ¬ s'.Queued c .write →
      (s.buf c).bDirt = false ∧ ¬ s.Queued c .write)
    (hqueued : ∀ c cmd, s'.Queued c cmd → s.Queued c cmd ∨ sub.buf = some c ∧ sub.cmd = some cmd)
    (hsub : ∀ c cmd, sub'.buf = some c → sub'.cmd = some cmd →
      sub.buf = some c ∧ sub.cmd = some cmd) : Faithful sub' s' := by
  refine ⟨fun c cmd hc => ?_, fun c cmd hc hcmd => ?_, fun c hdev hup hdirt hq => ?_⟩
  · rcases hqueued c cmd hc with hold | ⟨hbuf, hcmd⟩
    · exact (h.queued c cmd hold).congr (hdata c).1
    · exact (h.decided c cmd hbuf hcmd).congr (hdata c).1
  · obtain ⟨hbuf, hcmd'⟩ := hsub c cmd hc hcmd
    exact (h.decided c cmd hbuf hcmd').congr (hdata c).1
  · have hdev' : (s'.buf c).bDev = (s.buf c).bDev := congrArg Prod.fst (hkey c)
    have hnr : (s'.buf c).bBlocknr = (s.buf c).bBlocknr := congrArg Prod.snd (hkey c)
    rw [(hdata c).1] at hup
    obtain ⟨hclean', hq'⟩ := hclean c hup hdirt hq
    rw [(hdata c).2 hup, Sys.diskBlock, hdisk, hgeo, hdev', hnr]
    exact h.agrees c (hdev' ▸ hdev) hup hclean' hq'

/-- **The driver keeps the cache faithful**, however its requests end. -/
theorem effect (h : Faithful sub s) (hhoused : Housed used s) (hdevised : s.Devised)
    (heff : Effect sub s s') : Faithful sub s' := by
  -- as in `Coherent.effect`, but a `WRITE` may fail: then the buffer is not up to date any more
  cases heff with
  | none hrest hbuf hdisk hqueue _ =>
      refine h.congr (Sys.key_of_rest hrest) (fun c => ?_) hdisk (congrArg Rest.geo hrest)
        (fun c _ hdirt hq => ?_) (fun c cmd hc => .inl ((hqueue c cmd).mp hc))
        fun c cmd hc hcmd => ⟨hc, hcmd⟩
      · rw [hbuf]
        exact ⟨rfl, fun _ => rfl⟩
      · rw [hbuf] at hdirt
        exact ⟨hdirt, (hqueue c .write).not.mp hq⟩
  | @load b hrest hb _ hother hself hdisk hqueue _ =>
      have hstale : (s.buf b).bUptodate = false := h.queued b .read hb
      refine h.congr (Sys.key_of_rest hrest) (fun c => ?_) hdisk (congrArg Rest.geo hrest)
        (fun c _ hdirt hq => ⟨?_, (hqueue c .write).not.mp hq⟩)
        (fun c cmd hc => .inl ((hqueue c cmd).mp hc)) fun c cmd hc hcmd => ⟨hc, hcmd⟩
      · by_cases hcb : c = b
        · subst hcb
          rw [hself]
          exact ⟨rfl, fun hup => absurd (hup.symm.trans hstale) (by decide)⟩
        · rw [hother c hcb]
          exact ⟨rfl, fun _ => rfl⟩
      · by_cases hcb : c = b
        · subst hcb
          rwa [hself] at hdirt
        · rwa [hother c hcb] at hdirt
  | @save b hrest hb _ hbuf hdisk hqueue _ =>
      refine ⟨fun c cmd hc => (h.queued c cmd ((hqueue c cmd).mp hc)).congr (by rw [hbuf]),
        fun c cmd hc hcmd => (h.decided c cmd hc hcmd).congr (by rw [hbuf]),
        fun c hdev hup hdirt hq => ?_⟩
      rw [hbuf] at hdev hup hdirt ⊢
      have hq' : ¬ s.Queued c .write := (hqueue c .write).not.mp hq
      have hdevb : (s.buf b).bDev ≠ 0 := hdevised b .write hb
      -- the sectors that are written belong to another block
      have hne : s.key c ≠ s.key b := by
        intro heq
        obtain rfl := hhoused.unique b c hdevb heq
        exact hq' hb
      have hapart := hhoused.tiled.apart _ _ (hhoused.known c hdev) (hhoused.known b hdevb) hne
      have hsame := hapart.diskBlock (congrArg Rest.geo hrest) hdisk
      exact (h.agrees c hdev hup hdirt hq').trans hsame.symm
  | @done b cmd ok hrest hb hsub _ hbuf hdisk hqueue hsame _ =>
      have hother : ∀ c, c ≠ b → s'.buf c = s.buf c := fun c hcb => by
        rw [hbuf, Function.update_of_ne hcb]
      have hgeo : s'.geo = s.geo := congrArg Rest.geo hrest
      refine ⟨fun c cmd' hc => ?_, fun c cmd' hc hcmd' => ?_, fun c hdev hup hdirt hq => ?_⟩
      · obtain ⟨hc, hcb⟩ := (hqueue c cmd').mp hc
        exact (h.queued c cmd' hc).congr (by rw [hother c hcb])
      · have hcb : c ≠ b := fun hcb => hsub (hcb ▸ hc)
        exact (h.decided c cmd' hc hcmd').congr (by rw [hother c hcb])
      · -- a request that ends well leaves the buffer and the disk with the same data
        by_cases hcb : c = b
        · subst hcb
          rw [hbuf, Function.update_self] at hup hdirt ⊢
          rw [Sys.diskBlock, hdisk, hgeo]
          exact hsame hup hdirt
        · rw [hother c hcb] at hdev hup hdirt ⊢
          rw [Sys.diskBlock, hdisk, hgeo]
          exact h.agrees c hdev hup hdirt fun hqc => hq ((hqueue c .write).mpr ⟨hqc, hcb⟩)

theorem effects (h : Faithful sub s) (hhoused : Housed used s) (hdevised : s.Devised)
    (hpath : Effects sub s s') : Faithful sub s' := by
  suffices hall : Faithful sub s' ∧ s'.Devised ∧ s'.rest = s.rest from hall.1
  induction hpath with
  | refl => exact ⟨h, hdevised, rfl⟩
  | tail _ heff ih =>
      obtain ⟨ht, hdevised', hrest⟩ := ih
      exact ⟨ht.effect (hhoused.congr hrest) hdevised' heff,
        hdevised'.congr heff.rest fun b cmd => heff.queued_sub, heff.rest.trans hrest⟩

/-- A lock is not looked at. -/
theorem setLock {sub' : Submission n} (h : Faithful sub s) (b : Fin n) (lock : Bool)
    (hsub : ∀ c cmd, sub'.buf = some c → sub'.cmd = some cmd →
      sub.buf = some c ∧ sub.cmd = some cmd) :
    Faithful sub' (s.setBuf b fun bh => { bh with bLock := lock }) := by
  refine h.congr (Sys.key_of_rest (Sys.rest_setBuf s b (f := fun bh => { bh with bLock := lock })
    fun _ => rfl)) (fun c => ⟨?_, fun _ => ?_⟩) rfl rfl (fun c _ hdirt hq => ⟨?_, hq⟩)
    (fun c cmd => .inl) hsub
  · rw [Sys.setBuf_at (·.bUptodate), ite_self]
  · rw [Sys.setBuf_at (·.bData), ite_self]
  · rwa [Sys.setBuf_at (·.bDirt), ite_self] at hdirt

/-- A step of the request layer keeps the cache faithful. -/
theorem move {x y : Submission n × Sys n} (h : Faithful x.1 x.2) (hhoused : Housed used x.2)
    (hdevised : x.2.Devised) (hmove : Move x y) : Faithful y.1 y.2 := by
  cases hmove with
  | effect heff => exact h.effect hhoused hdevised heff
  | @lock s b _ => exact h.setLock b true (by simp)
  | @check s b rw hrw _ hup =>
      refine ⟨h.queued, fun c cmd hc hcmd => ?_, h.agrees⟩
      obtain rfl : b = c := Option.some.inj hc
      obtain rfl : rw = cmd := Option.some.inj hcmd
      rcases hrw with rfl | rfl
      · exact hup rfl
      · exact trivial
  | @giveUp s b cmd _ => exact h.setLock b false (by simp)
  | @fill s b rw r hfree _ =>
      refine h.congr (fun _ => rfl) (fun c => ⟨rfl, fun _ => rfl⟩) rfl rfl
        (fun c _ hdirt hq => ⟨hdirt, fun hqc => hq ?_⟩) (fun c cmd hc => ?_)
        fun c cmd hc hcmd => ⟨hc, hcmd⟩
      · obtain ⟨r', hused, hbh, hcmd⟩ := hqc
        have hr : r' ≠ r := by
          rintro rfl
          exact absurd hfree (not_lt.mpr hused)
        exact ⟨r', by simpa [hr] using hused, by simpa [hr] using hbh, by simpa [hr] using hcmd⟩
      · obtain ⟨r', hused, hbh, hcmd⟩ := hc
        -- a request that is queued now was queued before, or it is the one that was filled in
        by_cases hr : r' = r
        · subst hr
          exact .inr ⟨by simpa [makeRequest] using hbh, by simpa [makeRequest] using hcmd⟩
        · exact .inl ⟨r', by simpa [hr] using hused, by simpa [hr] using hbh,
            by simpa [hr] using hcmd⟩
  | @offer s s' b cmd r hb hrest hdisk hbuf hqueue _ =>
      have hcore : ∀ c, (s'.buf c).bUptodate = (s.buf c).bUptodate ∧
          (s'.buf c).bData = (s.buf c).bData := by
        intro c
        by_cases hcb : c = b
        · subst hcb; simp [hbuf]
        · simp [hbuf, hcb]
      refine h.congr (Sys.key_of_rest hrest) (fun c => ⟨(hcore c).1, fun _ => (hcore c).2⟩) hdisk
        (congrArg Rest.geo hrest) (fun c hup hdirt hq => ?_)
        (fun c cmd' hc => .inl ((hqueue c cmd').mp hc)) (by simp)
      have hq' : ¬ s.Queued c .write := (hqueue c .write).not.mp hq
      refine ⟨?_, hq'⟩
      by_cases hcb : c = b
      · -- the buffer that becomes clean is being read or written
        subst hcb
        have hwanted := h.queued c cmd hb
        cases cmd with
        | read => exact absurd (hup.symm.trans hwanted) (by decide)
        | write => exact absurd hb hq'
        | readA => exact hwanted.elim
        | writeA => exact hwanted.elim
      · simpa [hbuf, hcb] using hdirt

theorem submit {x y : Submission n × Sys n} (henv : env.Answers) (hserving : Serving x.1 x.2)
    (h : Faithful x.1 x.2) (hhoused : Housed used x.2) (hstep : Submit env x y) :
    Faithful y.1 y.2 := by
  obtain ⟨t, hmove, heffects⟩ := hserving.submit_move henv hstep
  have hpooled := hserving.pooled
  have hdevised : x.2.Devised := fun b cmd hb => hpooled.queued_dev hb
  cases hmove with
  | refl => exact h.effects hhoused hdevised heffects
  | single hmove =>
      exact (h.move hhoused hdevised hmove).effects (hhoused.congr hmove.rest)
        (hpooled.devised_move hmove) heffects

/-- **The request layer keeps the cache faithful.** -/
theorem submits (henv : env.Answers) (hserving : Serving .idle s) (h : Faithful .idle s)
    (hhoused : Housed used s) (hpath : Submits env (.idle, s) (.idle, s')) : Faithful .idle s' := by
  have hall : ∀ y, Submits env (.idle, s) y → Faithful y.1 y.2 := by
    intro y hy
    induction hy with
    | refl => exact h
    | @tail y z hpath hstep ih =>
        have hrest : y.2.rest = s.rest := Submits.rest hpath
        exact ih.submit henv (hserving.submits henv hpath).1 (hhoused.congr hrest) hstep
  exact hall _ hpath

/-- One header is assigned, and left out of date or dirty. -/
theorem assign (h : Faithful .idle s) (ht : Touched s s') (hkey : ∀ c ≠ b, s'.key c = s.key c)
    (hother : ∀ c ≠ b, (s'.buf c).bUptodate = (s.buf c).bUptodate ∧
      (s'.buf c).bData = (s.buf c).bData ∧ (s'.buf c).bDirt = (s.buf c).bDirt)
    (hqueued : ∀ cmd, s.Queued b cmd → (s'.buf b).bUptodate = (s.buf b).bUptodate)
    (hself : (s'.buf b).bUptodate = true → (s'.buf b).bDirt = true) : Faithful .idle s' := by
  refine ⟨fun c cmd hc => ?_, fun _ _ hc => absurd hc (by simp), fun c hdev hup hdirt hq => ?_⟩
  · have hc' := (ht.queued c cmd).mp hc
    by_cases hcb : c = b
    · subst hcb
      exact (h.queued c cmd hc').congr (hqueued cmd hc')
    · exact (h.queued c cmd hc').congr (hother c hcb).1
  · have hcb : c ≠ b := by
      rintro rfl
      exact absurd ((hself hup).symm.trans hdirt) (by decide)
    obtain ⟨hup', hdata, hdirt'⟩ := hother c hcb
    have hdev' : (s'.buf c).bDev = (s.buf c).bDev := congrArg Prod.fst (hkey c hcb)
    have hnr : (s'.buf c).bBlocknr = (s.buf c).bBlocknr := congrArg Prod.snd (hkey c hcb)
    rw [hdata, Sys.diskBlock, ht.disk, ht.geo, hdev', hnr]
    exact h.agrees c (hdev' ▸ hdev) (hup' ▸ hup) (hdirt' ▸ hdirt) fun hqc =>
      hq ((ht.queued c .write).mpr hqc)

end Faithful

/-! ## Steps of the buffer cache -/

/-- Between two calls the cache is in order, and faithful to a disk that may fail. -/
structure Sustained (used : ℕ × ℕ → Prop) (s : Sys n) : Prop where
  ready : Ready (fun _ => False) s
  faithful : Faithful .idle s
  known : ∀ b, (s.buf b).bDev ≠ 0 → used (s.key b)
  tiled : s.geo.Tiled used

namespace Sustained

theorem housed (h : Sustained used s) : Housed used s :=
    ⟨h.known, h.tiled, h.ready.links.key_unique⟩

/-- No header gets another block. -/
theorem same (h : Sustained used s) (hready : Ready (fun _ => False) s')
    (hfaithful : Faithful .idle s')
    (hkey : ∀ c, s'.key c = s.key c) (hgeo : s'.geo = s.geo) : Sustained used s' := by
  refine ⟨hready, hfaithful, fun c hc => ?_, hgeo ▸ h.tiled⟩
  have hdev : (s'.buf c).bDev = (s.buf c).bDev := congrArg Prod.fst (hkey c)
  rw [hkey]
  exact h.known c (hdev ▸ hc)

/-- A count is assigned. -/
theorem counted (h : Sustained used s) {b : Fin n} {count : ℕ}
    (hready : Ready (fun _ => False) (s.setBuf b fun bh => { bh with bCount := count })) :
    Sustained used (s.setBuf b fun bh => { bh with bCount := count }) := by
  have hkey : ∀ c, Sys.key (s.setBuf b fun bh => { bh with bCount := count }) c = s.key c := by
    intro c
    refine Prod.ext ?_ ?_
    · simp only [Sys.key]
      rw [Sys.setBuf_at (·.bDev), ite_self]
    · simp only [Sys.key]
      rw [Sys.setBuf_at (·.bBlocknr), ite_self]
  refine h.same hready (h.faithful.congr hkey (fun c => ⟨?_, fun _ => ?_⟩) rfl rfl
    (fun c _ hdirt hq => ⟨?_, hq⟩) (fun c cmd => .inl) (by simp)) hkey rfl
  · rw [Sys.setBuf_at (·.bUptodate), ite_self]
  · rw [Sys.setBuf_at (·.bData), ite_self]
  · rwa [Sys.setBuf_at (·.bDirt), ite_self] at hdirt

/-- Contents and flags of one buffer are assigned, and it is left out of date or dirty. -/
theorem assigned (h : Sustained used s) (hready : Ready (fun _ => False) s') (ha : Assigned s b s')
    (hqueued : ∀ cmd, s.Queued b cmd → (s'.buf b).bUptodate = (s.buf b).bUptodate)
    (hself : (s'.buf b).bUptodate = true → (s'.buf b).bDirt = true) : Sustained used s' := by
  have hkey := Sys.key_of_rest ha.rest
  refine h.same hready (h.faithful.assign ha.touched (fun c _ => hkey c) (fun c hcb => ?_) hqueued
    hself) hkey (congrArg Rest.geo ha.rest)
  rw [ha.other c hcb]
  exact ⟨rfl, rfl, rfl⟩

/-- **Every step of the cache** keeps it faithful. -/
theorem step (henv : env.Works fun _ => False) (h : Sustained used s)
    (hstep : CacheStep env (fun d r => used (d, r)) Owned s s') : Sustained used s' := by
  have hready : Ready (fun _ => False) s' :=
    h.ready.step henv (fun d r hused => (h.tiled.dev _ hused).2) hstep
  cases hstep with
  | block hpath =>
      -- the request layer moves contents, but no header to another block
      have hfaithful := h.faithful.submits henv.answers h.ready.working.serving h.housed hpath
      exact h.same hready hfaithful (Sys.key_of_rest hpath.rest) (congrArg Rest.geo hpath.rest)
  | up b => exact h.counted hready
  | down b => exact h.counted hready
  | @reuse _ b dev block k hused hrec hreuse =>
      -- the header takes up a new block, and is not up to date until that is read
      obtain ⟨hstate, hself, hother⟩ := reuse_spec hreuse
      have hkeys : ∀ c ≠ b, s'.key c = s.key c := fun c hcb =>
        Prod.ext (congrArg BufferCore.bDev (hother c hcb))
        (congrArg BufferCore.bBlocknr (hother c hcb))
      have hdev : (s'.buf b).bDev = dev :=
        (congrArg BufferCore.bDev hself).trans (Nat.mod_eq_of_lt (h.tiled.dev _ hused).2)
      have hkeyb : s'.key b = (dev, block) := Prod.ext hdev (congrArg BufferCore.bBlocknr hself)
      have hstale : (s'.buf b).bUptodate = false := congrArg BufferCore.bUptodate hself
      have hfaithful : Faithful .idle s' :=
        h.faithful.assign (hrec.touched hreuse) hkeys
          (fun c hcb => ⟨congrArg BufferCore.bUptodate (hother c hcb),
            congrArg BufferCore.bData (hother c hcb), congrArg BufferCore.bDirt (hother c hcb)⟩)
          (fun cmd hq => absurd hq (h.ready.unqueued hrec.lock cmd))
          fun hup => absurd (hup.symm.trans hstale) (by decide)
      have hgeo : s'.geo = s.geo := by rw [hstate]
      refine ⟨hready, hfaithful, fun c hc => ?_, hgeo ▸ h.tiled⟩
      by_cases hcb : c = b
      · rw [hcb, hkeyb]
        exact hused
      · have hdev' : (s'.buf c).bDev = (s.buf c).bDev := congrArg Prod.fst (hkeys c hcb)
        rw [hkeys c hcb]
        exact h.known c (hdev' ▸ hc)
  | copy mem =>
      -- only the memory of the caller changes
      exact h.same hready ⟨h.faithful.queued, h.faithful.decided, h.faithful.agrees⟩
        (fun _ => rfl) rfl
  | @store b data _ =>
      exact h.assigned hready (.store s b data) (fun _ _ => by simp [EgGS.store]) fun _ => by
        simp [EgGS.store]
  | @zero b _ hlock =>
      exact h.assigned hready (.zero hlock) (fun cmd hq => absurd hq (h.ready.unqueued hlock cmd))
        fun _ => by simp [Sys.zero]
  | @invalidate b _ hlock =>
      exact h.assigned hready (.invalidate hlock)
        (fun cmd hq => absurd hq (h.ready.unqueued hlock cmd)) fun hup => by
          simp [Sys.invalidate] at hup

end Sustained

/-! ## Runs -/

theorem Event.not_failed (e : Event n) : ¬ e.Failed fun _ => False := by
  intro h
  cases e with
  | ended b cmd ok data disk => cases ok <;> exact h
  | _ => exact h

/-- The tables of the file system and the history are not looked at. -/
theorem Sustained.tables (h : Sustained used s) (inode : Fin nrInode → MInode)
    (superBlock : Fin nrSuper → SuperBlock n) (lastInode : Fin nrInode) (log : List (Event n)) :
    Sustained used { s with inode, superBlock, lastInode, log } := by
  have hworking := h.ready.working
  have hserving : Serving .idle { s with inode, superBlock, lastInode, log } :=
    ⟨hworking.serving.pooled.congr (.of_buf rfl rfl rfl),
      hworking.serving.transfer.congr rfl rfl rfl rfl rfl (fun r _ => ⟨_, rfl⟩) fun r b _ _ =>
      .of_eq rfl⟩
  refine ⟨⟨⟨hserving, ⟨fun e _ => e.not_failed, fun _ _ _ hfalse => hfalse.elim⟩, hworking.drives,
    hworking.enabled, fun _ _ hfalse => hfalse.elim, hworking.going⟩,
    h.ready.links.congr ⟨fun _ => rfl, rfl, rfl⟩, h.ready.dirty, h.ready.count⟩,
    ⟨h.faithful.queued, h.faithful.decided, h.faithful.agrees⟩, h.known, h.tiled⟩

/-- The runs of the cache from the start, with requests that may fail: blocks of `used` are asked
for, and buffers of the hard disk are changed.  The tables of the file system may change in any
way, and the history may be forgotten. -/
inductive CacheRun (env : Env n) [NeZero n] (used : ℕ × ℕ → Prop) (s₀ : Sys n) : Sys n → Prop
  | start : CacheRun env used s₀ (initBuff (initRequestQueue s₀))
  | step {s s' : Sys n} : CacheRun env used s₀ s →
      CacheStep env (fun d r => used (d, r)) Owned s s' → CacheRun env used s₀ s'
  | tables {s : Sys n} (inode : Fin nrInode → MInode) (superBlock : Fin nrSuper → SuperBlock n)
      (lastInode : Fin nrInode) (log : List (Event n)) : CacheRun env used s₀ s →
      CacheRun env used s₀ { s with inode, superBlock, lastInode, log }

namespace CacheRun

theorem steps [NeZero n] (h : CacheRun env used s₀ s)
    (hpath : CacheSteps env (fun d r => used (d, r)) Owned s s') : CacheRun env used s₀ s' := by
  induction hpath with
  | refl => exact h
  | tail _ hstep ih => exact ih.step hstep

/-- Every call of the cache goes on with a run. -/
theorem call [NeZero n] {found : Option (Fin n)} (c : CacheCall n) (h : CacheRun env used s₀ s)
    (hasked : ∀ d r, c.Asks env s d r → used (d, r))
    (hmay : c.Changes env (fun d r => used (d, r)) Owned s)
    (hrun : c.exec env k s = .ok found s') : CacheRun env used s₀ s' :=
  h.steps (c.steps hasked hmay hrun)

/-- **In every run** the cache is in order and faithful. -/
theorem sustained [NeZero n] (henv : env.Works fun _ => False) (hquiet : s₀.Quiet)
    (hdrives : s₀.geo.Drives) (hen : s₀.hdEnabled = true) (htiled : s₀.geo.Tiled used)
    (h : CacheRun env used s₀ s) : Sustained used s := by
  induction h with
  | start =>
      have hdev : ∀ b, ((initBuff (initRequestQueue s₀)).buf b).bDev = 0 := fun _ => rfl
      have hflags := (Secure.init hquiet).flags
      refine ⟨.init hquiet hdrives hen, ⟨fun b cmd hb => ?_, fun b cmd hb => absurd hb (by simp),
        fun b hb => absurd (hdev b) hb⟩, fun b hb => absurd (hdev b) hb, htiled⟩
      have hdue := hflags.queued b cmd hb
      cases cmd with
      | read => exact hdue
      | write => exact trivial
      | readA => exact hdue
      | writeA => exact hdue
  | step _ hstep ih => exact ih.step henv hstep
  | tables inode superBlock lastInode log _ ih => exact ih.tables inode superBlock lastInode log

end CacheRun

/-! ## What the cache shows -/

/-- What the cache shows of a block: its buffer, if that is up to date, and the disk otherwise. -/
def Sys.contents (s : Sys n) (x : ℕ × ℕ) : Block :=
  match (List.finRange n).find? fun b => s.key b = x ∧ (s.buf b).bUptodate = true with
  | some b => (s.buf b).bData
  | none => s.diskBlock x.1 x.2

theorem Housed.contents_cached (h : Housed used s) (hdev : (s.buf b).bDev ≠ 0)
    (hup : (s.buf b).bUptodate = true) : s.contents (s.key b) = (s.buf b).bData := by
  unfold Sys.contents
  split
  · rename_i c hfind
    have hc := List.find?_some hfind
    simp only [decide_eq_true_eq] at hc
    obtain rfl := h.unique b c hdev hc.1
    rfl
  · rename_i hfind
    have hb := List.find?_eq_none.mp hfind b (List.mem_finRange b)
    simp [hup] at hb

/-- A block that has no dirty buffer and none that is being written is on the disk. -/
theorem Sustained.contents_stored {x : ℕ × ℕ} (h : Sustained used s) (hx : used x)
    (hall : ∀ b, s.key b = x → (s.buf b).bDirt = false ∧ ¬ s.Queued b .write) :
    s.diskBlock x.1 x.2 = s.contents x := by
  unfold Sys.contents
  split
  · rename_i b hfind
    have hb := List.find?_some hfind
    simp only [decide_eq_true_eq] at hb
    obtain ⟨rfl, hup⟩ := hb
    obtain ⟨hclean, hq⟩ := hall b rfl
    have hdev : (s.buf b).bDev ≠ 0 := Nat.one_le_iff_ne_zero.mp (h.tiled.dev _ hx).1
    exact (h.faithful.agrees b hdev hup hclean hq).symm
  · rfl

/-- The same state, with the history recorded from here on. -/
def Sys.forgotten (s : Sys n) : Sys n := { s with log := [] }

/-- The buffers that have something to write are up to date: no write of theirs has failed. -/
def Sys.WritesUptodate (s : Sys n) : Prop :=
  ∀ b, (s.buf b).bDirt = true ∨ s.Queued b .write → (s.buf b).bUptodate = true

/-- **After failures.**  Where the buffers that have something to write are up to date, the cache
is a map with the contents that it shows, as if no request had ever failed. -/
theorem Sustained.mapped (h : Sustained used s) (hmajor : ∀ x, used x → EgGS.major x.1 = 3)
    (hwrites : s.WritesUptodate)
    (hresumed : s.handler = .recalIntr → ∀ r, s.current = some r → s.Passes r) :
    Mapped which used (fun _ => False) s.contents (fun b => (s.buf b).bCount) s.forgotten := by
  have hforgotten : Sustained used s.forgotten := h.tables s.inode s.superBlock s.lastInode []
  have hworking := hforgotten.ready.working
  have hinside : ∀ b, (s.buf b).bDev ≠ 0 → s.geo.Inside (s.buf b).bDev (s.buf b).bBlocknr :=
    fun b hb => h.tiled.inside _ (h.known b hb)
  have hdevised : s.Devised := fun b cmd hb => h.ready.working.serving.pooled.queued_dev hb
  have hdirty : ∀ b, (s.buf b).bDirt = true → (s.buf b).bDev ≠ 0 := by
    intro b hb hzero
    have hmajor' := h.ready.dirty b hb
    rw [hzero] at hmajor'
    exact absurd hmajor' (by decide)
  refine ⟨⟨hworking.serving,
    ⟨fun e he => absurd he List.not_mem_nil, fun hh r hr _ => hresumed hh r hr⟩, hworking.drives,
    hworking.enabled, fun b _ _ hb => hinside b hb, hworking.going⟩,
    ⟨fun b hb => ⟨hwrites b (.inl hb), hinside b (hdirty b hb)⟩, fun b cmd hb => ?_,
      fun b cmd hb => absurd hb (by simp)⟩, hforgotten.ready.links,
    ⟨h.known, fun b hb hup => (h.housed.contents_cached hb hup).symm,
      fun x hx _ hall => h.contents_stored hx hall, fun _ hx => hx.elim⟩, h.tiled, hmajor,
    ⟨fun _ => rfl, h.ready.count⟩, fun _ hx => hx.elim, fun b hb => ?_⟩
  · have hwanted := h.faithful.queued b cmd hb
    cases cmd with
    | read => exact hwanted
    | write => exact ⟨hwrites b (.inr hb), hinside b (hdevised b .write hb)⟩
    | readA => exact hwanted
    | writeA => exact hwanted
  · exact Bool.eq_false_iff.mpr fun hd => hdirty b hd hb

end EgGS
