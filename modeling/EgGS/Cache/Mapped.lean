import EgGS.Cache.Coherence
import EgGS.Cache.Counts
import EgGS.Cache.Ready

/-!
# The cache as a map

While no write fails, the buffer cache over the disk is a map from blocks to contents.
`Mapped which used loose M refs s` says that the cache is in order between two calls, that
`b_count` is the number of references `refs`, and that the blocks contain `M`.

Whatever the request layer does keeps the map, and so does recycling a header.  A holder
who changes a buffer, the zeros of a new block and the invalidation of a buffer change it
at one block.
-/

namespace EgGS

open Lib Prog Relation

variable {n : ℕ} {env : Env n} {k : ℕ} {s s' t : Sys n}
variable {sub : Submission n} {b c : Fin n} {dev block : ℕ}
variable {which : Rw → Prop} {used loose : ℕ × ℕ → Prop} {M : Contents} {refs refs' : Refs n}

/-! ## The request layer -/

theorem Effect.queued_sub {cmd : Rw} (h : Effect sub s s') (hb : s'.Queued b cmd) :
    s.Queued b cmd := by
  cases h with
  | none _ _ _ hqueue _ => exact (hqueue b cmd).mp hb
  | load _ _ _ _ _ _ hqueue _ => exact (hqueue b cmd).mp hb
  | save _ _ _ _ _ hqueue _ => exact (hqueue b cmd).mp hb
  | done _ _ _ _ _ _ hqueue _ _ => exact ((hqueue b cmd).mp hb).1

/-- Only buffers with a device have requests. -/
def Sys.Devised (s : Sys n) : Prop := ∀ b cmd, s.Queued b cmd → (s.buf b).bDev ≠ 0

theorem Sys.Devised.congr (h : s.Devised) (hrest : s'.rest = s.rest)
    (hsub : ∀ b cmd, s'.Queued b cmd → s.Queued b cmd) : s'.Devised := by
  intro b cmd hb
  have hdev : (s'.buf b).bDev = (s.buf b).bDev := congrArg (fun r => (r.links b).bDev) hrest
  rw [hdev]
  exact h b cmd (hsub b cmd hb)

theorem Move.rest {x y : Submission n × Sys n} (h : Move x y) : y.2.rest = x.2.rest := by
  cases h with
  | effect heff => exact heff.rest
  | @lock s b _ => exact Sys.rest_setBuf s b (f := fun bh => { bh with bLock := true }) fun _ => rfl
  | check _ _ _ => rfl
  | @giveUp s b _ _ =>
      exact Sys.rest_setBuf s b (f := fun bh => { bh with bLock := false }) fun _ => rfl
  | fill _ _ => rfl
  | offer _ hrest _ _ _ _ => exact hrest

/-- A request that is being made is for a buffer with a device. -/
theorem Pooled.devised_move {x y : Submission n × Sys n} (h : Pooled x.1 x.2) (hmove : Move x y) :
    y.2.Devised := by
  have hdevised : x.2.Devised := fun b cmd hb => h.queued_dev hb
  have hrest := hmove.rest
  cases hmove with
  | effect heff => exact hdevised.congr hrest fun b cmd => heff.queued_sub
  | lock _ => exact hdevised.congr hrest fun b cmd => id
  | check _ _ _ => exact hdevised
  | giveUp _ => exact hdevised.congr hrest fun b cmd => id
  | @fill s b rw r _ _ =>
      rintro c cmd ⟨r', hused, hbh, hcmd⟩
      by_cases hr : r' = r
      · subst hr
        obtain rfl : b = c := by simpa [makeRequest] using hbh
        obtain ⟨q, hq⟩ := h
        have hmajor : major (s.buf b).bDev = 3 := (hq.taken b rfl).1
        intro hzero
        have hzero' : (s.buf b).bDev = 0 := hzero
        rw [hzero'] at hmajor
        exact absurd hmajor (by decide)
      · exact hdevised c cmd ⟨r', by simpa [hr] using hused, by simpa [hr] using hbh,
          by simpa [hr] using hcmd⟩
  | offer _ _ _ _ hqueue _ => exact hdevised.congr hrest fun b cmd => (hqueue b cmd).mp

theorem Effects.log (h : Effects sub s s') : s.log <:+ s'.log := by
  induction h with
  | refl => exact List.suffix_rfl
  | tail _ heff ih => exact ih.trans heff.log

/-- The driver keeps flags and contents as long as no write fails. -/
theorem Effects.coherent (hpath : Effects sub s s') (hflags : Flags sub s)
    (h : Coherent used loose M s) (hdevised : s.Devised)
    (hunique : ∀ b c, (s.buf b).bDev ≠ 0 → s.key c = s.key b → c = b)
    (htiled : s.geo.Tiled used) (hlog : ∀ e ∈ s'.log, ¬ e.Failed (· = .write)) :
    Flags sub s' ∧ Coherent used loose M s' := by
  suffices hall : Flags sub s' ∧ Coherent used loose M s' ∧ s'.Devised ∧ s'.rest = s.rest from
    ⟨hall.1, hall.2.1⟩
  induction hpath with
  | refl => exact ⟨hflags, h, hdevised, rfl⟩
  | @tail t s' _ heff ih =>
      have hlog' : ∀ e ∈ t.log, ¬ e.Failed (· = .write) := fun e he => hlog e (heff.log.subset he)
      obtain ⟨hflags', hcoherent, hdevised', hrest⟩ := ih hlog'
      have hgeo : t.geo = s.geo := congrArg Rest.geo hrest
      have hunique' : ∀ b c, (t.buf b).bDev ≠ 0 → t.key c = t.key b → c = b := by
        intro b c hb hkey
        have hdev : (t.buf b).bDev = (s.buf b).bDev := congrArg (fun r => (r.links b).bDev) hrest
        rw [Sys.key_of_rest hrest, Sys.key_of_rest hrest] at hkey
        exact hunique b c (hdev ▸ hb) hkey
      have hnext := hcoherent.effect hflags' hdevised' hunique' (hgeo ▸ htiled) heff hlog
      exact ⟨hflags'.effect heff hlog, hnext, hdevised'.congr heff.rest fun b cmd =>
        heff.queued_sub, heff.rest.trans hrest⟩

/-- No two headers belong to one block. -/
theorem Links.key_unique (h : Links s) (b c : Fin n) (hb : (s.buf b).bDev ≠ 0)
    (hkey : s.key c = s.key b) : c = b :=
  h.unique b c hb (congrArg Prod.fst hkey) (congrArg Prod.snd hkey)

/-- **A step of the request layer** keeps flags and contents. -/
theorem Coherent.submit {x y : Submission n × Sys n} (henv : env.Works which)
    (hwhich : which .write) (hworking : Working which x.1 x.2) (hflags : Flags x.1 x.2)
    (h : Coherent used loose M x.2) (hlinks : Links x.2) (htiled : x.2.geo.Tiled used)
    (hstep : Submit env x y) : Flags y.1 y.2 ∧ Coherent used loose M y.2 := by
  have hlog : ∀ e ∈ y.2.log, ¬ e.Failed (· = .write) := by
    intro e he hfailed
    refine (hworking.submit henv hstep).spared.log e he (hfailed.mono ?_)
    rintro cmd rfl
    exact hwhich
  obtain ⟨t, hmove, heffects⟩ := hworking.serving.submit_move henv.answers hstep
  have hlog' : ∀ e ∈ t.log, ¬ e.Failed (· = .write) := fun e he =>
    hlog e (heffects.log.subset he)
  have hpooled := hworking.serving.pooled
  have hdevised : x.2.Devised := fun b cmd hb => hpooled.queued_dev hb
  cases hmove with
  | refl => exact heffects.coherent hflags h hdevised hlinks.key_unique htiled hlog
  | single hmove =>
      have hlinks' : Links t := hlinks.congr (.of_rest hmove.rest)
      have hgeo : t.geo = x.2.geo := congrArg Rest.geo hmove.rest
      refine heffects.coherent (hflags.move hmove hlog') ?_ (hpooled.devised_move hmove)
        hlinks'.key_unique (hgeo ▸ htiled) hlog
      exact h.move hflags hdevised hlinks.key_unique htiled hmove hlog'

/-! ## The invariant -/

/-- The cache is in order between two calls, there are `refs` references to its headers, and
the blocks contain `M`. -/
structure Mapped (which : Rw → Prop) (used loose : ℕ × ℕ → Prop) (M : Contents) (refs : Refs n)
    (s : Sys n) : Prop where
  working : Working which .idle s
  flags : Flags .idle s
  links : Links s
  coherent : Coherent used loose M s
  tiled : s.geo.Tiled used
  major : ∀ x, used x → EgGS.major x.1 = 3
  counted : Counted refs s
  held : ∀ b, loose (s.key b) → 0 < refs b
  blank : ∀ b, (s.buf b).bDev = 0 → (s.buf b).bDirt = false

/-- What a call leaves alone: the tables of the file system, and the headers that somebody
holds. -/
structure Beside (refs : Refs n) (s s' : Sys n) : Prop where
  inode : s'.inode = s.inode
  lastInode : s'.lastInode = s.lastInode
  superBlock : s'.superBlock = s.superBlock
  geo : s'.geo = s.geo
  key : ∀ b, 0 < refs b → s'.key b = s.key b
  uptodate : ∀ b, 0 < refs b → (s.buf b).bUptodate = true → (s'.buf b).bUptodate = true

namespace Beside

theorem refl (refs : Refs n) (s : Sys n) : Beside refs s s :=
  ⟨rfl, rfl, rfl, rfl, fun _ _ => rfl, fun _ _ => id⟩

theorem trans (h : Beside refs s t) (h' : Beside refs t s') : Beside refs s s' where
  inode := h'.inode.trans h.inode
  lastInode := h'.lastInode.trans h.lastInode
  superBlock := h'.superBlock.trans h.superBlock
  geo := h'.geo.trans h.geo
  key b hb := (h'.key b hb).trans (h.key b hb)
  uptodate b hb := h'.uptodate b hb ∘ h.uptodate b hb

theorem mono (h : Beside refs' s s') (hle : refs ≤ refs') : Beside refs s s' :=
  ⟨h.inode, h.lastInode, h.superBlock, h.geo, fun b hb => h.key b (hb.trans_le (hle b)),
    fun b hb => h.uptodate b (hb.trans_le (hle b))⟩

theorem of_rest (hrest : s'.rest = s.rest)
    (hup : ∀ b, (s.buf b).bUptodate = true → (s'.buf b).bUptodate = true) : Beside refs s s' where
  inode := congrArg Rest.inode hrest
  lastInode := congrArg Rest.lastInode hrest
  superBlock := congrArg Rest.superBlock hrest
  geo := congrArg Rest.geo hrest
  key b _ := Sys.key_of_rest hrest b
  uptodate b _ := hup b

end Beside

/-- A buffer that is up to date stays so, as long as no write fails. -/
theorem Move.uptodate {x y : Submission n × Sys n} (h : Move x y) (hflags : Flags x.1 x.2)
    (hlog : ∀ e ∈ y.2.log, ¬ e.Failed (· = .write)) (hb : (x.2.buf b).bUptodate = true) :
    (y.2.buf b).bUptodate = true := by
  cases h with
  | effect heff =>
      cases heff with
      | none _ hbuf _ _ _ => rwa [hbuf]
      | save _ _ _ hbuf _ _ _ => rwa [hbuf]
      | @load c _ _ _ hother hself _ _ _ =>
          by_cases hbc : b = c
          · subst hbc
            rwa [hself]
          · rwa [hother b hbc]
      | @done c cmd ok _ hc _ hcmd hbuf _ _ _ hended =>
          by_cases hbc : b = c
          · subst hbc
            rcases hcmd with rfl | rfl
            · exact absurd (hb.symm.trans (hflags.queued b .read hc)) (by decide)
            · cases ok with
              | true => simp [hbuf]
              | false =>
                  rw [hended] at hlog
                  exact ((hlog _ (List.mem_cons_self ..)) rfl).elim
          · simpa [hbuf, hbc] using hb
  | @lock s c _ => rwa [Sys.setBuf_at (·.bUptodate), ite_self]
  | check _ _ _ => exact hb
  | @giveUp s c _ _ => rwa [unlockBuff, Sys.setBuf_at (·.bUptodate), ite_self]
  | fill _ _ => exact hb
  | @offer _ s' c _ _ _ _ _ hbuf _ _ =>
      by_cases hbc : b = c
      · subst hbc
        simpa [hbuf] using hb
      · simpa [hbuf, hbc] using hb

theorem Moves.uptodate {x y : Submission n × Sys n} (h : Moves x y) (hflags : Flags x.1 x.2)
    (hlog : ∀ e ∈ y.2.log, ¬ e.Failed (· = .write)) (hb : (x.2.buf b).bUptodate = true) :
    (y.2.buf b).bUptodate = true := by
  suffices hboth : Flags y.1 y.2 ∧ (y.2.buf b).bUptodate = true from hboth.2
  induction h with
  | refl => exact ⟨hflags, hb⟩
  | tail _ hmove ih =>
      obtain ⟨hflags', hb'⟩ := ih fun e he => hlog e (hmove.log.subset he)
      exact ⟨hflags'.move hmove hlog, hmove.uptodate hflags' hlog hb'⟩

namespace Mapped

theorem no_failed_write (h : Working which sub s) (hwhich : which .write) :
    ∀ e ∈ s.log, ¬ e.Failed (· = .write) := by
  intro e he hfailed
  refine h.spared.log e he (hfailed.mono ?_)
  rintro cmd rfl
  exact hwhich

/-- **The request layer keeps the map.** -/
theorem submits (henv : env.Works which) (hwhich : which .write)
    (h : Mapped which used loose M refs s) (hpath : Submits env (.idle, s) (.idle, s')) :
    Mapped which used loose M refs s' := by
  have hall : ∀ y, Submits env (.idle, s) y → Working which y.1 y.2 ∧ Flags y.1 y.2 ∧
      Coherent used loose M y.2 := by
    intro y hy
    induction hy with
    | refl => exact ⟨h.working, h.flags, h.coherent⟩
    | @tail y z hpath hstep ih =>
        obtain ⟨hworking, hflags, hcoherent⟩ := ih
        have hrest : y.2.rest = s.rest := Submits.rest hpath
        have hgeo : y.2.geo = s.geo := congrArg Rest.geo hrest
        have htiled : y.2.geo.Tiled used := hgeo ▸ h.tiled
        obtain ⟨hflags', hcoherent'⟩ := hcoherent.submit henv hwhich hworking hflags
          (h.links.congr (.of_rest hrest)) htiled hstep
        exact ⟨hworking.submit henv hstep, hflags', hcoherent'⟩
  obtain ⟨hworking, hflags, hcoherent⟩ := hall _ hpath
  have hgeo : s'.geo = s.geo := congrArg Rest.geo hpath.rest
  refine ⟨hworking, hflags, h.links.congr (.of_rest hpath.rest), hcoherent, hgeo ▸ h.tiled, h.major,
    h.counted.submits hpath, fun b hb => h.held b ?_, fun b hb => ?_⟩
  · rwa [Sys.key_of_rest hpath.rest] at hb
  · have hdev : (s'.buf b).bDev = (s.buf b).bDev := congrArg BufferLinks.bDev (hpath.links b)
    obtain ⟨-, hmoves⟩ := h.working.serving.submits henv.answers hpath
    exact hmoves.clean (h.blank b (hdev.symm.trans hb))

theorem beside (henv : env.Works which) (hwhich : which .write)
    (h : Mapped which used loose M refs s) (hpath : Submits env (.idle, s) (.idle, s')) :
    Beside refs' s s' := by
  have hworking : Working which .idle s' := h.working.submits henv hpath
  obtain ⟨-, hmoves⟩ := h.working.serving.submits henv.answers hpath
  exact .of_rest hpath.rest fun b hb =>
    hmoves.uptodate h.flags (no_failed_write hworking hwhich) hb

/-! ## Steps of the buffer cache -/

theorem unqueued (h : Mapped which used loose M refs s) (hlock : (s.buf b).bLock = false)
    (cmd : Rw) :
    ¬ s.Queued b cmd := fun hb =>
  absurd ((h.working.serving.pooled.queued_locked hb).symm.trans hlock) (by decide)

theorem touched {M' : Contents} {loose' : ℕ × ℕ → Prop} (h : Mapped which used loose M refs s)
    (ht : Touched s s') (hen : s'.hdEnabled = s.hdEnabled)
    (hdirty : ∀ c, (s'.buf c).bDirt = true → s'.Due c .write)
    (hqueued : ∀ c cmd, s.Queued c cmd → s.Due c cmd → s'.Due c cmd) (hlinks : Links s')
    (hcoherent : Coherent used loose' M' s') (hcounted : Counted refs' s')
    (hheld : ∀ c, loose' (s'.key c) → 0 < refs' c)
    (hblank : ∀ c, (s'.buf c).bDev = 0 → (s'.buf c).bDirt = false) :
    Mapped which used loose' M' refs' s' := by
  have htiled : s'.geo.Tiled used := ht.geo ▸ h.tiled
  refine ⟨⟨h.working.serving.touched ht, h.working.spared.touched ht, ht.geo ▸ h.working.drives,
    hen.trans h.working.enabled, fun b _ _ hb => htiled.inside _ (hcoherent.known b hb), ?_⟩,
    ⟨hdirty, fun b cmd hb => ?_, fun b cmd hb => absurd hb (by simp)⟩, hlinks, hcoherent, htiled,
    h.major, hcounted, hheld, hblank⟩
  · rw [ht.current, ht.ctl]
    exact h.working.going
  · have hb' := (ht.queued b cmd).mp hb
    exact hqueued b cmd hb' (h.flags.queued b cmd hb')

/-- A count is assigned. -/
theorem count (h : Mapped which used loose M refs s) {b : Fin n} {count : ℕ}
    (hcounted : Counted refs' (s.setBuf b fun bh => { bh with bCount := count }))
    (hheld : ∀ c, loose (s.key c) → 0 < refs' c) :
    Mapped which used loose M refs' (s.setBuf b fun bh => { bh with bCount := count }) := by
  have hkey : ∀ c, Sys.key (s.setBuf b fun bh => { bh with bCount := count }) c = s.key c := by
    intro c
    refine Prod.ext ?_ ?_
    · simp only [Sys.key]
      rw [Sys.setBuf_at (·.bDev), ite_self]
    · simp only [Sys.key]
      rw [Sys.setBuf_at (·.bBlocknr), ite_self]
  have hup : ∀ c, ((s.setBuf b fun bh => { bh with bCount := count }).buf c).bUptodate =
      (s.buf c).bUptodate := fun c => by rw [Sys.setBuf_at (·.bUptodate), ite_self]
  have hdue : ∀ c cmd, s.Due c cmd → Sys.Due
    (s.setBuf b fun bh => { bh with bCount := count }) c cmd :=
    fun c cmd hc => hc.congr rfl ((Sys.key_eq _).mp (hkey c)) (hup c)
  refine h.touched (.count s b count) rfl (fun c hc => hdue c .write (h.flags.dirty c ?_))
    (fun c cmd _ => hdue c cmd) (h.links.congr (.setBuf fun _ => rfl)) ?_ hcounted
    (fun c hc => hheld c (hkey c ▸ hc)) fun c hc => ?_
  · rwa [Sys.setBuf_at (·.bDirt), ite_self] at hc
  · refine h.coherent.congr hkey (fun c => ⟨hup c, fun _ => ?_⟩) rfl rfl fun c hdirt hq => ⟨?_, hq⟩
    · rw [Sys.setBuf_at (·.bData), ite_self]
    · rwa [Sys.setBuf_at (·.bDirt), ite_self] at hdirt
  · rw [Sys.setBuf_at (·.bDev), ite_self] at hc
    rw [Sys.setBuf_at (·.bDirt), ite_self]
    exact h.blank c hc

theorem up (h : Mapped which used loose M refs s) (hroom : refs b + 1 < 256) :
    Mapped which used loose M (refs.add b) (s.countUp b) :=
  h.count (h.counted.up hroom) fun c hc => (h.held c hc).trans_le (refs.le_add b c)

theorem down (h : Mapped which used loose M refs s) (hb : 0 < refs b)
    (hfirm : ¬ loose (s.key b)) : Mapped which used loose M (refs.sub b) (s.countDown b) := by
  refine h.count (h.counted.down ?_) fun c hc => ?_
  · rw [h.counted.count]
    exact hb.ne'
  · have hcb : c ≠ b := by
      rintro rfl
      exact hfirm hc
    simpa [Refs.sub, hcb] using h.held c hc

end Mapped

/-- The contents of one block change, those of its buffer and those of the map. -/
theorem Coherent.assign {loose' : ℕ × ℕ → Prop} {value : Block} (h : Coherent used loose M s)
    (hunique : ∀ c, s.key c = s.key b → c = b) (hother : ∀ c ≠ b, s'.buf c = s.buf c)
    (hkey : s'.key b = s.key b) (hdisk : s'.disk = s.disk) (hgeo : s'.geo = s.geo)
    (hqueue : ∀ c cmd, s'.Queued c cmd ↔ s.Queued c cmd)
    (hcached : (s'.buf b).bUptodate = true → (s'.buf b).bData = value)
    (hstored : ¬ loose' (s.key b) → (s'.buf b).bDirt = false →
      s.diskBlock (s.buf b).bDev (s.buf b).bBlocknr = value)
    (hpresent : loose' (s.key b) → (s'.buf b).bUptodate = true)
    (hloose : ∀ x ≠ s.key b, loose' x ↔ loose x) :
    Coherent used loose' (Function.update M (s.key b) value) s' := by
  have hkeys : ∀ c, s'.key c = s.key c := by
    intro c
    by_cases hcb : c = b
    · exact hcb ▸ hkey
    · rw [Sys.key, hother c hcb, Sys.key]
  have hdevs : ∀ c, (s'.buf c).bDev = (s.buf c).bDev := fun c => congrArg Prod.fst (hkeys c)
  -- `b` is the only header of its block, so every other block is untouched
  refine ⟨fun c hc => ?_, fun c hc hup => ?_, fun x hx hfirm hall => ?_, fun x hx => ?_⟩
  · rw [hkeys]
    exact h.known c (hdevs c ▸ hc)
  · rw [hkeys]
    by_cases hcb : c = b
    · subst hcb
      rw [hcached hup, Function.update_self]
    · have hne : s.key c ≠ s.key b := fun heq => hcb (hunique c heq)
      rw [Function.update_of_ne hne]
      rw [hother c hcb] at hc hup ⊢
      exact h.cached c hc hup
  · rw [Sys.diskBlock, hdisk, hgeo]
    by_cases hxb : x = s.key b
    · subst hxb
      rw [Function.update_self]
      exact hstored hfirm (hall b hkey).1
    · rw [Function.update_of_ne hxb]
      refine h.stored x hx (mt (hloose x hxb).mpr hfirm) fun c hc => ?_
      have hcb : c ≠ b := by
        rintro rfl
        exact hxb hc.symm
      obtain ⟨hclean, hq⟩ := hall c ((hkeys c).trans hc)
      exact ⟨by rwa [hother c hcb] at hclean, (hqueue c .write).not.mp hq⟩
  · by_cases hxb : x = s.key b
    · exact ⟨b, hkey.trans hxb.symm, hpresent (hxb ▸ hx)⟩
    · obtain ⟨c, hc, hup⟩ := h.present x ((hloose x hxb).mp hx)
      have hcb : c ≠ b := by
        rintro rfl
        exact hxb hc.symm
      exact ⟨c, (hkeys c).trans hc, by rwa [hother c hcb]⟩

/-- A header that is clean and has no request gets a new block, whose contents are not read
yet. -/
theorem Coherent.recycle (h : Coherent used loose M s) (hkey : ∀ c ≠ b, s'.key c = s.key c)
    (hother : ∀ c ≠ b, (s'.buf c).bUptodate = (s.buf c).bUptodate ∧
      (s'.buf c).bData = (s.buf c).bData ∧ (s'.buf c).bDirt = (s.buf c).bDirt)
    (hused : used (s'.key b)) (hstale : (s'.buf b).bUptodate = false)
    (hclean : (s.buf b).bDirt = false ∧ ¬ s.Queued b .write) (hfirm : ¬ loose (s.key b))
    (hdisk : s'.disk = s.disk) (hgeo : s'.geo = s.geo)
    (hqueue : ∀ c cmd, s'.Queued c cmd ↔ s.Queued c cmd) : Coherent used loose M s' := by
  refine ⟨fun c hc => ?_, fun c hc hup => ?_, fun x hx hfirm' hall => ?_, fun x hx => ?_⟩
  · by_cases hcb : c = b
    · exact hcb ▸ hused
    · have hdev : (s'.buf c).bDev = (s.buf c).bDev := congrArg Prod.fst (hkey c hcb)
      rw [hkey c hcb]
      exact h.known c (hdev ▸ hc)
  · have hcb : c ≠ b := by
      rintro rfl
      exact absurd (hup.symm.trans hstale) (by decide)
    obtain ⟨hup', hdata, -⟩ := hother c hcb
    have hdev : (s'.buf c).bDev = (s.buf c).bDev := congrArg Prod.fst (hkey c hcb)
    rw [hkey c hcb, hdata]
    exact h.cached c (hdev ▸ hc) (hup' ▸ hup)
  · rw [Sys.diskBlock, hdisk, hgeo]
    refine h.stored x hx hfirm' fun c hc => ?_
    by_cases hcb : c = b
    · exact hcb ▸ hclean
    · obtain ⟨hdirt, hq⟩ := hall c ((hkey c hcb).trans hc)
      exact ⟨(hother c hcb).2.2 ▸ hdirt, (hqueue c .write).not.mp hq⟩
  · obtain ⟨c, hc, hup⟩ := h.present x hx
    have hcb : c ≠ b := by
      rintro rfl
      exact hfirm (hc ▸ hx)
    exact ⟨c, (hkey c hcb).trans hc, (hother c hcb).1.trans hup⟩

namespace Mapped

/-- **A header is recycled.** -/
theorem reuse (h : Mapped which used loose M refs s) (hused : used (dev, block))
    (hrec : Recyclable env s dev block b) (hreuse : reuse b dev block env k s = .ok () s') :
    Mapped which used loose M (refs.add b) s' ∧ Beside refs s s' ∧ s'.key b = (dev, block) := by
  obtain ⟨hstate, hself, hother⟩ := reuse_spec hreuse
  obtain ⟨hcounted, hkept⟩ := h.counted.recycled hrec hreuse
  -- nobody holds the victim, so no contents that somebody relies on are lost
  have hfree : refs b = 0 := (h.counted.count b).symm.trans hrec.count
  have hshort : dev < 65536 := (h.tiled.dev _ hused).2
  have hlinks : Links s' := by
    have hasked : ∀ d r, (d = dev ∧ r = block) → d < 65536 := by
      rintro d r ⟨rfl, -⟩
      exact hshort
    have hstep : CacheStep env (fun d r => d = dev ∧ r = block) (fun _ _ => False) s s' :=
      .reuse ⟨rfl, rfl⟩ hrec hreuse
    exact h.links.step hasked hstep
  have hkeys : ∀ c ≠ b, s'.key c = s.key c := fun c hcb =>
    Prod.ext (congrArg BufferCore.bDev (hother c hcb)) (congrArg BufferCore.bBlocknr (hother c hcb))
  have hkeyb : s'.key b = (dev, block) := by
    refine Prod.ext ?_ (congrArg BufferCore.bBlocknr hself)
    exact (congrArg BufferCore.bDev hself).trans (Nat.mod_eq_of_lt hshort)
  have hgeo : s'.geo = s.geo := by rw [hstate]
  have hclean : (s'.buf b).bDirt = false := congrArg BufferCore.bDirt hself
  have hdue : ∀ c ≠ b, ∀ cmd, s.Due c cmd → s'.Due c cmd := fun c hcb cmd hc =>
    hc.congr hgeo ((Sys.key_eq _).mp (hkeys c hcb)) (congrArg BufferCore.bUptodate (hother c hcb))
  have htouched := hrec.touched hreuse
  -- the victim was clean and not queued: the disk has the contents of its old block
  have hcoherent : Coherent used loose M s' := by
    refine h.coherent.recycle hkeys (fun c hcb => ⟨?_, ?_, ?_⟩) (hkeyb ▸ hused) ?_
      ⟨hrec.dirt, h.unqueued hrec.lock .write⟩ (fun hl => ?_) (by rw [hstate]) hgeo htouched.queued
    · exact congrArg BufferCore.bUptodate (hother c hcb)
    · exact congrArg BufferCore.bData (hother c hcb)
    · exact congrArg BufferCore.bDirt (hother c hcb)
    · exact congrArg BufferCore.bUptodate hself
    · have hpos := h.held b hl
      omega
  -- every other header is as it was, and `b` is clean and not up to date, so nothing is due for it
  refine ⟨h.touched htouched (by rw [hstate]) (fun c hc => ?_) (fun c cmd hq hc => ?_) hlinks
    hcoherent hcounted (fun c hc => ?_) fun c hc => ?_, ⟨by rw [hstate], by rw [hstate],
      by rw [hstate], hgeo, fun c hc => ?_, fun c hc hup => ?_⟩, hkeyb⟩
  · have hcb : c ≠ b := by
      rintro rfl
      exact absurd (hc.symm.trans hclean) (by decide)
    have hdirt : (s'.buf c).bDirt = (s.buf c).bDirt := congrArg BufferCore.bDirt (hother c hcb)
    exact hdue c hcb .write (h.flags.dirty c (hdirt ▸ hc))
  · have hcb : c ≠ b := by
      rintro rfl
      exact h.unqueued hrec.lock cmd hq
    exact hdue c hcb cmd hc
  · rw [Refs.add_apply]
    by_cases hcb : c = b
    · simp [hcb]
    · rw [hkeys c hcb] at hc
      have hpos := h.held c hc
      omega
  · by_cases hcb : c = b
    · exact hcb ▸ hclean
    · have hdirt : (s'.buf c).bDirt = (s.buf c).bDirt := congrArg BufferCore.bDirt (hother c hcb)
      have hdev : (s'.buf c).bDev = (s.buf c).bDev := congrArg BufferCore.bDev (hother c hcb)
      exact hdirt.trans (h.blank c (hdev.symm.trans hc))
  · exact Prod.ext (hkept c hc).1 (hkept c hc).2
  · have hcb : c ≠ b := by
      rintro rfl
      omega
    exact (congrArg BufferCore.bUptodate (hother c hcb)).trans hup

end Mapped

/-- Only the flags and the contents of the buffer `b` are assigned. -/
structure Assigned (s : Sys n) (b : Fin n) (s' : Sys n) : Prop where
  other : ∀ c ≠ b, s'.buf c = s.buf c
  rest : s'.rest = s.rest
  touched : Touched s s'

theorem Assigned.store (s : Sys n) (b : Fin n) (data : Block) : Assigned s b (store b data s) :=
  ⟨fun c hc => by simp [EgGS.store, hc], store_rest b data s, .store s b data⟩

theorem Assigned.zero (hlock : (s.buf b).bLock = false) : Assigned s b (s.zero b) :=
  ⟨fun c hc => by simp [Sys.zero, hc], s.zero_rest b, .zero hlock⟩

theorem Assigned.invalidate (hlock : (s.buf b).bLock = false) : Assigned s b (s.invalidate b) :=
  ⟨fun c hc => by simp [Sys.invalidate, hc], s.invalidate_rest b, .invalidate hlock⟩

theorem Assigned.beside (h : Assigned s b s')
    (hup : 0 < refs b → (s.buf b).bUptodate = true → (s'.buf b).bUptodate = true) :
    Beside refs s s' where
  inode := congrArg Rest.inode h.rest
  lastInode := congrArg Rest.lastInode h.rest
  superBlock := congrArg Rest.superBlock h.rest
  geo := congrArg Rest.geo h.rest
  key c _ := Sys.key_of_rest h.rest c
  uptodate c hc hc' := by
    by_cases hcb : c = b
    · subst hcb
      exact hup hc hc'
    · rwa [h.other c hcb]

namespace Mapped

/-- **The contents of one block change.** -/
theorem assigned {value : Block} {loose' : ℕ × ℕ → Prop} (h : Mapped which used loose M refs s)
    (ha : Assigned s b s') (hdev : (s.buf b).bDev ≠ 0)
    (hdirty : (s'.buf b).bDirt = true → (s'.buf b).bUptodate = true)
    (hqueued : ∀ cmd, s.Queued b cmd → (s'.buf b).bUptodate = (s.buf b).bUptodate)
    (hcached : (s'.buf b).bUptodate = true → (s'.buf b).bData = value)
    (hstored : ¬ loose' (s.key b) → (s'.buf b).bDirt = false →
      s.diskBlock (s.buf b).bDev (s.buf b).bBlocknr = value)
    (hpresent : loose' (s.key b) → (s'.buf b).bUptodate = true ∧ 0 < refs b)
    (hloose : ∀ x ≠ s.key b, loose' x ↔ loose x) :
    Mapped which used loose' (Function.update M (s.key b) value) refs s' := by
  have hkeys : ∀ c, s'.key c = s.key c := Sys.key_of_rest ha.rest
  have hgeo : s'.geo = s.geo := congrArg Rest.geo ha.rest
  have hinside : s.geo.Inside (s.buf b).bDev (s.buf b).bBlocknr :=
    h.tiled.inside _ (h.coherent.known b hdev)
  have hkeyed : ∀ c, s'.Keyed c (s.buf c).bDev (s.buf c).bBlocknr := fun c =>
    (Sys.key_eq _).mp (hkeys c)
  have hdue : ∀ c ≠ b, ∀ cmd, s.Due c cmd → s'.Due c cmd := fun c hcb cmd hc =>
    hc.congr hgeo (hkeyed c) (by rw [ha.other c hcb])
  refine h.touched ha.touched (congrArg Rest.hdEnabled ha.rest) (fun c hc => ?_)
    (fun c cmd hq hc => ?_) (h.links.congr (.of_rest ha.rest)) ?_
    ⟨fun c => (congrArg (fun r => (r.links c).bCount) ha.rest).trans (h.counted.count c),
      h.counted.bound⟩ (fun c hc => ?_) fun c hc => ?_
  · by_cases hcb : c = b
    · subst hcb
      refine ⟨hdirty hc, ?_⟩
      rw [hgeo, (hkeyed c).1, (hkeyed c).2]
      exact hinside
    · exact hdue c hcb .write (h.flags.dirty c (ha.other c hcb ▸ hc))
  · by_cases hcb : c = b
    · subst hcb
      exact hc.congr hgeo (hkeyed c) (hqueued cmd hq)
    · exact hdue c hcb cmd hc
  · -- the contents of all other blocks stay coherent
    exact h.coherent.assign (h.links.key_unique b · hdev) ha.other (hkeys b) ha.touched.disk hgeo
      ha.touched.queued hcached hstored (fun hl => (hpresent hl).1) hloose
  · rw [hkeys] at hc
    by_cases hcb : s.key c = s.key b
    · -- no two headers have one block, so only `b` can be the one of the changed block
      obtain rfl : c = b := h.links.key_unique b c hdev hcb
      exact (hpresent hc).2
    · exact h.held c ((hloose _ hcb).mp hc)
  · have hdev' : (s'.buf c).bDev = (s.buf c).bDev := congrArg Prod.fst (hkeys c)
    have hcb : c ≠ b := by
      rintro rfl
      exact hdev (hdev'.symm.trans hc)
    rw [ha.other c hcb] at hc ⊢
    exact h.blank c hc

/-- A holder changes a buffer that is up to date. -/
theorem store (h : Mapped which used loose M refs s) (data : Block) (hdev : (s.buf b).bDev ≠ 0)
    (hup : (s.buf b).bUptodate = true) :
    Mapped which used loose (Function.update M (s.key b) data) refs (store b data s) := by
  have hup' : ((EgGS.store b data s).buf b).bUptodate = (s.buf b).bUptodate := by simp [EgGS.store]
  refine h.assigned (.store s b data) hdev (fun _ => hup'.trans hup) (fun _ _ => hup')
    (fun _ => by simp [EgGS.store]) (fun _ hclean => absurd hclean (by simp [EgGS.store]))
    (fun hl => ⟨hup'.trans hup, h.held b hl⟩) fun _ _ => Iff.rfl

/-- A new block has the contents zero. -/
theorem zero (h : Mapped which used loose M refs s) (hdev : (s.buf b).bDev ≠ 0)
    (hlock : (s.buf b).bLock = false) :
    Mapped which used loose (Function.update M (s.key b) zeroBlock) refs (s.zero b) := by
  have hup : ((s.zero b).buf b).bUptodate = true := by simp [Sys.zero]
  refine h.assigned (.zero hlock) hdev (fun _ => hup)
    (fun cmd hq => absurd hq (h.unqueued hlock cmd)) (fun _ => by simp [Sys.zero])
    (fun _ hclean => absurd hclean (by simp [Sys.zero])) (fun hl => ⟨hup, h.held b hl⟩)
    fun _ _ => Iff.rfl

/-- An invalid buffer leaves its block to the disk. -/
theorem invalidate (h : Mapped which used loose M refs s) (hdev : (s.buf b).bDev ≠ 0)
    (hlock : (s.buf b).bLock = false) (hfirm : ¬ loose (s.key b)) :
    Mapped which used loose
      (Function.update M (s.key b) (s.diskBlock (s.buf b).bDev (s.buf b).bBlocknr)) refs
      (s.invalidate b) := by
  have hstale : ((s.invalidate b).buf b).bUptodate = false := by simp [Sys.invalidate]
  refine h.assigned (.invalidate hlock) hdev (fun hd => absurd hd (by simp [Sys.invalidate]))
    (fun cmd hq => absurd hq (h.unqueued hlock cmd))
    (fun hup => absurd (hup.symm.trans hstale) (by decide)) (fun _ _ => rfl)
    (fun hl => absurd hl hfirm) fun _ _ => Iff.rfl

end Mapped

end EgGS
