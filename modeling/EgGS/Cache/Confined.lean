import EgGS.Cache.Mapped

/-!
# What reaches the disk

Only writes change the disk, and a write is queued only for a dirty buffer.  So if the dirty
buffers and the queued writes belong to blocks of a set, then no sector outside of these blocks
changes until a buffer of another block is made dirty.

`Confined` is that invariant, with the disk at the start for the sectors outside.  Ending a request,
moving on to its second sector and starting the next one all keep it (`effect`), and so do the steps
of the cache: a header is only given to another block when it is clean.
-/

namespace EgGS

open Lib Prog Relation

variable {n : ℕ} {env : Env n} {k : ℕ} {s s' s₀ t : Sys n}
variable {sub : Submission n} {b c : Fin n} {dev block : ℕ} {W : ℕ × ℕ → Prop}

/-- The sector belongs to the block. -/
def Geometry.SectorOf (geo : Geometry) (drive lba : ℕ) (y : ℕ × ℕ) : Prop :=
  drive = minor y.1 / 5 ∧ ∃ j < 2, lba = geo.lba y.1 (2 * y.2 + j)

/-- Dirty buffers and writes are of blocks in `W`, and since `s₀` only sectors of these blocks
have changed. -/
structure Confined (W : ℕ × ℕ → Prop) (s₀ : Sys n) (x : Submission n × Sys n) : Prop where
  dirty : ∀ b, (x.2.buf b).bDirt = true → W (x.2.key b)
  queued : ∀ b, x.2.Queued b .write → W (x.2.key b)
  making : ∀ b, x.1.buf = some b → x.1.cmd = some .write → W (x.2.key b)
  disk : ∀ drive lba, x.2.disk drive lba ≠ s₀.disk drive lba →
    ∃ y, W y ∧ s₀.geo.SectorOf drive lba y
  geo : x.2.geo = s₀.geo

namespace Confined

theorem start (hdirty : ∀ b, (s.buf b).bDirt = true → W (s.key b))
    (hqueued : ∀ b, s.Queued b .write → W (s.key b)) : Confined W s (.idle, s) :=
  ⟨hdirty, hqueued, fun _ hb => absurd hb (by simp), fun _ _ h => absurd rfl h, rfl⟩

/-- Keys, disk and queue stay the same, and no buffer outside of `W` becomes dirty. -/
theorem congr (h : Confined W s₀ (sub, s)) (hkey : ∀ b, s'.key b = s.key b)
    (hdirty : ∀ b, (s'.buf b).bDirt = true → (s.buf b).bDirt = true ∨ W (s.key b))
    (hqueued : ∀ b, s'.Queued b .write → s.Queued b .write) (hdisk : s'.disk = s.disk)
    (hgeo : s'.geo = s.geo) : Confined W s₀ (sub, s') where
  dirty b hb := (hkey b).symm ▸ (hdirty b hb).elim (h.dirty b) id
  queued b hb := (hkey b).symm ▸ h.queued b (hqueued b hb)
  making b hb hcmd := (hkey b).symm ▸ h.making b hb hcmd
  disk drive lba hne := h.disk drive lba (by rwa [hdisk] at hne)
  geo := hgeo.trans h.geo

theorem effect (h : Confined W s₀ (sub, s)) (heff : Effect sub s s') : Confined W s₀ (sub, s') := by
  cases heff with
  | none hrest hbuf hdisk hqueue _ =>
      exact h.congr (Sys.key_of_rest hrest) (fun b hb => .inl (hbuf ▸ hb))
        (fun b => (hqueue b .write).mp) hdisk (congrArg Rest.geo hrest)
  | @load b hrest _ _ hother hself hdisk hqueue _ =>
      refine h.congr (Sys.key_of_rest hrest) (fun c hc => .inl ?_) (fun c => (hqueue c .write).mp)
        hdisk (congrArg Rest.geo hrest)
      by_cases hcb : c = b
      · subst hcb
        rwa [hself] at hc
      · rwa [hother c hcb] at hc
  | @save b hrest hb _ hbuf hdisk hqueue _ =>
      have hkey := Sys.key_of_rest hrest
      refine ⟨fun c hc => (hkey c).symm ▸ h.dirty c (hbuf ▸ hc),
        fun c hc => (hkey c).symm ▸ h.queued c ((hqueue c .write).mp hc),
        fun c hc hcmd => (hkey c).symm ▸ h.making c hc hcmd, fun drive lba hne => ?_,
        (congrArg Rest.geo hrest).trans h.geo⟩
      by_cases hsame : s'.disk drive lba = s.disk drive lba
      · exact h.disk drive lba (by rwa [hsame] at hne)
      · have hsector : s.geo.SectorOf drive lba (s.key b) := hdisk drive lba hsame
        have hgeo : s.geo = s₀.geo := h.geo
        exact ⟨s.key b, h.queued b hb, hgeo ▸ hsector⟩
  | @done b cmd ok hrest _ _ _ hbuf hdisk hqueue _ _ =>
      refine h.congr (Sys.key_of_rest hrest) (fun c hc => .inl ?_)
        (fun c hc => ((hqueue c .write).mp hc).1) hdisk (congrArg Rest.geo hrest)
      by_cases hcb : c = b
      · subst hcb
        simpa [hbuf] using hc
      · simpa [hbuf, hcb] using hc

/-- **A step of the request layer** changes no other sectors. -/
theorem move {x y : Submission n × Sys n} (h : Confined W s₀ x) (hmove : Move x y) :
    Confined W s₀ y := by
  -- a request comes from a dirty buffer, and those lie in `W`
  cases hmove with
  | effect heff => exact h.effect heff
  | @lock s b _ =>
      have hlocked : Confined W s₀ (.idle, s.setBuf b fun bh => { bh with bLock := true }) := by
        refine h.congr (Sys.key_of_rest
          (Sys.rest_setBuf s b (f := fun bh => { bh with bLock := true })
          fun _ => rfl)) (fun c hc => .inl ?_) (fun _ => id) rfl rfl
        rwa [Sys.setBuf_at (·.bDirt), ite_self] at hc
      exact ⟨hlocked.dirty, hlocked.queued, fun _ _ hcmd => absurd hcmd (by simp), hlocked.disk,
        hlocked.geo⟩
  | @check s b rw _ hdirty _ =>
      refine ⟨h.dirty, h.queued, fun c hc hcmd => ?_, h.disk, h.geo⟩
      obtain rfl : b = c := Option.some.inj hc
      exact h.dirty b (hdirty (Option.some.inj hcmd))
  | @giveUp s b cmd _ =>
      have hkey := Sys.key_of_rest (Sys.rest_setBuf s b (f := fun bh => { bh with bLock := false })
        fun _ => rfl)
      refine ⟨fun c hc => ?_, fun c hc => ?_, fun c hc => absurd hc (by simp), h.disk,
        h.geo⟩
      · dsimp only at hc
        rw [unlockBuff, Sys.setBuf_at (·.bDirt), ite_self] at hc
        exact (hkey c).symm ▸ h.dirty c hc
      · exact (hkey c).symm ▸ h.queued c hc
  | @fill s b rw r hfree _ =>
      refine ⟨h.dirty, fun c hc => ?_, fun c hc hcmd => h.making c hc hcmd, h.disk, h.geo⟩
      obtain ⟨r', hused, hbh, hcmd⟩ := hc
      by_cases hr : r' = r
      · subst hr
        refine h.making c ?_ ?_
        · simpa [makeRequest] using hbh
        · simpa [makeRequest] using hcmd
      · exact h.queued c ⟨r', by simpa [hr] using hused, by simpa [hr] using hbh,
          by simpa [hr] using hcmd⟩
  | @offer s s' b cmd r _ hrest hdisk hbuf hqueue _ =>
      have hkey := Sys.key_of_rest hrest
      refine ⟨fun c hc => ?_, fun c hc => (hkey c).symm ▸ h.queued c ((hqueue c .write).mp hc),
        fun c hc => absurd hc (by simp), fun drive lba hne => ?_,
        (congrArg Rest.geo hrest).trans h.geo⟩
      · dsimp only at hc
        by_cases hcb : c = b
        · subst hcb
          simp [hbuf] at hc
        · rw [hbuf, Function.update_of_ne hcb] at hc
          exact (hkey c).symm ▸ h.dirty c hc
      · dsimp only at hne
        exact h.disk drive lba (by rwa [hdisk] at hne)

theorem moves {x y : Submission n × Sys n} (h : Confined W s₀ x) (hpath : Moves x y) :
    Confined W s₀ y := by
  induction hpath with
  | refl => exact h
  | tail _ hmove ih => exact ih.move hmove

/-! ## The buffer cache -/

variable {which : Rw → Prop} {used loose : ℕ × ℕ → Prop} {M : Contents} {refs : Refs n}

theorem submits (h : Confined W s₀ (.idle, s)) (henv : env.Answers) (hserving : Serving .idle s)
    (hpath : Submits env (.idle, s) (.idle, s')) : Confined W s₀ (.idle, s') :=
  h.moves (Serving.submits henv hserving hpath).2

/-- Fields of headers are assigned. -/
theorem touched (h : Confined W s₀ (.idle, s)) (ht : Touched s s') (hkey : ∀ b, s'.key b = s.key b)
    (hdirty : ∀ b, (s'.buf b).bDirt = true → (s.buf b).bDirt = true ∨ W (s.key b)) :
    Confined W s₀ (.idle, s') :=
  h.congr hkey hdirty (fun b => (ht.queued b .write).mp) ht.disk ht.geo

/-- A count is assigned. -/
theorem count (h : Confined W s₀ (.idle, s)) (b : Fin n) (count : ℕ) :
    Confined W s₀ (.idle, s.setBuf b fun bh => { bh with bCount := count }) := by
  refine h.touched (.count s b count) (fun c => ?_) fun c hc => .inl ?_
  · exact Prod.ext (by rw [Sys.key, Sys.setBuf_at (·.bDev), ite_self]; rfl)
      (by rw [Sys.key, Sys.setBuf_at (·.bBlocknr), ite_self]; rfl)
  · rwa [Sys.setBuf_at (·.bDirt), ite_self] at hc

/-- **A header is recycled.**  It was clean, and its new block is too. -/
theorem reuse (h : Confined W s₀ (.idle, s)) (hmapped : Mapped which used loose M refs s)
    (hrec : Recyclable env s dev block b) (hreuse : reuse b dev block env k s = .ok () s') :
    Confined W s₀ (.idle, s') := by
  obtain ⟨-, hself, hother⟩ := reuse_spec hreuse
  have ht := hrec.touched hreuse
  have hkeys : ∀ c ≠ b, s'.key c = s.key c := fun c hcb =>
    Prod.ext (congrArg BufferCore.bDev (hother c hcb)) (congrArg BufferCore.bBlocknr (hother c hcb))
  have hclean : (s'.buf b).bDirt = false := congrArg BufferCore.bDirt hself
  refine ⟨fun c hc => ?_, fun c hc => ?_, fun c hc => absurd hc (by simp), fun drive lba hne => ?_,
    ht.geo.trans h.geo⟩
  · have hcb : c ≠ b := by
      rintro rfl
      exact absurd (hc.symm.trans hclean) (by decide)
    have hdirt : (s'.buf c).bDirt = (s.buf c).bDirt := congrArg BufferCore.bDirt (hother c hcb)
    exact (hkeys c hcb).symm ▸ h.dirty c (hdirt.symm.trans hc)
  · have hc' : s.Queued c .write := (ht.queued c .write).mp hc
    have hcb : c ≠ b := by
      rintro rfl
      exact hmapped.unqueued hrec.lock .write hc'
    exact (hkeys c hcb).symm ▸ h.queued c hc'
  · dsimp only at hne
    exact h.disk drive lba (by rwa [ht.disk] at hne)

theorem taken (h : Confined W s₀ (.idle, s)) (hmapped : Mapped which used loose M refs s)
    (henv : env.Works which) (hwhich : which .write) (htaken : Taken env s dev block b s') :
    Confined W s₀ (.idle, s') := by
  cases htaken with
  | @found t hpath _ heq =>
      subst heq
      exact (h.submits henv.answers hmapped.working.serving hpath).count b _
  | @recycled t k hpath hrec hreuse =>
      have ht := h.submits henv.answers hmapped.working.serving hpath
      exact ht.reuse (hmapped.submits henv hwhich hpath) hrec hreuse

/-- **A holder stores into the buffer** of a block in `W`. -/
theorem store (h : Confined W s₀ (.idle, s)) (hb : W (s.key b)) (data : Block) :
    Confined W s₀ (.idle, store b data s) := by
  refine h.touched (.store s b data) (Sys.key_of_rest (store_rest b data s)) fun c hc => ?_
  by_cases hcb : c = b
  · exact .inr (hcb ▸ hb)
  · exact .inl (by simpa [EgGS.store, hcb] using hc)

end Confined

end EgGS
