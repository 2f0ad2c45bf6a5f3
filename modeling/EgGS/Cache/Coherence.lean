import EgGS.Cache.Loss

/-!
# The cache and the disk

What a block contains is in its buffer, if that is up to date, and on the disk if no
header of the block is dirty or being written.  `Coherent` says that both agree with a map
`M` from blocks to contents, for a set of blocks no two of which have a sector in common.
The disk need not agree for a block that is loose: its buffer was changed and is not marked
dirty.

The driver and the recycling of headers keep `M`; only who changes a buffer changes it.
-/

namespace EgGS

open Lib Prog Relation

variable {n : ℕ} {env : Env n} {k : ℕ} {s s' t : Sys n}
variable {sub : Submission n} {b c : Fin n} {dev block : ℕ}

/-- What the blocks contain, by device and block number. -/
abbrev Contents := ℕ × ℕ → Block

/-- The block that the header belongs to. -/
def Sys.key (s : Sys n) (b : Fin n) : ℕ × ℕ := ((s.buf b).bDev, (s.buf b).bBlocknr)

theorem Sys.key_eq (x : ℕ × ℕ) : s.key b = x ↔ s.Keyed b x.1 x.2 := Prod.ext_iff

/-- The two blocks have no sector in common. -/
def Geometry.Disjoint (geo : Geometry) (x y : ℕ × ℕ) : Prop :=
  minor x.1 / 5 = minor y.1 / 5 →
    ∀ i < 2, ∀ j < 2, geo.lba x.1 (2 * x.2 + i) ≠ geo.lba y.1 (2 * y.2 + j)

/-- The blocks in `used` lie inside their partitions, and no two of them have a sector in
common. -/
structure Geometry.Tiled (geo : Geometry) (used : ℕ × ℕ → Prop) : Prop where
  dev : ∀ x, used x → 1 ≤ x.1 ∧ x.1 < 65536
  inside : ∀ x, used x → geo.Inside x.1 x.2
  apart : ∀ x y, used x → used y → x ≠ y → geo.Disjoint x y

/-- Every header belongs to one of the blocks in `used`, an up-to-date buffer has the contents
of its block, and so has the disk unless the block is loose or one of its headers is dirty or
being written. -/
structure Coherent (used loose : ℕ × ℕ → Prop) (M : Contents) (s : Sys n) : Prop where
  known : ∀ b, (s.buf b).bDev ≠ 0 → used (s.key b)
  cached : ∀ b, (s.buf b).bDev ≠ 0 → (s.buf b).bUptodate = true → (s.buf b).bData = M (s.key b)
  stored : ∀ x, used x → ¬ loose x →
    (∀ b, s.key b = x → (s.buf b).bDirt = false ∧ ¬ s.Queued b .write) → s.diskBlock x.1 x.2 = M x
  present : ∀ x, loose x → ∃ b, s.key b = x ∧ (s.buf b).bUptodate = true

variable {used loose : ℕ × ℕ → Prop} {M : Contents}

theorem Sys.key_of_rest (hrest : s'.rest = s.rest) (b : Fin n) : s'.key b = s.key b :=
  Prod.ext (congrArg (fun r => (r.links b).bDev) hrest)
  (congrArg (fun r => (r.links b).bBlocknr) hrest)

/-- A block that has no sector of the block of `b` is left alone by a write of `b`. -/
theorem Geometry.Disjoint.diskBlock {x : ℕ × ℕ} (hapart : s.geo.Disjoint x (s.key b))
    (hgeo : s'.geo = s.geo)
    (hdisk : ∀ drive lba, s'.disk drive lba ≠ s.disk drive lba → drive = minor (s.buf b).bDev / 5 ∧
      ∃ j < 2, lba = s.geo.lba (s.buf b).bDev (2 * (s.buf b).bBlocknr + j)) :
    s'.diskBlock x.1 x.2 = s.diskBlock x.1 x.2 := by
  have hsector : ∀ i < 2, s'.disk (minor x.1 / 5) (s.geo.lba x.1 (2 * x.2 + i)) =
      s.disk (minor x.1 / 5) (s.geo.lba x.1 (2 * x.2 + i)) := by
    intro i hi
    by_contra hne
    obtain ⟨hdrive, j, hj, hlba⟩ := hdisk _ _ hne
    exact hapart hdrive i hi j hj hlba
  have hlow := hsector 0 (by decide)
  rw [Nat.add_zero] at hlow
  rw [Sys.diskBlock, Sys.diskBlock, hgeo, hlow, hsector 1 (by decide)]

namespace Coherent

/-- Keys, contents and disk stay the same, and so do the buffers that are up to date. -/
theorem congr (h : Coherent used loose M s) (hkey : ∀ b, s'.key b = s.key b)
    (hdata : ∀ b, (s'.buf b).bUptodate = (s.buf b).bUptodate ∧
      ((s.buf b).bUptodate = true → (s'.buf b).bData = (s.buf b).bData))
    (hdisk : s'.disk = s.disk) (hgeo : s'.geo = s.geo)
    (hclean : ∀ b, (s'.buf b).bDirt = false → ¬ s'.Queued b .write →
      (s.buf b).bDirt = false ∧ ¬ s.Queued b .write) : Coherent used loose M s' := by
  have hdev : ∀ b, (s'.buf b).bDev = (s.buf b).bDev := fun b => congrArg Prod.fst (hkey b)
  refine ⟨fun b hb => ?_, fun b hb hup => ?_, fun x hx hfirm hall => ?_, fun x hx => ?_⟩
  · rw [hkey]
    exact h.known b (hdev b ▸ hb)
  · rw [(hdata b).1] at hup
    rw [(hdata b).2 hup, hkey]
    exact h.cached b (hdev b ▸ hb) hup
  · rw [Sys.diskBlock, hdisk, hgeo]
    refine h.stored x hx hfirm fun b hb => ?_
    obtain ⟨hdirt, hqueued⟩ := hall b ((hkey b).trans hb)
    exact hclean b hdirt hqueued
  · obtain ⟨b, hb, hup⟩ := h.present x hx
    exact ⟨b, (hkey b).trans hb, (hdata b).1.trans hup⟩

/-- **The driver keeps the contents of the blocks** as long as no write fails. -/
theorem effect (h : Coherent used loose M s) (hflags : Flags sub s)
    (hqueued : ∀ b cmd, s.Queued b cmd → (s.buf b).bDev ≠ 0)
    (hunique : ∀ b c, (s.buf b).bDev ≠ 0 → s.key c = s.key b → c = b) (htiled : s.geo.Tiled used)
    (heff : Effect sub s s') (hlog : ∀ e ∈ s'.log, ¬ e.Failed (· = .write)) :
    Coherent used loose M s' := by
  -- one case for each thing that the driver can do: only the two transfers touch data
  cases heff with
  | none hrest hbuf hdisk hqueue _ =>
      refine h.congr (Sys.key_of_rest hrest) (fun b => ?_) hdisk (congrArg Rest.geo hrest)
        fun b hdirt hq => ?_
      · rw [hbuf]
        exact ⟨rfl, fun _ => rfl⟩
      · rw [hbuf] at hdirt
        exact ⟨hdirt, (hqueue b .write).not.mp hq⟩
  | @load b hrest hb _ hother hself hdisk hqueue _ =>
      -- a sector comes into a buffer that is not up to date, so nothing is claimed of its data
      have hstale : (s.buf b).bUptodate = false := hflags.queued b .read hb
      refine h.congr (Sys.key_of_rest hrest) (fun c => ?_) hdisk (congrArg Rest.geo hrest)
        fun c hdirt hq => ⟨?_, (hqueue c .write).not.mp hq⟩
      · by_cases hcb : c = b
        · subst hcb
          rw [hself]
          exact ⟨rfl, fun hup => absurd (hup.symm.trans hstale) (by decide)⟩
        · rw [hother c hcb]
          exact ⟨rfl, fun _ => rfl⟩
      · by_cases hcb : c = b
        · subst hcb
          rwa [hself] at hdirt
        · rwa [hother c hcb] at hdirt
  | @save b hrest hb _ hbuf hdisk hqueue _ =>
      -- a sector goes to the disk from a buffer that is queued for a `WRITE`, so the disk may
      -- differ from `M` in its block, and the sectors of the other blocks lie elsewhere
      have hkey := Sys.key_of_rest hrest
      have hgeo : s'.geo = s.geo := congrArg Rest.geo hrest
      refine ⟨fun c hc => ?_, fun c hc hup => ?_, fun x hx hfirm hall => ?_, fun x hx => ?_⟩
      · rw [hkey]
        exact h.known c (hbuf ▸ hc)
      · rw [hkey]
        rw [hbuf] at hc hup ⊢
        exact h.cached c hc hup
      · have hne : x ≠ s.key b := by
          rintro rfl
          exact (hall b (hkey b)).2 ((hqueue b .write).mpr hb)
        have hused := h.known b (hqueued b .write hb)
        rw [(htiled.apart x _ hx hused hne).diskBlock hgeo hdisk]
        refine h.stored x hx hfirm fun c hc => ?_
        obtain ⟨hdirt, hq⟩ := hall c ((hkey c).trans hc)
        exact ⟨hbuf ▸ hdirt, (hqueue c .write).not.mp hq⟩
      · obtain ⟨c, hc, hup⟩ := h.present x hx
        exact ⟨c, (hkey c).trans hc, hbuf ▸ hup⟩
  | @done b cmd ok hrest hb _ hcmd hbuf hdisk hqueue hsame hended =>
      have hkey := Sys.key_of_rest hrest
      have hgeo : s'.geo = s.geo := congrArg Rest.geo hrest
      have hdev := hqueued b cmd hb
      have hused := h.known b hdev
      have hdirt : ∀ c, (s'.buf c).bDirt = (s.buf c).bDirt := by
        intro c
        by_cases hcb : c = b
        · subst hcb; simp [hbuf]
        · simp [hbuf, hcb]
      have hdata : ∀ c, (s'.buf c).bData = (s.buf c).bData ∧ (s'.buf c).bDev = (s.buf c).bDev := by
        intro c
        by_cases hcb : c = b
        · subst hcb; simp [hbuf]
        · simp [hbuf, hcb]
      -- a buffer that a read leaves up to date has the contents of the disk
      have hself : (s'.buf b).bUptodate = true → (s.buf b).bData = M (s.key b) := by
        intro hup
        have hok : ok = true := by simpa [hbuf] using hup
        rcases hcmd with rfl | rfl
        · have hstale : s.Due b .read := hflags.queued b .read hb
          have hclean : (s.buf b).bDirt = false := by
            refine Bool.eq_false_iff.mpr fun hd => ?_
            exact (hflags.dirty b hd).not_read hstale
          rw [hsame hok hclean]
          refine h.stored _ hused (fun hloose => ?_) fun c hc => ?_
          · obtain ⟨c, hc, hup'⟩ := h.present _ hloose
            obtain rfl := hunique b c hdev hc
            exact absurd (hup'.symm.trans hstale) (by decide)
          · obtain rfl := hunique b c hdev hc
            exact ⟨hclean, fun hq => (hflags.queued c .write hq).not_read hstale⟩
        · exact h.cached b hdev (hflags.queued b .write hb).1
      -- a `WRITE` that fails would be in the log
      have hgood : cmd = .write → ok = true := by
        rintro rfl
        cases ok with
        | true => rfl
        | false =>
            rw [hended] at hlog
            have hfailed := hlog _ (List.mem_cons_self ..)
            exact (hfailed rfl).elim
      refine ⟨fun c hc => ?_, fun c hc hup => ?_, fun x hx hfirm hall => ?_, fun x hx => ?_⟩
      · rw [hkey]
        exact h.known c ((hdata c).2 ▸ hc)
      · rw [hkey, (hdata c).1]
        by_cases hcb : c = b
        · exact hcb ▸ hself (hcb ▸ hup)
        · rw [hbuf, Function.update_of_ne hcb] at hc hup
          exact h.cached c hc hup
      · rw [Sys.diskBlock, hdisk, hgeo]
        by_cases hxb : x = s.key b ∧ cmd = .write
        · -- the write has ended well, so the disk has what the buffer has
          obtain ⟨rfl, rfl⟩ := hxb
          have hclean : (s.buf b).bDirt = false := (hdirt b).symm.trans (hall b (hkey b)).1
          have hagree : (s.buf b).bData = s.diskBlock (s.buf b).bDev (s.buf b).bBlocknr :=
            hsame (hgood rfl) hclean
          exact hagree.symm.trans (h.cached b hdev (hflags.queued b .write hb).1)
        · refine h.stored x hx hfirm fun c hc => ?_
          obtain ⟨hclean, hq⟩ := hall c ((hkey c).trans hc)
          refine ⟨(hdirt c).symm.trans hclean, fun hqc => hq ((hqueue c .write).mpr ⟨hqc, ?_⟩)⟩
          rintro rfl
          rcases hcmd with rfl | rfl
          · exact (hflags.queued c .write hqc).not_read (hflags.queued c .read hb)
          · exact hxb ⟨hc.symm, rfl⟩
      · obtain ⟨c, hc, hup⟩ := h.present x hx
        refine ⟨c, (hkey c).trans hc, ?_⟩
        by_cases hcb : c = b
        · subst hcb
          have hok : ok = true := by
            rcases hcmd with rfl | rfl
            · exact absurd (hup.symm.trans (hflags.queued c .read hb)) (by decide)
            · exact hgood rfl
          simp [hbuf, hok]
        · simpa [hbuf, hcb] using hup

/-- A step of the request layer keeps the contents of the blocks. -/
theorem move {x y : Submission n × Sys n} (h : Coherent used loose M x.2) (hflags : Flags x.1 x.2)
    (hqueued : ∀ b cmd, x.2.Queued b cmd → (x.2.buf b).bDev ≠ 0)
    (hunique : ∀ b c, (x.2.buf b).bDev ≠ 0 → x.2.key c = x.2.key b → c = b)
    (htiled : x.2.geo.Tiled used) (hmove : Move x y)
    (hlog : ∀ e ∈ y.2.log, ¬ e.Failed (· = .write)) : Coherent used loose M y.2 := by
  -- locks, fields of requests and the clean flag of an offered buffer: no data and no disk
  cases hmove with
  | effect heff => exact h.effect hflags hqueued hunique htiled heff hlog
  | @lock s b _ =>
      refine h.congr (Sys.key_of_rest
        (Sys.rest_setBuf s b (f := fun bh => { bh with bLock := true })
        fun _ => rfl)) (fun c => ⟨?_, fun _ => ?_⟩) rfl rfl fun c hdirt hq => ⟨?_, hq⟩
      · rw [Sys.setBuf_at (·.bUptodate), ite_self]
      · rw [Sys.setBuf_at (·.bData), ite_self]
      · rwa [Sys.setBuf_at (·.bDirt), ite_self] at hdirt
  | check _ _ _ => exact h
  | @giveUp s b cmd _ =>
      refine h.congr (Sys.key_of_rest
        (Sys.rest_setBuf s b (f := fun bh => { bh with bLock := false })
        fun _ => rfl)) (fun c => ⟨?_, fun _ => ?_⟩) rfl rfl fun c hdirt hq => ⟨?_, hq⟩
      · rw [unlockBuff, Sys.setBuf_at (·.bUptodate), ite_self]
      · rw [unlockBuff, Sys.setBuf_at (·.bData), ite_self]
      · rwa [unlockBuff, Sys.setBuf_at (·.bDirt), ite_self] at hdirt
  | @fill s b rw r hfree _ =>
      refine h.congr (fun _ => rfl) (fun c => ⟨rfl, fun _ => rfl⟩) rfl rfl fun c hdirt hq =>
        ⟨hdirt, fun hqc => hq ?_⟩
      obtain ⟨r', hused, hbh, hcmd⟩ := hqc
      have hr : r' ≠ r := by
        rintro rfl
        exact absurd hfree (not_lt.mpr hused)
      exact ⟨r', by simpa [hr] using hused, by simpa [hr] using hbh, by simpa [hr] using hcmd⟩
  | @offer s s' b cmd r hb hrest hdisk hbuf hqueue _ =>
      have hcore : ∀ c, (s'.buf c).bUptodate = (s.buf c).bUptodate ∧
          (s'.buf c).bData = (s.buf c).bData := by
        intro c
        by_cases hcb : c = b
        · subst hcb; simp [hbuf]
        · simp [hbuf, hcb]
      refine h.congr (Sys.key_of_rest hrest) (fun c => ⟨(hcore c).1, fun _ => (hcore c).2⟩) hdisk
        (congrArg Rest.geo hrest) fun c hdirt hq => ?_
      have hq' : ¬ s.Queued c .write := (hqueue c .write).not.mp hq
      refine ⟨?_, hq'⟩
      by_cases hcb : c = b
      · subst hcb
        -- the flag of `b` was cleared, and a buffer that was dirty is queued for a `WRITE`
        refine Bool.eq_false_iff.mpr fun hd => ?_
        have hdue := hflags.queued c cmd hb
        cases cmd with
        | read => exact (hflags.dirty c hd).not_read hdue
        | write => exact hq' hb
        | readA => exact hdue
        | writeA => exact hdue
      · simpa [hbuf, hcb] using hdirt

end Coherent

end EgGS
