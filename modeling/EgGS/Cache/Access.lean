import EgGS.Cache.Mapped
import EgGS.Cache.Recycle

/-!
# Taking buffers and giving them back

What `get_buff`, `read_buff`, `put_buff` and `invalidate_buff` do to the map.  A block can be
taken if it has a header or some header is unreferenced; then the call returns with a
reference to the header of the block, and `read_buff` with its contents.

Each lemma has the same form: on a state where the cache agrees with the map, the call returns, the
cache agrees with the map again, the counts are those of the references outstanding, and `Beside`
says what else has stayed.  The calls of the file system are composed from these four.

`invalidate_buff` leaves the contents of its block to the disk.
-/

namespace EgGS

open Lib Prog Relation

variable {n : ℕ} {env : Env n} {k : ℕ} {s s' t : Sys n}
variable {b c : Fin n} {dev block : ℕ} {found : Option (Fin n)}
variable {which : Rw → Prop} {used loose : ℕ × ℕ → Prop} {M : Contents} {refs refs' : Refs n}

/-- The block has a header, or some header is unreferenced. -/
def Sys.Reachable (s : Sys n) (refs : Refs n) (dev block : ℕ) : Prop :=
  (∃ b, s.Keyed b dev block) ∨ ∃ c, refs c = 0

/-- One more reference to the header of the block fits. -/
def Sys.Roomy (s : Sys n) (refs : Refs n) (dev block : ℕ) : Prop :=
  ∀ b, s.Keyed b dev block → refs b + 1 < 256

theorem Beside.countUp (s : Sys n) (b : Fin n) : Beside refs s (s.countUp b) where
  inode := rfl
  lastInode := rfl
  superBlock := rfl
  geo := rfl
  key c _ := by
    refine Prod.ext ?_ ?_
    · simp only [Sys.key, Sys.countUp]
      rw [Sys.setBuf_at (·.bDev), ite_self]
    · simp only [Sys.key, Sys.countUp]
      rw [Sys.setBuf_at (·.bBlocknr), ite_self]
  uptodate c _ hc := by
    rwa [Sys.countUp, Sys.setBuf_at (·.bUptodate), ite_self]

theorem Beside.countDown (s : Sys n) (b : Fin n) : Beside refs s (s.countDown b) where
  inode := rfl
  lastInode := rfl
  superBlock := rfl
  geo := rfl
  key c _ := by
    refine Prod.ext ?_ ?_
    · simp only [Sys.key, Sys.countDown]
      rw [Sys.setBuf_at (·.bDev), ite_self]
    · simp only [Sys.key, Sys.countDown]
      rw [Sys.setBuf_at (·.bBlocknr), ite_self]
  uptodate c _ hc := by
    rwa [Sys.countDown, Sys.setBuf_at (·.bUptodate), ite_self]

/-- The block can be read: it is on the disk, and there is a header for it, with room for one
more reference. -/
structure Sys.Readable (used loose : ℕ × ℕ → Prop) (refs : Refs n) (s : Sys n) (dev block : ℕ) :
    Prop where
  used : used (dev, block)
  firm : ¬ loose (dev, block)
  room : s.Roomy refs dev block
  header : s.Reachable refs dev block

theorem Sys.Roomy.beside (h : s.Roomy refs dev block) (hbeside : Beside refs s s') :
    s'.Roomy refs dev block := by
  intro b hb
  rcases Nat.eq_zero_or_pos (refs b) with hzero | hpos
  · omega
  · exact h b ((Sys.key_eq _).mp
      ((hbeside.key b hpos).symm.trans ((Sys.key_eq (dev, block)).mpr hb)))

theorem Sys.Reachable.beside (h : s.Reachable refs dev block) (hbeside : Beside refs s s') :
    s'.Reachable refs dev block := by
  rcases h with ⟨b, hb⟩ | hspare
  · rcases Nat.eq_zero_or_pos (refs b) with hzero | hpos
    · exact .inr ⟨b, hzero⟩
    · exact .inl ⟨b, (Sys.key_eq _).mp
        ((hbeside.key b hpos).trans ((Sys.key_eq (dev, block)).mpr hb))⟩
  · exact .inr hspare

theorem Sys.Readable.beside (h : s.Readable used loose refs dev block)
    (hbeside : Beside refs s s') :
    s'.Readable used loose refs dev block :=
  ⟨h.used, h.firm, h.room.beside hbeside, h.header.beside hbeside⟩

namespace Mapped

theorem ready (h : Mapped which used loose M refs s) : Ready which s := by
  refine ⟨h.working, h.links, fun b hb => ?_, fun b => ?_⟩
  · have hdev : (s.buf b).bDev ≠ 0 := fun hzero =>
      absurd (hb.symm.trans (h.blank b hzero)) (by decide)
    exact h.major _ (h.coherent.known b hdev)
  · rw [h.counted.count]
    exact h.counted.bound b

theorem dev_ne_zero (h : Mapped which used loose M refs s) (hused : used (dev, block)) :
    dev ≠ 0 := by
  have hdev : 1 ≤ dev := (h.tiled.dev _ hused).1
  omega

theorem dev_of_key {x : ℕ × ℕ} (h : Mapped which used loose M refs s) (hused : used x)
    (hkey : s.key b = x) : (s.buf b).bDev ≠ 0 := by
  have hdev : (s.buf b).bDev = x.1 := congrArg Prod.fst hkey
  have hpos := (h.tiled.dev x hused).1
  omega

section
variable (henv : env.Works which)
include henv

theorem waitOnBuff (h : Mapped which used loose M refs s) (b : Fin n) :
    Does (waitOnBuff b) env s fun _ s' =>
      Submits env (.idle, s) (.idle, s') ∧ (s'.buf b).bLock = false :=
  h.ready.waitOnBuff henv b

/-- **`get_buff`** takes the header of the block. -/
theorem getBuff (h : Mapped which used loose M refs s) (hused : used (dev, block))
    (hreach : s.Reachable refs dev block) :
    Does (getBuff dev block) env s fun b s' => Taken env s dev block b s' := by
  have hspare : (∃ b, s.Keyed b dev block) ∨ ∃ c, (s.buf c).bCount = 0 :=
    hreach.imp id fun ⟨c, hc⟩ => ⟨c, (h.counted.count c).trans hc⟩
  exact (h.ready.getBuff henv (h.dev_ne_zero hused) (h.tiled.dev _ hused).2 hspare).mono
    fun _ _ => Obtained.taken

end

section
variable (henv : env.Works which) (hwhich : which .write)
include henv hwhich

/-! ## A reference more -/

/-- **A reference is taken.** -/
theorem taken (h : Mapped which used loose M refs s) (hused : used (dev, block))
    (hroom : s.Roomy refs dev block) (htaken : Taken env s dev block b s') :
    Mapped which used loose M (refs.add b) s' ∧ Beside refs s s' ∧ s'.key b = (dev, block) ∧
      (s'.buf b).bLock = false ∧ (0 < refs b → s.Keyed b dev block) := by
  have hlock := htaken.unlocked
  cases htaken with
  | @found t hpath hfound heq =>
      subst heq
      have ht := h.submits henv hwhich hpath
      have hkey : s.Keyed b dev block := (Submits.keyed_iff hpath b).mp hfound.key
      refine ⟨ht.up (hroom b hkey), (h.beside henv hwhich hpath).trans (.countUp t b), ?_, hlock,
        fun _ => hkey⟩
      refine (Sys.key_eq _).mpr ⟨?_, ?_⟩
      · rw [Sys.countUp, Sys.setBuf_at (·.bDev), ite_self]
        exact hfound.key.1
      · rw [Sys.countUp, Sys.setBuf_at (·.bBlocknr), ite_self]
        exact hfound.key.2
  | @recycled t k hpath hrec hreuse =>
      have ht := h.submits henv hwhich hpath
      obtain ⟨hmapped, hbeside, hkey⟩ := ht.reuse hused hrec hreuse
      have hzero : refs b = 0 := (ht.counted.count b).symm.trans hrec.count
      exact ⟨hmapped, (h.beside henv hwhich hpath).trans hbeside, hkey, hlock,
        fun hpos => absurd hpos (by omega)⟩

/-- **`put_buff`** gives a reference back. -/
theorem putBuff (h : Mapped which used loose M refs s) (hb : 0 < refs b)
    (hfirm : ¬ loose (s.key b)) :
    Does (putBuff (some b)) env s fun _ s' =>
      Mapped which used loose M (refs.sub b) s' ∧ Beside refs s s' := by
  refine (h.waitOnBuff henv b).bind fun _ t ⟨hpath, _⟩ => .bind_read ?_
  have ht := h.submits henv hwhich hpath
  have hcount : (t.buf b).bCount ≠ 0 := by
    rw [ht.counted.count]
    exact hb.ne'
  have hkey : t.key b = s.key b := Sys.key_of_rest hpath.rest b
  refine .ite (fun hzero => absurd hzero hcount) fun _ => .update ⟨ht.down hb (hkey ▸ hfirm), ?_⟩
  exact (h.beside henv hwhich hpath).trans (.countDown t b)

end

/-- A loose block has a buffer that is up to date. -/
theorem firm (h : Mapped which used loose M refs s) (hdev : (s.buf b).bDev ≠ 0)
    (hstale : (s.buf b).bUptodate = false) : ¬ loose (s.key b) := by
  intro hloose
  obtain ⟨c, hkey, hup⟩ := h.coherent.present _ hloose
  obtain rfl : c = b := h.links.key_unique b c hdev hkey
  exact absurd (hup.symm.trans hstale) (by decide)

end Mapped

/-- There is a reference to the buffer `b` of the block, which is up to date. -/
structure Holds (which : Rw → Prop) (used loose : ℕ × ℕ → Prop) (M : Contents) (refs : Refs n)
    (dev block : ℕ) (b : Fin n) (s : Sys n) : Prop where
  mapped : Mapped which used loose M (refs.add b) s
  key : s.key b = (dev, block)
  uptodate : (s.buf b).bUptodate = true
  lock : (s.buf b).bLock = false

theorem Holds.dev_ne_zero (h : Holds which used loose M refs dev block b s)
    (hused : used (dev, block)) :
    (s.buf b).bDev ≠ 0 := h.mapped.dev_of_key hused h.key

/-- The buffer has the contents of the block. -/
theorem Holds.data (h : Holds which used loose M refs dev block b s) (hused : used (dev, block)) :
    (s.buf b).bData = M (dev, block) := by
  rw [h.mapped.coherent.cached b (h.dev_ne_zero hused) h.uptodate, h.key]

/-- What `read_buff` does: it returns the buffer of the block, or none if reads may fail. -/
def ReadBuff (which : Rw → Prop) (used loose : ℕ × ℕ → Prop) (M : Contents) (refs : Refs n)
    (dev block : ℕ) (s : Sys n) : Option (Fin n) → Sys n → Prop
  | some b, s' => Holds which used loose M refs dev block b s' ∧ Beside refs s s' ∧
      (0 < refs b → s.Keyed b dev block)
  | none, s' => Mapped which used loose M refs s' ∧ Beside refs s s' ∧ ¬ ∀ cmd, which cmd

namespace Mapped

section
variable (henv : env.Works which) (hwhich : which .write)
include henv hwhich

/-- **`read_buff`** returns the contents of the block. -/
theorem readBuff (h : Mapped which used loose M refs s) (hused : used (dev, block))
    (hroom : s.Roomy refs dev block) (hreach : s.Reachable refs dev block) :
    Does (readBuff dev block) env s (ReadBuff which used loose M refs dev block s) := by
  refine (h.getBuff henv hused hreach).bind fun b t htaken => .bind_read ?_
  obtain ⟨ht, hbeside, hkey, hlock, hold⟩ := h.taken henv hwhich hused hroom htaken
  have hdev : (t.buf b).bDev ≠ 0 := ht.dev_of_key hused hkey
  have hmajor : EgGS.major (t.buf b).bDev = 3 := ht.major _ (ht.coherent.known b hdev)
  refine .ite (fun hup => .pure ⟨⟨ht, hkey, hup, hlock⟩, hbeside, hold⟩) fun _ => ?_
  have hreads : Does (llRwBlock .read b) env t fun _ u => Submits env (.idle, t) (.idle, u) ∧
      ((∀ cmd, which cmd) → Reading b u) :=
    (ht.working.llRwBlock_returns henv hlock).does fun _ _ _ hrun =>
      ⟨llRwBlock_submits hlock hrun, fun hall =>
        ht.working.llRwBlock_read henv hall hmajor hlock hrun⟩
  refine hreads.bind ?_
  rintro _ u ⟨hpath, hreading⟩
  have hu := ht.submits henv hwhich hpath
  refine (hu.waitOnBuff henv b).bind ?_
  rintro _ v ⟨hwait, hlock'⟩
  refine .bind_read ?_
  have hv := hu.submits henv hwhich hwait
  have hboth : Submits env (.idle, t) (.idle, v) := hpath.trans hwait
  have hkey' : v.key b = (dev, block) := (Sys.key_of_rest hboth.rest b).trans hkey
  have hbeside' : Beside refs s v := hbeside.trans (ht.beside henv hwhich hboth)
  refine .ite (fun hup => .pure ⟨⟨hv, hkey', hup, hlock'⟩, hbeside', hold⟩) fun hstale => ?_
  have hpos : 0 < (refs.add b) b := by simp [Refs.add]
  have hfirm : ¬ loose (v.key b) :=
    hv.firm (hv.dev_of_key hused hkey') (Bool.eq_false_iff.mpr hstale)
  refine (hv.putBuff henv hwhich hpos hfirm).bind ?_
  rintro _ w ⟨hw, hput⟩
  rw [Refs.sub_add] at hw
  refine .pure ⟨hw, hbeside'.trans (hput.mono (refs.le_add b)), fun hall => ?_⟩
  -- if no read fails, the read that was queued has made the buffer up to date
  obtain ⟨-, hmoves⟩ := hu.working.serving.submits henv.answers hwait
  have hlog : ∀ e ∈ v.log, ¬ e.Failed fun _ => True := fun e he hf =>
    hv.working.spared.log e he (hf.mono fun cmd _ => hall cmd)
  rcases hmoves.reading hlog (hreading hall) with hup | hqueued
  · exact hstale hup
  · exact hv.unqueued hlock' .read hqueued

/-- **`invalidate_buff`** of a block that nobody holds leaves its contents to the disk. -/
theorem invalidateBuff (h : Mapped which used loose M refs s) (hused : used (dev, block))
    (hfree : ∀ b, s.Keyed b dev block → refs b = 0) (hfirm : ¬ loose (dev, block)) :
    Does (invalidateBuff dev block) env s fun _ s' => ∃ value,
      Mapped which used loose (Function.update M (dev, block) value) refs s' ∧
        Beside refs s s' := by
  have hdev := h.dev_ne_zero hused
  refine (h.ready.retainBuff henv hdev).bind ?_
  rintro (_ | b) t ⟨hretained, -⟩
  · refine .pure ⟨M (dev, block), ?_, h.beside henv hwhich hretained⟩
    rw [Function.update_eq_self]
    exact h.submits henv hwhich hretained
  · obtain ⟨ht, hbeside, hkey, hlock, -⟩ := h.taken henv hwhich hused
      (fun c hc => by rw [hfree c hc]; decide) hretained.handed
    obtain ⟨u, hpath, hfound, -⟩ := hretained
    have hzero : refs b = 0 := hfree b ((Submits.keyed_iff hpath b).mp hfound.key)
    have hone : (t.buf b).bCount = 1 := by
      rw [ht.counted.count, Refs.add_apply, hzero]
      simp
    refine .bind_read (.ite (fun hne => absurd hone hne) fun _ => .bind_update ?_)
    have hinvalid := ht.invalidate (ht.dev_of_key hused hkey) hlock (hkey ▸ hfirm)
    have hpos : 0 < (refs.add b) b := by simp [Refs.add]
    have hkey' : (t.invalidate b).key b = (dev, block) :=
      (Sys.key_of_rest (t.invalidate_rest b) b).trans hkey
    refine (hinvalid.putBuff henv hwhich hpos (hkey' ▸ hfirm)).mono ?_
    rintro _ v ⟨hv, hput⟩
    rw [Refs.sub_add, hkey] at hv
    refine ⟨_, hv, (hbeside.trans ((Assigned.invalidate hlock).beside fun hb => ?_)).trans
      (hput.mono (refs.le_add b))⟩
    omega

end

end Mapped

/-- **The start.**  Behind `init_request_queue` and `init_buff` the blocks contain what is on the
disk. -/
theorem Mapped.init [NeZero n] {s₀ : Sys n} (hquiet : s₀.Quiet) (hdrives : s₀.geo.Drives)
    (hen : s₀.hdEnabled = true) (htiled : s₀.geo.Tiled used)
    (hmajor : ∀ x, used x → EgGS.major x.1 = 3) :
    Mapped which used (fun _ => False) (fun x => s₀.diskBlock x.1 x.2) (fun _ => 0)
      (initBuff (initRequestQueue s₀)) := by
  have hsecure := Secure.init hquiet
  have hnone : (initBuff (initRequestQueue s₀)).current = none := hquiet.current
  have hlog : (initBuff (initRequestQueue s₀)).log = [] := hquiet.log
  have hdev : ∀ b, ((initBuff (initRequestQueue s₀)).buf b).bDev = 0 := fun _ => rfl
  exact
    { working := ⟨hsecure.serving,
    ⟨by simp [hlog], fun _ r hr => absurd (hnone.symm.trans hr) (by simp)⟩,
        hdrives, hen, fun b _ _ hb => absurd (hdev b) hb, fun hcur => absurd hnone hcur⟩
      flags := hsecure.flags
      links := .init _
      coherent := ⟨fun b hb => absurd (hdev b) hb, fun b hb _ => absurd (hdev b) hb, fun _ _ _ _ =>
      rfl,
        fun _ hx => hx.elim⟩
      tiled := htiled
      major := hmajor
      counted := ⟨fun _ => rfl, fun _ => by decide⟩
      held := fun _ hx => hx.elim
      blank := fun _ _ => rfl }

/-- A controller that always answers, and with success. -/
theorem diligent_works_all (which : Rw → Prop) : (Env.diligent 0x50 : Env n).Works which where
  answers := diligent_answers 0x50
  spares := by
    refine ⟨fun s i h hfail => ?_, fun s h => absurd h (by simp [Env.diligent])⟩
    simp only [Env.diligent] at h
    split at h
    · obtain rfl := Option.some.inj h
      exact absurd hfail (by decide)
    · exact absurd h (by simp)
  ready _ := rfl
  prompt s hout := ⟨0, by simp [Env.diligent, hout], Nat.one_pos⟩

end EgGS
