import EgGS.Block.Runs
import EgGS.Fs.Inodes

/-!
# What the calls leave of the interrupt flag

Every wait disables interrupts first and enables them only while there is something to
wait for, every lock and every request enables them.  So what a call leaves is decided by
the last of these that it does.

For each function there is one lemma that finds its last wait, lock or request: `WaitedFor.intr` for
the buffer calls, `llRwBlock_intr` for the request layer, `findSuper_super` for the super blocks,
`syncInodeRound_intr` and `syncRound_intr` for the loops over inodes and buffers.  Where nothing
waits, the flag is the one that the caller had.

* `interrupts_given_back`: for each function of the buffer cache and the file system,
  exactly when it returns with interrupts enabled.
-/

namespace EgGS

open Lib Prog Relation

variable {n : ℕ} {env : Env n} {k : ℕ} {s s' t : Sys n} {b : Fin n} {dev block : ℕ}
variable {i : Fin nrInode} {sb : Fin nrSuper} {u : Unit}

/-! ## The buffer cache -/

/-- A call waited for the buffer `b` from `t` on, and what it did then is to count, to
recycle, or nothing. -/
inductive WaitedFor (env : Env n) (k dev block : ℕ) (b : Fin n) (t : Sys n) : Sys n → Prop
  | counted {t' : Sys n} : waitOnBuff b env k t = .ok () t' →
      WaitedFor env k dev block b t (t'.countUp b)
  | recycled {t' s' : Sys n} : waitOnBuff b env k t = .ok () t' →
      reuse b dev block env k t' = .ok () s' → WaitedFor env k dev block b t s'
  | read {t' : Sys n} : waitOnBuff b env k t = .ok () t' → WaitedFor env k dev block b t t'
  | put {t' : Sys n} : waitOnBuff b env k t = .ok () t' →
      WaitedFor env k dev block b t (t'.countDown b)

theorem reuse_intr (h : reuse b dev block env k s = .ok u s') : s'.intr = s.intr := by
  obtain ⟨hstate, -, -⟩ := reuse_spec h
  rw [hstate]

theorem WaitedFor.intr (h : WaitedFor env k dev block b t s') :
    s'.intr = true ↔ (t.buf b).bLock = true := by
  cases h with
  | @counted t' hwait =>
      show t'.intr = true ↔ _
      exact waitOnBuff_intr hwait
  | recycled hwait hreuse =>
      rw [reuse_intr hreuse]
      exact waitOnBuff_intr hwait
  | read hwait => exact waitOnBuff_intr hwait
  | @put t' hwait =>
      show t'.intr = true ↔ _
      exact waitOnBuff_intr hwait

theorem retainBuff_waited (h : retainBuff dev block env k s = .ok (some b) s') :
    ∃ t, Submits env (.idle, s) (.idle, t) ∧ WaitedFor env k dev block b t s' := by
  refine iterate_ensures (I := fun _ t => Submits env (.idle, s) (.idle, t))
    (Q := fun found s' => ∀ b, found = some b → ∃ t, Submits env (.idle, s) (.idle, t) ∧
      WaitedFor env k dev block b t s') ?_ ?_ .refl h b rfl
  · intro _ t _ t' hI hbody
    obtain ⟨⟨⟩, t₁, hpoll, hbody⟩ := bind_eq_ok.mp hbody
    obtain ⟨found, t₂, hfind, hbody⟩ := bind_eq_ok.mp hbody
    obtain ⟨rfl, -⟩ := findBuff_found hfind
    cases found with
    | none => simp at hbody
    | some c =>
        simp only [bind_eq_ok, read_bind, ite_run] at hbody
        obtain ⟨⟨⟩, t₃, hwait, hbody⟩ := hbody
        split at hbody
        · simp only [pure_run, Res.ok.injEq] at hbody
          exact hbody.2 ▸ (hI.trans (poll_submits hpoll)).trans (waitOnBuff_submits .idle hwait).1
        · simp at hbody
  · intro _ t found t' hI hbody
    obtain ⟨⟨⟩, t₁, hpoll, hbody⟩ := bind_eq_ok.mp hbody
    obtain ⟨found', t₂, hfind, hbody⟩ := bind_eq_ok.mp hbody
    obtain ⟨rfl, -⟩ := findBuff_found hfind
    cases found' with
    | none =>
        simp only [pure_run, Res.ok.injEq, Sum.inr.injEq] at hbody
        obtain ⟨rfl, -⟩ := hbody
        exact fun b hb => absurd hb (by simp)
    | some c =>
        simp only [bind_eq_ok, read_bind, ite_run] at hbody
        obtain ⟨⟨⟩, t₃, hwait, hbody⟩ := hbody
        split at hbody
        · simp at hbody
        · simp only [update_bind, pure_run, Res.ok.injEq, Sum.inr.injEq] at hbody
          obtain ⟨rfl, rfl⟩ := hbody
          rintro b hb
          obtain rfl := Option.some.inj hb
          exact ⟨t₂, hI.trans (poll_submits hpoll), .counted hwait⟩

/-- The loop of `new_buff` that cleans the victim ends with a wait for it, or does nothing. -/
theorem cleanVictim_waited {s₀ : Sys n} {unused : Bool}
    (hstart : Submits env (.idle, s₀) (.idle, t)) (hwait : waitOnBuff b env k t = .ok () s)
    (h : cleanVictim b env k s = .ok unused s') :
    ∃ t, Submits env (.idle, s₀) (.idle, t) ∧ waitOnBuff b env k t = .ok () s' := by
  have hwaited : ∀ {t s : Sys n}, Submits env (.idle, s₀) (.idle, t) →
      waitOnBuff b env k t = .ok () s → Submits env (.idle, s₀) (.idle, s) :=
    fun hpath hw => hpath.trans (waitOnBuff_submits .idle hw).1
  refine iterate_ensures
    (I := fun _ s => ∃ t, Submits env (.idle, s₀) (.idle, t) ∧ waitOnBuff b env k t = .ok () s)
    (Q := fun _ s => ∃ t, Submits env (.idle, s₀) (.idle, t) ∧ waitOnBuff b env k t = .ok () s)
    ?_ ?_ ⟨t, hstart, hwait⟩ h
  · rintro _ t₁ _ t₂ ⟨t, hpath, hw⟩ hbody
    rw [read_bind, ite_run] at hbody
    split at hbody
    · simp only [bind_eq_ok, read_bind, ite_run, pure_run] at hbody
      obtain ⟨⟨⟩, t₃, hsync, ⟨⟩, t₄, hw', hbody⟩ := hbody
      split at hbody
      · simp at hbody
      · simp only [Res.ok.injEq] at hbody
        exact hbody.2 ▸ ⟨t₃, (hwaited hpath hw).trans (syncDev_submits hsync), hw'⟩
    · simp at hbody
  · rintro _ t₁ _ t₂ ⟨t, hpath, hw⟩ hbody
    rw [read_bind, ite_run] at hbody
    split at hbody
    · simp only [bind_eq_ok, read_bind, ite_run, pure_run] at hbody
      obtain ⟨⟨⟩, t₃, hsync, ⟨⟩, t₄, hw', hbody⟩ := hbody
      split at hbody
      · simp only [Res.ok.injEq] at hbody
        exact hbody.2 ▸ ⟨t₃, (hwaited hpath hw).trans (syncDev_submits hsync), hw'⟩
      · simp at hbody
    · simp only [pure_run, Res.ok.injEq] at hbody
      exact hbody.2 ▸ ⟨t, hpath, hw⟩

theorem newBuff_waited (h : newBuff dev block env k s = .ok (some b) s') :
    ∃ t, Submits env (.idle, s) (.idle, t) ∧ WaitedFor env k dev block b t s' := by
  obtain ⟨⟨⟩, s₁, hpoll, h⟩ := bind_eq_ok.mp h
  obtain ⟨victim, s₂, hscan, h⟩ := bind_eq_ok.mp h
  obtain ⟨rfl, -⟩ := scanFree_unused hscan
  cases victim with
  | none => simp at h
  | some c =>
      simp only [bind_eq_ok, read_bind, ite_run] at h
      obtain ⟨⟨⟩, s₃, hwait, h⟩ := h
      split at h
      · simp at h
      rw [bind_eq_ok] at h
      obtain ⟨unused, s₄, hclean, h⟩ := h
      obtain ⟨t, hpath, hwait'⟩ := cleanVictim_waited (poll_submits hpoll) hwait hclean
      cases unused with
      | false => simp at h
      | true =>
          simp only [if_true, bind_eq_ok] at h
          obtain ⟨found, s₅, hfind, h⟩ := h
          obtain ⟨rfl, -⟩ := findBuff_found hfind
          cases found with
          | some c => simp at h
          | none =>
              simp only [bind_eq_ok, pure_run, Res.ok.injEq, Option.some.injEq] at h
              obtain ⟨⟨⟩, s₆, hreuse, rfl, rfl⟩ := h
              exact ⟨t, hpath, .recycled hwait' hreuse⟩

/-- The last thing `get_buff` does is to wait for the buffer it returns. -/
theorem getBuff_waited (h : getBuff dev block env k s = .ok b s') :
    ∃ t, Submits env (.idle, s) (.idle, t) ∧ WaitedFor env k dev block b t s' := by
  refine iterate_ensures (I := fun _ t => Submits env (.idle, s) (.idle, t))
    (Q := fun b s' => ∃ t, Submits env (.idle, s) (.idle, t) ∧ WaitedFor env k dev block b t s')
    ?_ ?_ .refl h
  · intro _ t _ t' hI hbody
    obtain ⟨found, t₁, hretain, hbody⟩ := bind_eq_ok.mp hbody
    cases found with
    | some c => simp at hbody
    | none =>
        simp only [bind_eq_ok] at hbody
        obtain ⟨made, t₂, hnew, hbody⟩ := hbody
        cases made with
        | some c => simp at hbody
        | none =>
            simp only [pure_run, Res.ok.injEq] at hbody
            exact hbody.2 ▸ (hI.trans (retainBuff_handed hretain)).trans (newBuff_handed hnew)
  · intro _ t c t' hI hbody
    obtain ⟨found, t₁, hretain, hbody⟩ := bind_eq_ok.mp hbody
    cases found with
    | some c' =>
        simp only [pure_run, Res.ok.injEq, Sum.inr.injEq] at hbody
        obtain ⟨rfl, rfl⟩ := hbody
        obtain ⟨t₂, hpath, hwaited⟩ := retainBuff_waited hretain
        exact ⟨t₂, hI.trans hpath, hwaited⟩
    | none =>
        simp only [bind_eq_ok] at hbody
        obtain ⟨made, t₂, hnew, hbody⟩ := hbody
        cases made with
        | none => simp at hbody
        | some c' =>
            simp only [pure_run, Res.ok.injEq, Sum.inr.injEq] at hbody
            obtain ⟨rfl, rfl⟩ := hbody
            obtain ⟨t₃, hpath, hwaited⟩ := newBuff_waited hnew
            exact ⟨t₃, (hI.trans (retainBuff_handed hretain)).trans hpath, hwaited⟩

/-- The last thing `read_buff` does is to wait for the buffer of the block. -/
theorem readBuff_waited {found : Option (Fin n)} (h : readBuff dev block env k s = .ok found s') :
    ∃ b t, CachePath env s t ∧ WaitedFor env k dev block b t s' ∧
      (found = some b ∨ found = none) := by
  obtain ⟨b, s₁, hget, h⟩ := bind_eq_ok.mp h
  have htaken := getBuff_taken hget
  simp only [read_bind, ite_run, pure_run] at h
  split at h
  · simp only [Res.ok.injEq] at h
    obtain ⟨rfl, rfl⟩ := h
    obtain ⟨t, hpath, hwaited⟩ := getBuff_waited hget
    exact ⟨b, t, CacheSteps.of_submits hpath, hwaited, .inl rfl⟩
  · simp only [bind_eq_ok, read_bind, ite_run, pure_run] at h
    obtain ⟨⟨⟩, s₂, hread, ⟨⟩, s₃, hwait, h⟩ := h
    have hpath : CachePath env s s₂ :=
      (htaken.steps trivial).tail (.block (llRwBlock_submits htaken.unlocked hread))
    split at h
    · simp only [Res.ok.injEq] at h
      obtain ⟨rfl, rfl⟩ := h
      exact ⟨b, s₂, hpath, .read hwait, .inl rfl⟩
    · simp only [bind_eq_ok] at h
      obtain ⟨⟨⟩, s₄, hput, rfl, rfl⟩ := h
      obtain ⟨⟨⟩, s₅, hwait', hput⟩ := bind_eq_ok.mp hput
      simp only [read_bind, ite_run, panic, halt_run, update_run] at hput
      split at hput
      · simp at hput
      · simp only [Res.ok.injEq, true_and] at hput
        subst hput
        exact ⟨b, s₃, hpath.tail (.block (waitOnBuff_submits .idle hwait).1), .put hwait', .inr rfl⟩

/-! ## Writing back -/

/-- `ll_rw_block` can hand a request for the buffer to the driver. -/
def Sys.Driven (s : Sys n) (dev : ℕ) : Prop := major dev = 3 ∧ s.hdEnabled = true

theorem findSlot_intr (rw : Rw) (ahead : Bool) :
    Keeps Sys.intr env (findSlot rw ahead : P n _) := by
  refine .iterate (fun _ => .bind .read fun s => ?_) _
  cases freeSlot s rw with
  | some r => exact .pure _
  | none => exact .ite _ (fun _ => .pure _) fun _ => .bind poll_intr fun _ => .pure _

theorem addRequest_intr {req : Fin nrRequest} (h : addRequest req env k s = .ok u s') :
    s'.intr = true := by
  obtain ⟨⟨⟩, s₁, -, h⟩ := bind_eq_ok.mp h
  obtain ⟨⟨⟩, s₂, -, h⟩ := bind_eq_ok.mp h
  obtain ⟨⟨⟩, s₃, -, h⟩ := bind_eq_ok.mp h
  rw [read_bind] at h
  cases hcur : s₃.current with
  | none =>
      simp only [hcur, sti, update_bind] at h
      rw [doHdRequest_intr.eq h]
      rfl
  | some head =>
      simp only [hcur, sti, bind_eq_ok, update_bind, update_run, Res.ok.injEq, true_and] at h
      obtain ⟨tmp, t, -, rfl⟩ := h
      rfl

/-- A write that the driver can take enables interrupts, and any other does nothing. -/
theorem llRwBlock_intr (h : llRwBlock .write b env k s = .ok u s') :
    (s.Driven (s.buf b).bDev → s'.intr = true) ∧ (¬ s.Driven (s.buf b).bDev → s' = s) := by
  unfold llRwBlock at h
  rw [read_bind, ite_run] at h
  split at h
  · rename_i hrefuse
    simp only [pure_run, Res.ok.injEq, true_and] at h
    refine ⟨fun hdriven => ?_, fun _ => h.symm⟩
    -- refused: nothing happens at all
    rcases hrefuse with hmajor | hnot
    · rw [hdriven.1] at hmajor
      exact absurd hmajor (by decide)
    · exact absurd hdriven hnot
  · rename_i hrefuse
    have hdriven : s.Driven (s.buf b).bDev := by
      by_contra hnot
      exact hrefuse (.inr hnot)
    refine ⟨fun _ => ?_, fun hnot => absurd hdriven hnot⟩
    rw [if_neg (by simp [Rw.isAhead])] at h
    obtain ⟨⟨⟩, s₁, hlock, h⟩ := bind_eq_ok.mp h
    -- `lock_buff` ends with `sti()`, and nothing after it switches interrupts off for good
    have hlocked : s₁.intr = true := by
      unfold lockBuff cli sti at hlock
      simp only [update_bind, update_run, Res.ok.injEq, true_and] at hlock
      exact hlock ▸ rfl
    obtain ⟨⟨⟩, s₂, hpoll, h⟩ := bind_eq_ok.mp h
    have hpolled : s₂.intr = true := (poll_intr.eq hpoll).trans hlocked
    rw [read_bind, ite_run] at h
    split at h
    · simp only [update_run, Res.ok.injEq, true_and] at h
      exact h ▸ hpolled
    · obtain ⟨slot, s₃, hslot, h⟩ := bind_eq_ok.mp h
      have hfound : s₃.intr = true := ((findSlot_intr _ _).eq hslot).trans hpolled
      cases slot with
      | none =>
          simp only [update_run, Res.ok.injEq, true_and] at h
          exact h ▸ hfound
      | some r =>
          simp only [update_bind, bind_eq_ok] at h
          obtain ⟨⟨⟩, s₄, -, hadd⟩ := h
          exact addRequest_intr hadd

/-- One round of the loop of `sync_dev`. -/
def syncRound (dev : ℕ) (b : Fin n) : P n Unit := do
  poll
  let s ← Prog.read
  if (s.buf b).bDev ≠ dev then
    pure ()
  else do
    waitOnBuff b
    let s ← Prog.read
    if (s.buf b).bDev = dev ∧ (s.buf b).bDirt then
      llRwBlock .write b
    else
      pure ()

/-- The wait of a round that comes to the buffer `b` in state `s` has something to wait for, or
there is something to write after it. -/
def RoundWaits (env : Env n) (k dev : ℕ) (b : Fin n) (s : Sys n) : Prop :=
  ∃ t t', poll env k s = .ok () t ∧ waitOnBuff b env k t = .ok () t' ∧
    ((t.buf b).bLock = true ∨ (t'.buf b).bDirt = true ∧ s.Driven dev)

theorem Submits.driven (h : Submits env (.idle, s) (.idle, s')) (dev : ℕ) :
    s'.Driven dev ↔ s.Driven dev := by
  rw [Sys.Driven, Sys.Driven, show s'.hdEnabled = s.hdEnabled from congrArg Rest.hdEnabled h.rest]

/-- A round for a header of the device leaves interrupts enabled exactly if it waits, and any
other round leaves them as they are. -/
theorem syncRound_intr (h : syncRound dev b env k s = .ok u s') :
    Submits env (.idle, s) (.idle, s') ∧
      ((s.buf b).bDev ≠ dev → s'.intr = s.intr) ∧
      ((s.buf b).bDev = dev → (s'.intr = true ↔ RoundWaits env k dev b s)) := by
  obtain ⟨⟨⟩, t, hpoll, h⟩ := bind_eq_ok.mp h
  have hpath : Submits env (.idle, s) (.idle, t) := poll_submits hpoll
  have hkey : (t.buf b).bDev = (s.buf b).bDev := congrArg BufferLinks.bDev (hpath.links b)
  rw [read_bind, ite_run, hkey] at h
  split at h
  · rename_i hdev
    simp only [pure_run, Res.ok.injEq, true_and] at h
    -- a buffer of another device is passed over
    exact h ▸ ⟨hpath, fun _ => poll_intr.eq hpoll, fun hin => absurd hin hdev⟩
  rename_i hdev
  obtain ⟨⟨⟩, t', hwait, h⟩ := bind_eq_ok.mp h
  obtain ⟨hwaited, hlock⟩ := waitOnBuff_submits .idle hwait
  have hpath' : Submits env (.idle, s) (.idle, t') := hpath.trans hwaited
  have hintr := waitOnBuff_intr hwait
  have hkey' : (t'.buf b).bDev = dev :=
    (congrArg BufferLinks.bDev (hpath'.links b)).trans (not_not.mp hdev)
  have hwaits : RoundWaits env k dev b s ↔
      (t.buf b).bLock = true ∨ (t'.buf b).bDirt = true ∧ s.Driven dev := by
    refine ⟨?_, fun hcond => ⟨t, t', hpoll, hwait, hcond⟩⟩
    rintro ⟨t₁, t₂, hpoll₁, hwait₁, hcond⟩
    obtain rfl : t = t₁ := by simpa [hpoll] using hpoll₁
    obtain rfl : t' = t₂ := by simpa [hwait] using hwait₁
    exact hcond
  rw [read_bind, ite_run] at h
  split at h
  · rename_i hdirt
    obtain ⟨hwritten, hrefused⟩ := llRwBlock_intr h
    rw [hkey', hpath'.driven] at hwritten hrefused
    refine ⟨hpath'.trans (llRwBlock_submits hlock h), fun hout => absurd hout hdev, fun _ => ?_⟩
    rw [hwaits]
    by_cases hdriven : s.Driven dev
    · exact iff_of_true (hwritten hdriven) (.inr ⟨hdirt.2, hdriven⟩)
    · rw [hrefused hdriven, hintr]
      exact ⟨.inl, fun hor => hor.resolve_right fun hand => hdriven hand.2⟩
  · rename_i hclean
    simp only [pure_run, Res.ok.injEq, true_and] at h
    subst h
    refine ⟨hpath', fun hout => absurd hout hdev, fun _ => ?_⟩
    rw [hwaits, hintr]
    exact ⟨.inl, fun hor => hor.resolve_right fun hand => hclean ⟨hkey', hand.1⟩⟩

/-- The last round of `sync_dev` that is for a header of the device waits. -/
inductive LastWaits (env : Env n) (k dev : ℕ) : List (Fin n) → Sys n → Prop
  | here {s : Sys n} {b : Fin n} {l : List (Fin n)} : (s.buf b).bDev = dev →
      (∀ c ∈ l, (s.buf c).bDev ≠ dev) → RoundWaits env k dev b s → LastWaits env k dev (b :: l) s
  | there {s t : Sys n} {b : Fin n} {l : List (Fin n)} : syncRound dev b env k s = .ok () t →
      LastWaits env k dev l t → LastWaits env k dev (b :: l) s

theorem syncRounds_intr (l : List (Fin n))
    (h : Prog.forEach l (syncRound dev) env k s = .ok u s') :
    s'.intr = true ↔
      (∀ b ∈ l, (s.buf b).bDev ≠ dev) ∧ s.intr = true ∨ LastWaits env k dev l s := by
  induction l generalizing s with
  | nil =>
      simp only [forEach, pure_run, Res.ok.injEq, true_and] at h
      subst h
      refine ⟨fun hon => .inl ⟨fun b hb => absurd hb List.not_mem_nil, hon⟩, ?_⟩
      rintro (⟨-, hon⟩ | hlast)
      · exact hon
      · cases hlast
  | cons b l ih =>
      obtain ⟨⟨⟩, t, hround, hrest⟩ := bind_eq_ok.mp h
      obtain ⟨hpath, hother, hwaits⟩ := syncRound_intr hround
      have hkey : ∀ c, (t.buf c).bDev = (s.buf c).bDev :=
        fun c => congrArg BufferLinks.bDev (hpath.links c)
      rw [ih hrest]
      simp only [hkey]
      constructor
      · rintro (⟨hnone, hon⟩ | hlast)
        · by_cases hdev : (s.buf b).bDev = dev
          · exact .inr (.here hdev hnone ((hwaits hdev).mp hon))
          · exact .inl ⟨List.forall_mem_cons.mpr ⟨hdev, hnone⟩, (hother hdev).symm.trans hon⟩
        · exact .inr (.there hround hlast)
      · rintro (⟨hnone, hon⟩ | hlast)
        · obtain ⟨hdev, hnone⟩ := List.forall_mem_cons.mp hnone
          exact .inl ⟨hnone, (hother hdev).trans hon⟩
        · cases hlast with
          | here hdev hnone hround' => exact .inl ⟨hnone, (hwaits hdev).mpr hround'⟩
          | there hround' hlast =>
              rw [hround] at hround'
              exact .inr ((Res.ok.inj hround').2 ▸ hlast)

/-- What `sync_dev` leaves is decided by the last header of the device. -/
theorem syncDev_intr (hon : s.intr = true) (h : syncDev dev env k s = .ok u s') :
    s'.intr = true ↔
      (∀ b, (s.buf b).bDev ≠ dev) ∨ LastWaits env k dev (List.finRange n) s := by
  have hloop : Prog.forEach (List.finRange n) (syncRound dev) env k s = .ok u s' := h
  rw [syncRounds_intr _ hloop]
  simp [hon]

/-! ## Super blocks -/

/-- `find_super` finds nothing for the device. -/
def Sys.Unmounted (s : Sys n) (dev : ℕ) : Prop := dev = 0 ∨ ∀ sb, (s.superBlock sb).sDev ≠ dev

/-- `sb` is the first entry of the device. -/
structure FirstSuper (s : Sys n) (dev : ℕ) (sb : Fin nrSuper) : Prop where
  sDev : (s.superBlock sb).sDev = dev
  first : ∀ p < sb, (s.superBlock p).sDev ≠ dev

/-- What `find_super` finds it waits for; if there is nothing to find it does nothing. -/
inductive SuperFound (env : Env n) (s : Sys n) (dev : ℕ) : Option (Fin nrSuper) → Sys n → Prop
  | missing : s.Unmounted dev → SuperFound env s dev none s
  | found {s' : Sys n} {sb : Fin nrSuper} : FirstSuper s dev sb → ¬ s.Unmounted dev →
      CachePath env s s' → s'.intr = false → SuperFound env s dev (some sb) s'

theorem findSuper_super {found : Option (Fin nrSuper)} (h : findSuper dev env k s = .ok found s') :
    SuperFound env s dev found s' := by
  unfold findSuper at h
  rw [ite_run] at h
  split at h
  · rename_i hzero
    simp only [pure_run, Res.ok.injEq] at h
    obtain ⟨rfl, rfl⟩ := h
    exact .missing (.inl hzero)
  rename_i hzero
  -- The wait does not change the device, so the search never starts again.
  refine iterate_ensures
    (I := fun j t => t = s ∧ ∀ p : Fin nrSuper, p.val < j → (s.superBlock p).sDev ≠ dev)
    (Q := SuperFound env s dev) ?_ ?_ ⟨rfl, fun p hp => absurd hp (by simp)⟩ h
  · rintro j t j' t' ⟨rfl, hbefore⟩ hbody
    rw [read_bind] at hbody
    split at hbody
    · rename_i hj
      rw [ite_run] at hbody
      split at hbody
      · rename_i hdev
        obtain ⟨⟨⟩, t₁, hwait, hbody⟩ := bind_eq_ok.mp hbody
        have hsame := (CachePath.tables (CacheSteps.of_submits (waitOnSuper_submits hwait))).2
        simp [read_bind, hsame, hdev] at hbody
      · rename_i hdev
        simp only [pure_run, Res.ok.injEq, Sum.inl.injEq] at hbody
        obtain ⟨rfl, rfl⟩ := hbody
        refine ⟨rfl, fun p hp => ?_⟩
        rcases Nat.lt_succ_iff_lt_or_eq.mp hp with hp | hp
        · exact hbefore p hp
        · obtain rfl : p = ⟨j, hj⟩ := Fin.ext hp
          exact hdev
    · simp at hbody
  · rintro j t found t' ⟨rfl, hbefore⟩ hbody
    rw [read_bind] at hbody
    split at hbody
    · rename_i hj
      rw [ite_run] at hbody
      split at hbody
      · -- the super block has the device, and the wait for it takes the interrupts away
        rename_i hdev
        obtain ⟨⟨⟩, t₁, hwait, hbody⟩ := bind_eq_ok.mp hbody
        have hpath : CachePath env t t₁ := CacheSteps.of_submits (waitOnSuper_submits hwait)
        simp only [read_bind, ite_run, hpath.tables.2, hdev, if_true, pure_run, Res.ok.injEq,
          Sum.inr.injEq] at hbody
        obtain ⟨rfl, rfl⟩ := hbody
        refine .found ⟨hdev, fun p hp => hbefore p hp⟩ ?_ hpath (waitOnSuper_intr hwait)
        exact fun hnone => hnone.elim hzero fun hall => hall _ hdev
      · simp at hbody
    · rename_i hj
      simp only [pure_run, Res.ok.injEq, Sum.inr.injEq] at hbody
      obtain ⟨rfl, rfl⟩ := hbody
      exact .missing (.inr fun p => hbefore p (lt_of_lt_of_le p.isLt (not_lt.mp hj)))

/-- The first entry of the device is found, if nobody has it locked. -/
theorem FirstSuper.findSuper_evals (h : FirstSuper s dev sb) (hdev : dev ≠ 0)
    (hlock : (s.superBlock sb).sLock = false) :
    Evals (findSuper dev) env s (some sb) (s.setIntr false) := by
  have hfrom : ∀ d (i : ℕ), i + d = sb.val → LoopEnds (fun i => do
      let s ← Prog.read
      if h : i < nrSuper then
        if (s.superBlock ⟨i, h⟩).sDev = dev then do
          waitOnSuper ⟨i, h⟩
          let s ← Prog.read
          if (s.superBlock ⟨i, h⟩).sDev = dev then
            pure (.inr (some ⟨i, h⟩))
          else
            pure (.inl 0)
        else
          pure (.inl (i + 1))
      else
        pure (.inr none)) env i s (.ok (some sb) (s.setIntr false)) := by
    intro d
    induction d with
    | zero =>
        rintro i rfl
        refine .done (Evals.bind (.of_eq fun _ => rfl) ?_)
        rw [dif_pos sb.isLt, if_pos h.sDev]
        refine (waitOnSuper_evals hlock).bind (.of_eq fun k => ?_)
        simp [h.sDev]
    | succ d ih =>
        intro i hi
        have hslot : i < nrSuper := by omega
        have hother : (s.superBlock ⟨i, hslot⟩).sDev ≠ dev :=
          h.first ⟨i, hslot⟩ (Fin.lt_def.mpr (by show i < sb.val; omega))
        exact .step (.of_eq fun k => by simp [hslot, hother]) (ih (i + 1) (by omega))
  obtain ⟨N, hN⟩ := (hfrom sb.val 0 (Nat.zero_add _)).evals
  refine ⟨N, fun k hk => ?_⟩
  unfold findSuper
  rw [if_neg hdev]
  exact hN k hk

theorem FirstSuper.unique {p : Fin nrSuper} (h : FirstSuper s dev sb) (hp : FirstSuper s dev p) :
    sb = p := by
  rcases lt_trichotomy sb p with hlt | heq | hlt
  · exact absurd h.sDev (hp.first sb hlt)
  · exact heq
  · exact absurd hp.sDev (h.first p hlt)

theorem unlockSuper_intr (h : unlockSuper sb env k s = .ok u s') : s'.intr = true := by
  rw [unlockSuper_eq h]
  rfl

theorem abandonSuper_intr {found : Option (Fin nrSuper)}
    (h : abandonSuper sb env k s = .ok found s') : s'.intr = true := by
  simp only [abandonSuper, update_bind, bind_eq_ok, pure_run, Res.ok.injEq] at h
  obtain ⟨⟨⟩, t, hunlock, -, rfl⟩ := h
  exact unlockSuper_intr hunlock

theorem loadMaps_intr {found : Option (Fin nrSuper)} (h : loadMaps sb dev env k s = .ok found s') :
    s'.intr = true := by
  simp only [loadMaps, update_bind, bind_eq_ok, read_bind, ite_run] at h
  obtain ⟨blocks, s₁, -, blocks', s₂, -, h⟩ := h
  split at h
  · simp only [bind_eq_ok] at h
    obtain ⟨⟨⟩, s₃, -, ⟨⟩, s₄, -, h⟩ := h
    exact abandonSuper_intr h
  · simp only [bind_eq_ok, pure_run, Res.ok.injEq] at h
    obtain ⟨⟨⟩, s₃, -, ⟨⟩, s₄, -, ⟨⟩, s₅, hunlock, -, rfl⟩ := h
    exact unlockSuper_intr hunlock

/-- Every way out of `read_super` from `lock_super` on unlocks the entry. -/
theorem fillSuper_intr {found : Option (Fin nrSuper)}
    (h : fillSuper sb dev env k s = .ok found s') :
    s'.intr = true := by
  obtain ⟨⟨⟩, s₁, -, h⟩ := bind_eq_ok.mp h
  obtain ⟨read, s₂, -, h⟩ := bind_eq_ok.mp h
  cases read with
  | none => exact abandonSuper_intr h
  | some bh =>
      simp only [parseSuper, update_bind, bind_eq_ok, read_bind, ite_run] at h
      obtain ⟨⟨⟩, s₃, -, h⟩ := h
      split at h
      · exact abandonSuper_intr h
      · exact loadMaps_intr h

theorem readSuper_intr {found : Option (Fin nrSuper)} (hon : s.intr = true)
    (h : readSuper dev env k s = .ok found s') : s'.intr = true ↔ s.Unmounted dev := by
  unfold readSuper at h
  rw [ite_run] at h
  split at h
  · rename_i hzero
    simp only [pure_run, Res.ok.injEq] at h
    exact iff_of_true (h.2 ▸ hon) (.inl hzero)
  obtain ⟨known, t, hfind, h⟩ := bind_eq_ok.mp h
  cases findSuper_super hfind with
  | found _ hmounted _ hoff =>
      simp only [pure_run, Res.ok.injEq] at h
      rw [← h.2, hoff]
      exact iff_of_false (by decide) hmounted
  | missing hnone =>
      refine iff_of_true ?_ hnone
      simp only [read_bind] at h
      generalize List.find? _ _ = free at h
      cases free with
      | none =>
          simp only [pure_run, Res.ok.injEq] at h
          exact h.2 ▸ hon
      | some sb =>
          simp only [update_bind] at h
          exact fillSuper_intr h

/-- `put_super` gives the entry back. -/
def Sys.Released (s : Sys n) (dev : ℕ) : Prop :=
  ∃ sb, FirstSuper s dev sb ∧ (s.superBlock sb).sImount = none

theorem putSuper_intr (hon : s.intr = true) (h : putSuper dev env k s = .ok u s') :
    s'.intr = true ↔ dev = rootDev ∨ s.Unmounted dev ∨ s.Released dev := by
  unfold putSuper at h
  rw [ite_run] at h
  split at h
  · rename_i hroot
    simp only [pure_run, Res.ok.injEq, true_and] at h
    exact iff_of_true (h ▸ hon) (.inl hroot)
  rename_i hroot
  obtain ⟨known, t, hfind, h⟩ := bind_eq_ok.mp h
  cases findSuper_super hfind with
  | missing hnone =>
      simp only [pure_run, Res.ok.injEq, true_and] at h
      exact iff_of_true (h ▸ hon) (.inr (.inl hnone))
  | found hfirst hmounted hpath hoff =>
      simp only [read_bind, ite_run, pure_run, hpath.tables.2] at h
      split at h
      · rename_i hbusy
        simp only [Res.ok.injEq, true_and] at h
        rw [← h, hoff]
        refine iff_of_false (by decide) ?_
        rintro (hdev | hnone | ⟨sb, hsb, hfree⟩)
        · exact hroot hdev
        · exact hmounted hnone
        · obtain rfl := hfirst.unique hsb
          simp [hfree] at hbusy
      · rename_i hbusy
        simp only [releaseSuper, bind_eq_ok, update_bind] at h
        obtain ⟨⟨⟩, s₁, -, ⟨⟩, s₂, -, ⟨⟩, s₃, -, hunlock⟩ := h
        refine iff_of_true (unlockSuper_intr hunlock) (.inr (.inr ⟨_, hfirst, ?_⟩))
        simpa using hbusy

/-! ## Inodes -/

/-- Interrupts do not come back on. -/
def StaysOff (s s' : Sys n) : Prop := s.intr = false → s'.intr = false

theorem staysOff_path (h : ReflTransGen StaysOff s s') (hoff : s.intr = false) :
    s'.intr = false := by
  induction h with
  | refl => exact hoff
  | tail _ hstep ih => exact hstep ih

theorem unmarkBit_off {j : ℕ} : Traces StaysOff env (unmarkBit b j) :=
  .bind .read fun _ => .update fun _ => .single id

/-- To free a bit is to find the super block and to wait for it. -/
theorem freeZoneBitmap_intr (h : freeZoneBitmap dev block env k s = .ok u s') :
    s'.intr = false := by
  obtain ⟨found, t, hfind, h⟩ := bind_eq_ok.mp h
  cases findSuper_super hfind with
  | missing _ => simp [panic] at h
  | found _ _ _ hoff =>
      refine staysOff_path
        (Traces.path (.bind .read fun s => .ite _ (fun _ => .halt _) fun _ => ?_) h)
        hoff
      dsimp only
      split
      · split
        · exact .halt _
        · exact unmarkBit_off
      · exact .halt _

theorem freeInodeBitmap_intr {num : ℕ} (h : freeInodeBitmap dev num env k s = .ok u s') :
    s'.intr = false := by
  obtain ⟨found, t, hfind, h⟩ := bind_eq_ok.mp h
  cases findSuper_super hfind with
  | missing _ => simp [panic] at h
  | found _ _ _ hoff =>
      refine staysOff_path
        (Traces.path (.bind .read fun s => .ite _ (fun _ => .halt _) fun _ => ?_) h)
        hoff
      split
      · split
        · exact .halt _
        · exact unmarkBit_off
      · exact .halt _

theorem deleteBlock_intr (h : deleteBlock dev block env k s = .ok u s') : s'.intr = false := by
  obtain ⟨⟨⟩, t, -, h⟩ := bind_eq_ok.mp h
  exact freeZoneBitmap_intr h

theorem deleteBlock_off : Traces StaysOff env (deleteBlock dev block : P n Unit) :=
  fun _ _ _ _ h => .single fun _ => deleteBlock_intr h

/-- Whatever becomes of the zones behind an index block, the block itself is deleted last. -/
theorem deleteIndirecteBlock_off :
    Traces StaysOff env (deleteIndirecteBlock dev block : P n Unit) := by
  refine .ite _ (fun _ => .pure ()) fun _ => fun _ s _ s' h => .single fun _ => ?_
  obtain ⟨found, t, -, h⟩ := bind_eq_ok.mp h
  cases found with
  | none => exact deleteBlock_intr h
  | some bh =>
      simp only [bind_eq_ok] at h
      obtain ⟨⟨⟩, t₁, -, ⟨⟩, t₂, -, h⟩ := h
      exact deleteBlock_intr h

theorem deleteDoubleIndirecteBlock_off :
    Traces StaysOff env (deleteDoubleIndirecteBlock dev block : P n Unit) := by
  refine .ite _ (fun _ => .pure ()) fun _ => fun _ s _ s' h => .single fun _ => ?_
  obtain ⟨found, t, -, h⟩ := bind_eq_ok.mp h
  cases found with
  | none => exact deleteBlock_intr h
  | some bh =>
      simp only [bind_eq_ok] at h
      obtain ⟨⟨⟩, t₁, -, ⟨⟩, t₂, -, h⟩ := h
      exact deleteBlock_intr h

theorem truncate_off : Traces StaysOff env (truncate i : P n Unit) := by
  refine .bind .read fun s => .ite _ (fun _ => .pure ()) fun _ => .bind (.forEach (fun z => ?_) _)
    fun _ => .bind .read fun _ => .bind deleteIndirecteBlock_off fun _ => .bind .read fun _ =>
    .bind deleteDoubleIndirecteBlock_off fun _ => .update fun _ => .single id
  exact .bind .read fun _ => .ite _ (fun _ => .pure ()) fun _ => .bind deleteBlock_off fun _ =>
    .update fun _ => .single id

theorem deleteInode_off : Traces StaysOff env (deleteInode (some i) : P n Unit) := by
  refine .bind .read fun s => .ite _ (fun _ => .update fun _ => .single id) fun _ =>
    .ite _ (fun _ => .halt _) fun _ => .ite _ (fun _ => .halt _) fun _ =>
    .bind (fun _ _ _ _ h => ?_) fun _ => .update fun _ => .single id
  exact .single fun _ => freeInodeBitmap_intr h

/-- `put_inode` waits for the inode, and nothing enables interrupts after that. -/
theorem putInode_intr (h : putInode (some i) env k s = .ok u s') : s'.intr = false := by
  simp only [putInode, panic, bind_eq_ok, read_bind, ite_run, halt_run] at h
  obtain ⟨⟨⟩, s₁, hwait, h⟩ := h
  split at h
  · simp at h
  refine iterate_ensures (I := fun _ t => t.intr = false) (Q := fun _ t => t.intr = false) ?_ ?_
    (waitOnInode_intr hwait) h
  · intro _ t _ t' hoff hbody
    rw [read_bind, ite_run] at hbody
    split at hbody
    · simp only [bind_eq_ok, pure_run, Res.ok.injEq] at hbody
      simp at hbody
    · rw [ite_run] at hbody
      split at hbody
      · simp only [bind_eq_ok, pure_run, Res.ok.injEq] at hbody
        obtain ⟨⟨⟩, t₁, -, ⟨⟩, t₂, hwait₂, -, rfl⟩ := hbody
        exact waitOnInode_intr hwait₂
      · simp at hbody
  · intro _ t _ t' hoff hbody
    rw [read_bind, ite_run] at hbody
    split at hbody
    · simp only [bind_eq_ok, pure_run, Res.ok.injEq] at hbody
      obtain ⟨⟨⟩, t₁, htruncate, ⟨⟩, t₂, hdelete, -, rfl⟩ := hbody
      exact staysOff_path (deleteInode_off.path hdelete)
        (staysOff_path (truncate_off.path htruncate) hoff)
    · rw [ite_run] at hbody
      split at hbody
      · simp only [bind_eq_ok, pure_run, Res.ok.injEq] at hbody
        simp at hbody
      · simp only [update_bind, pure_run, Res.ok.injEq, true_and] at hbody
        exact hbody ▸ hoff

theorem InodeFilled.intr (h : InodeFilled env s i s') : s'.intr = false := by
  cases h with
  | mk _ _ _ _ hoff => exact hoff

/-- `read_inode` finds the inode after a wait for it, or makes an entry without links that is
then read. -/
theorem readInode_intr {dev nr : ℤ} (h : readInode dev nr env k s = .ok i s') :
    s'.intr = false := by
  obtain ⟨t, hget, ⟨-, hfilled⟩ | ⟨hlinks, rfl⟩⟩ := readInode_got h
  · exact hfilled.intr
  · cases getInode_taken hget with
    | found _ _ hoff _ => exact hoff
    | made _ _ _ => exact absurd (by simp [Sys.claimInode, MInode.zero]) hlinks

/-! ## Writing all inodes back -/

/-- The inode is dirty, but it has no device to write it to. -/
def MInode.Stray (x : MInode) : Prop := x.iDirt = true ∧ x.iPipe = false ∧ x.iDev = 0

/-- One round of the loop of `sync_all_inodes_to_buff`. -/
def syncInodeRound (i : Fin nrInode) : P n Unit := do
  waitOnInode i
  let s ← Prog.read
  if (s.inode i).iDirt ∧ !(s.inode i).iPipe then
    syncInodeToBuff i
  else
    pure ()

theorem InodeSynced.other (h : InodeSynced env s i s') {j : Fin nrInode} (hj : j ≠ i) :
    s'.inode j = s.inode j := by
  cases h with
  | skipped _ _ => simp [EgGS.unlockInode, hj]
  | @copied t t' bh _ _ hpath _ hpath' _ =>
      have hsame : t'.inode j = (t.copyInode i bh).inode j := by rw [hpath'.tables.1]
      simp [EgGS.unlockInode, hj, hsame, Sys.copyInode, EgGS.store, hpath.tables.1]

theorem syncInodeRound_intr (h : syncInodeRound i env k s = .ok u s') :
    (s'.intr = true ↔ (s.inode i).Stray) ∧ ∀ j ≠ i, s'.inode j = s.inode j := by
  obtain ⟨⟨⟩, t, hwait, h⟩ := bind_eq_ok.mp h
  have hsame : t.inode = s.inode :=
    (CachePath.tables (CacheSteps.of_submits (waitOnInode_submits hwait))).1
  rw [read_bind, ite_run] at h
  split at h
  · rename_i hdirty
    have hsynced := syncInodeToBuff_synced h
    have hother : ∀ j ≠ i, s'.inode j = s.inode j :=
      fun j hj => (hsynced.other hj).trans (by rw [hsame])
    refine ⟨?_, hother⟩
    rw [hsame] at hdirty
    have hdirt : (s.inode i).iDirt = true := hdirty.1
    have hpipe : (s.inode i).iPipe = false := by simpa using hdirty.2
    cases hsynced with
    | skipped _ hskip =>
        rw [hsame, hdirt] at hskip
        exact iff_of_true rfl ⟨hdirt, hpipe, hskip.resolve_left (by decide)⟩
    | @copied t' t'' bh _ hdev _ _ _ hoff =>
        rw [hsame] at hdev
        show t''.intr = true ↔ _
        rw [hoff]
        exact iff_of_false (by decide) fun hstray => hdev hstray.2.2
  · rename_i hclean
    simp only [pure_run, Res.ok.injEq, true_and] at h
    subst h
    refine ⟨?_, fun j _ => by rw [hsame]⟩
    rw [waitOnInode_intr hwait]
    rw [hsame] at hclean
    exact iff_of_false (by decide) fun hstray => hclean ⟨hstray.1, by simp [hstray.2.1]⟩

/-- What the loop leaves is decided by the last entry of the table. -/
theorem syncInodes_intr (l : List (Fin nrInode)) (hnodup : (l ++ [i]).Nodup)
    (h : Prog.forEach (l ++ [i]) syncInodeRound env k s = .ok u s') :
    s'.intr = true ↔ (s.inode i).Stray := by
  induction l generalizing s with
  | nil =>
      obtain ⟨⟨⟩, t, hround, h⟩ := bind_eq_ok.mp h
      simp only [forEach, pure_run, Res.ok.injEq, true_and] at h
      exact h ▸ (syncInodeRound_intr hround).1
  | cons j l ih =>
      obtain ⟨⟨⟩, t, hround, h⟩ := bind_eq_ok.mp h
      have hne : i ≠ j := by
        rintro rfl
        simp at hnodup
      rw [ih (List.nodup_cons.mp hnodup).2 h, (syncInodeRound_intr hround).2 i hne]

theorem syncAllInodesToBuff_intr (h : syncAllInodesToBuff env k s = .ok u s') :
    s'.intr = true ↔ (s.inode 31).Stray := by
  have hlast : List.finRange nrInode = (List.finRange nrInode).dropLast ++ [31] := by decide
  have hloop : Prog.forEach (List.finRange nrInode) syncInodeRound env k s = .ok u s' := h
  rw [hlast] at hloop
  exact syncInodes_intr _ (hlast ▸ List.nodup_finRange _) hloop

/-! ## The calls -/

/-- The calls that wait. -/
inductive WaitCall (n : ℕ) where
  | getBuff (dev block : ℕ)
  | readBuff (dev block : ℕ)
  | putBuff (buf : Option (Fin n))
  | syncDev (dev : ℕ)
  | readInode (dev nr : ℤ)
  | putInode (i : Option (Fin nrInode))
  | syncInodes
  | findSuper (dev : ℕ)
  | readSuper (dev : ℕ)
  | putSuper (dev : ℕ)

namespace WaitCall

/-- The call, without what it returns. -/
def exec : WaitCall n → P n Unit
  | getBuff dev block => do let _ ← EgGS.getBuff dev block
  | readBuff dev block => do let _ ← EgGS.readBuff dev block
  | putBuff buf => EgGS.putBuff buf
  | syncDev dev => EgGS.syncDev dev
  | readInode dev nr => do let _ ← EgGS.readInode dev nr
  | putInode i => EgGS.putInode i
  | syncInodes => syncAllInodesToBuff
  | findSuper dev => do let _ ← EgGS.findSuper dev
  | readSuper dev => do let _ ← EgGS.readSuper dev
  | putSuper dev => EgGS.putSuper dev

/-- The last wait of the call, if it has one, has something to wait for, or the call enables
interrupts after it.  `s` is the state before the call. -/
def GivesBack (env : Env n) (k : ℕ) (s s' : Sys n) : WaitCall n → Prop
  | getBuff dev block => ∃ b t, Submits env (.idle, s) (.idle, t) ∧
      WaitedFor env k dev block b t s' ∧ (t.buf b).bLock = true
  | readBuff dev block => ∃ b t, CachePath env s t ∧
      WaitedFor env k dev block b t s' ∧ (t.buf b).bLock = true
  | putBuff buf => ∀ b ∈ buf, (s.buf b).bLock = true
  | syncDev dev => (∀ b, (s.buf b).bDev ≠ dev) ∨ LastWaits env k dev (List.finRange n) s
  | readInode _ _ => False
  | putInode i => i = none
  | syncInodes => (s.inode 31).Stray
  | findSuper dev => s.Unmounted dev
  | readSuper dev => s.Unmounted dev
  | putSuper dev => dev = rootDev ∨ s.Unmounted dev ∨ s.Released dev

end WaitCall

/-- A call that is made with interrupts enabled returns with interrupts enabled exactly if its
last wait has something to wait for or it enables them afterwards. -/
theorem interrupts_given_back (c : WaitCall n) (hon : s.intr = true)
    (h : c.exec env k s = .ok u s') : s'.intr = true ↔ c.GivesBack env k s s' := by
  -- each call by its last wait, which leaves interrupts off unless its loop body ran
  cases c with
  | getBuff dev block =>
      simp only [WaitCall.exec, bind_eq_ok, pure_run, Res.ok.injEq] at h
      obtain ⟨b, t, hget, -, rfl⟩ := h
      obtain ⟨t₁, hpath, hwaited⟩ := getBuff_waited hget
      constructor
      · exact fun hintr => ⟨b, t₁, hpath, hwaited, hwaited.intr.mp hintr⟩
      · rintro ⟨c, t₂, -, hwaited₂, hlock⟩
        exact hwaited₂.intr.mpr hlock
  | readBuff dev block =>
      simp only [WaitCall.exec, bind_eq_ok, pure_run, Res.ok.injEq] at h
      obtain ⟨found, t, hread, -, rfl⟩ := h
      obtain ⟨b, t₁, hpath, hwaited, -⟩ := readBuff_waited hread
      constructor
      · exact fun hintr => ⟨b, t₁, hpath, hwaited, hwaited.intr.mp hintr⟩
      · rintro ⟨c, t₂, -, hwaited₂, hlock⟩
        exact hwaited₂.intr.mpr hlock
  | putBuff buf =>
      cases buf with
      | none =>
          obtain rfl : s = s' := (Res.ok.inj h).2
          exact iff_of_true hon fun b hb => absurd hb (by simp)
      | some b => simpa [WaitCall.GivesBack] using putBuff_intr h
  | syncDev dev => exact syncDev_intr hon h
  | readInode dev nr =>
      simp only [WaitCall.exec, bind_eq_ok, pure_run, Res.ok.injEq] at h
      obtain ⟨i, t, hread, -, rfl⟩ := h
      -- the last wait is for the entry, whose lock nobody holds
      rw [readInode_intr hread]
      exact iff_of_false (by decide) id
  | putInode i =>
      cases i with
      | none =>
          obtain rfl : s = s' := (Res.ok.inj h).2
          exact iff_of_true hon rfl
      | some i =>
          rw [putInode_intr h]
          exact iff_of_false (by decide) (by simp [WaitCall.GivesBack])
  | syncInodes => exact syncAllInodesToBuff_intr h
  | findSuper dev =>
      simp only [WaitCall.exec, bind_eq_ok, pure_run, Res.ok.injEq] at h
      obtain ⟨found, t, hfind, -, rfl⟩ := h
      cases findSuper_super hfind with
      | missing hnone => exact iff_of_true hon hnone
      | found _ hmounted _ hoff =>
          rw [hoff]
          exact iff_of_false (by decide) hmounted
  | readSuper dev =>
      simp only [WaitCall.exec, bind_eq_ok, pure_run, Res.ok.injEq] at h
      obtain ⟨found, t, hread, -, rfl⟩ := h
      exact readSuper_intr hon hread
  | putSuper dev => exact putSuper_intr hon h

/-- A held buffer that nobody locks is given back. -/
def heldBuffer : Sys 1 := oneBuffer.countUp 0

/-- `put_buff` of the held buffer. -/
theorem interrupts_given_back_put :
    (putBuff (some 0) (Env.diligent 0x50) 20 heldBuffer).state.intr = true ↔
      (WaitCall.putBuff (some 0)).GivesBack (Env.diligent 0x50) 20 heldBuffer
        (putBuff (some 0) (Env.diligent 0x50) 20 heldBuffer).state :=
  interrupts_given_back (.putBuff (some 0)) rfl (u := ()) rfl

/-- Nobody has the buffer locked, and interrupts stay disabled. -/
theorem interrupts_kept :
    ¬ ∀ (c : WaitCall 1) (s' : Sys 1), heldBuffer.intr = true →
      c.exec (Env.diligent 0x50) 20 heldBuffer = .ok () s' → s'.intr = true := by
  intro h
  exact absurd (h (.putBuff (some 0)) _ rfl rfl) (by decide)

end EgGS
