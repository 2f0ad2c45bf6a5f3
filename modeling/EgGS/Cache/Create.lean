import EgGS.Cache.Steps

/-!
# What `create_block` can do

`add_zone_bitmap` finds the super block of the device, scans its maps for a zero bit
and sets it.  `create_block` then takes the buffer of the block, fills it with zeros
and gives it back.  `Marked` lists the two outcomes of the first half: a bit was set, or
there was none to set and the block is 0.
-/

namespace EgGS

open Lib Prog Relation

variable {n : ℕ} {env : Env n} {k : ℕ} {s s' t : Sys n} {dev block : ℕ}
variable {asked : ℕ → ℕ → Prop} {may : Sys n → Change n → Prop}

/-! ## The super block of a device -/

theorem waitOnSuper_submits {sb : Fin nrSuper} {u : Unit}
    (h : waitOnSuper sb env k s = .ok u s') : Submits env (.idle, s) (.idle, s') := by
  unfold waitOnSuper cli sti at h
  simp only [update_bind] at h
  refine iterate_ensures (I := fun _ t => Submits env (.idle, s) (.idle, t))
    (Q := fun _ t => Submits env (.idle, s) (.idle, t)) ?_ ?_ (setIntr_submits false) h
  · intro _ t _ t' hI hbody
    simp only [read_bind, ite_run, update_bind, pure_run] at hbody
    split at hbody
    · obtain ⟨⟨⟩, t₁, hpoll, hret⟩ := bind_eq_ok.mp hbody
      simp only [pure_run, Res.ok.injEq, true_and] at hret
      exact hret ▸ (hI.trans (setIntr_submits true)).trans (poll_submits hpoll)
    · simp at hbody
  · intro _ t _ t' hI hbody
    simp only [read_bind, ite_run, update_bind, pure_run] at hbody
    split at hbody
    · simp only [bind_eq_ok, pure_run, Res.ok.injEq] at hbody
      simp at hbody
    · simp only [Res.ok.injEq] at hbody
      exact hbody.2 ▸ hI

/-- `find_super` finds an entry of the device, and none for device 0. -/
theorem findSuper_found {found : Option (Fin nrSuper)}
    (h : findSuper dev env k s = .ok found s') : Submits env (.idle, s) (.idle, s') ∧
      ∀ sb, found = some sb → (s'.superBlock sb).sDev = dev ∧ dev ≠ 0 := by
  unfold findSuper at h
  rw [ite_run] at h
  split at h
  · simp only [pure_run, Res.ok.injEq] at h
    obtain ⟨rfl, rfl⟩ := h
    exact ⟨.refl, fun sb hsb => absurd hsb (by simp)⟩
  rename_i hdev
  -- the search only waits, and what it returns was compared behind the wait
  refine iterate_ensures (I := fun _ t => Submits env (.idle, s) (.idle, t))
    (Q := fun found t => Submits env (.idle, s) (.idle, t) ∧
      ∀ sb, found = some sb → (t.superBlock sb).sDev = dev ∧ dev ≠ 0) ?_ ?_ .refl h
  · intro i t i' t' hI hbody
    rw [read_bind] at hbody
    split at hbody
    · rw [ite_run] at hbody
      split at hbody
      · obtain ⟨⟨⟩, t₁, hwait, hbody⟩ := bind_eq_ok.mp hbody
        simp only [read_bind, ite_run, pure_run] at hbody
        split at hbody
        · simp at hbody
        · simp only [Res.ok.injEq] at hbody
          exact hbody.2 ▸ hI.trans (waitOnSuper_submits hwait)
      · simp only [pure_run, Res.ok.injEq] at hbody
        exact hbody.2 ▸ hI
    · simp at hbody
  · intro i t found t' hI hbody
    rw [read_bind] at hbody
    split at hbody
    · rw [ite_run] at hbody
      split at hbody
      · obtain ⟨⟨⟩, t₁, hwait, hbody⟩ := bind_eq_ok.mp hbody
        simp only [read_bind, ite_run, pure_run] at hbody
        split at hbody
        · rename_i hsame
          simp only [Res.ok.injEq, Sum.inr.injEq] at hbody
          obtain ⟨rfl, rfl⟩ := hbody
          refine ⟨hI.trans (waitOnSuper_submits hwait), fun sb hsb => ?_⟩
          obtain rfl := Option.some.inj hsb
          exact ⟨hsame, hdev⟩
        · simp at hbody
      · simp at hbody
    · simp only [pure_run, Res.ok.injEq, Sum.inr.injEq] at hbody
      obtain ⟨rfl, rfl⟩ := hbody
      exact ⟨hI, fun sb hsb => absurd hsb (by simp)⟩

/-! ## Setting a bit -/

/-- The scan changes nothing, and the bit it finds is the first zero of a map. -/
theorem scanMaps_found {map : Fin mapSlots → Option (Fin n)} {blocks : ℕ}
    {found : Option (ℕ × Fin n × ℕ)} (h : scanMaps map blocks env k s = .ok found s') :
    s' = s ∧ ∀ i bh j, found = some (i, bh, j) → i < blocks ∧
      (∃ hi : i < mapSlots, map ⟨i, hi⟩ = some bh) ∧ j = findFirstZero (s.buf bh).bData ∧
      j < 8192 := by
  unfold scanMaps at h
  -- reading bits changes nothing, so the only thing to carry is that the state is `s`
  refine iterate_ensures (I := fun _ t => t = s)
    (Q := fun found t => t = s ∧ ∀ i bh j, found = some (i, bh, j) → i < blocks ∧
      (∃ hi : i < mapSlots, map ⟨i, hi⟩ = some bh) ∧ j = findFirstZero (s.buf bh).bData ∧
      j < 8192) ?_ ?_ rfl h
  · rintro i t i' t' rfl hbody
    rw [read_bind, ite_run] at hbody
    split at hbody
    · split at hbody
      · rename_i hi
        cases hmap : map ⟨i, hi⟩ with
        | none =>
            simp only [hmap, pure_run, Res.ok.injEq] at hbody
            exact hbody.2.symm
        | some bh =>
            simp only [hmap, ite_run, pure_run] at hbody
            split at hbody
            · simp at hbody
            · simp only [Res.ok.injEq] at hbody
              exact hbody.2.symm
      · simp at hbody
    · simp at hbody
  · rintro i t found t' rfl hbody
    rw [read_bind, ite_run] at hbody
    split at hbody
    · rename_i hblocks
      split at hbody
      · rename_i hi
        cases hmap : map ⟨i, hi⟩ with
        | none => simp [hmap] at hbody
        | some bh =>
            simp only [hmap, ite_run, pure_run] at hbody
            split at hbody
            · rename_i hzero
              simp only [Res.ok.injEq, Sum.inr.injEq] at hbody
              obtain ⟨rfl, rfl⟩ := hbody
              refine ⟨rfl, fun i' bh' j hsome => ?_⟩
              simp only [Option.some.injEq, Prod.mk.injEq] at hsome
              obtain ⟨rfl, rfl, rfl⟩ := hsome
              exact ⟨hblocks, ⟨hi, hmap⟩, rfl, hzero⟩
            · simp at hbody
      · simp at hbody
    · simp only [pure_run, Res.ok.injEq, Sum.inr.injEq] at hbody
      obtain ⟨rfl, rfl⟩ := hbody
      exact ⟨rfl, fun i' bh' j hsome => absurd hsome (by simp)⟩

theorem markBit_eq_ok {bh : Fin n} {j : ℕ} {message : String} {u : Unit}
    (h : markBit bh j message env k s = .ok u s') :
    (s.buf bh).bData.bit j = false ∧ s' = store bh ((s.buf bh).bData.setBit j) s := by
  unfold markBit panic at h
  simp only [read_bind, ite_run, halt_run, update_run] at h
  split at h
  · simp at h
  · rename_i hbit
    simp only [Res.ok.injEq, true_and] at h
    exact ⟨by simpa using hbit, h.symm⟩

/-- Bit `j` of map `i` of the super block `sb`, in the buffer `bh`, stands for `block`. -/
structure ZoneBit (s : Sys n) (dev : ℕ) (sb : Fin nrSuper) (i : ℕ) (bh : Fin n) (j block : ℕ) :
    Prop where
  mounted : (s.superBlock sb).sDev = dev ∧ dev ≠ 0
  slot : i < (s.superBlock sb).sZmapBlocks
  map : ∃ hi : i < mapSlots, (s.superBlock sb).sZmap ⟨i, hi⟩ = some bh
  first : j = findFirstZero (s.buf bh).bData ∧ j < 8192
  clear : (s.buf bh).bData.bit j = false
  inRange : (j + i * 8192 : ℤ) - 1 + (s.superBlock sb).sFirstdatazone ≤
    (s.superBlock sb).sNzones
  block : block = unsigned ((j + i * 8192 : ℤ) - 1 + (s.superBlock sb).sFirstdatazone)

/-- A zone was taken: a bit was set, or there was none. -/
inductive Marked (s : Sys n) (dev : ℕ) : ℕ → Sys n → Prop
  | full : Marked s dev 0 s
  | bit {sb : Fin nrSuper} {i : ℕ} {bh : Fin n} {j block : ℕ} : ZoneBit s dev sb i bh j block →
      Marked s dev block (store bh ((s.buf bh).bData.setBit j) s)

theorem addZoneBitmap_marked (h : addZoneBitmap dev env k s = .ok block s') :
    ∃ t, Submits env (.idle, s) (.idle, t) ∧ Marked t dev block s' := by
  unfold addZoneBitmap at h
  obtain ⟨found, t, hfind, h⟩ := bind_eq_ok.mp h
  obtain ⟨hpath, hsuper⟩ := findSuper_found hfind
  refine ⟨t, hpath, ?_⟩
  cases found with
  | none => simp [panic] at h
  | some sb =>
      simp only [bind_eq_ok, read_bind] at h
      obtain ⟨found, t₁, hscan, h⟩ := h
      obtain ⟨rfl, hfound⟩ := scanMaps_found hscan
      cases found with
      | none =>
          simp only [pure_run, Res.ok.injEq] at h
          obtain ⟨rfl, rfl⟩ := h
          exact .full
      | some x =>
          obtain ⟨i, bh, j⟩ := x
          obtain ⟨hslot, hmap, hfirst, hj⟩ := hfound i bh j rfl
          simp only [ite_run, pure_run] at h
          split at h
          · simp only [Res.ok.injEq] at h
            obtain ⟨rfl, rfl⟩ := h
            exact .full
          · rename_i hrange
            obtain ⟨⟨⟩, t₂, hmark, h⟩ := bind_eq_ok.mp h
            obtain ⟨hclear, rfl⟩ := markBit_eq_ok hmark
            simp only [pure_run, Res.ok.injEq] at h
            obtain ⟨rfl, rfl⟩ := h
            exact .bit ⟨hsuper sb rfl, hslot, hmap, ⟨hfirst, hj⟩, hclear, not_lt.mp hrange, rfl⟩

theorem Marked.steps (h : Marked s dev block s')
    (hmay : ∀ sb i bh, (s.superBlock sb).sZmap i = some bh → may s (.store bh)) :
    CacheSteps env asked may s s' := by
  cases h with
  | full => exact .refl
  | bit hbit =>
      obtain ⟨hi, hmap⟩ := hbit.map
      exact .single (.store _ (hmay _ _ _ hmap))

/-! ## The new block -/

/-- `create_block` takes a zone and fills the buffer of its block, of which it has the
only reference, with zeros. -/
theorem createBlock_created (h : createBlock dev env k s = .ok block s') :
    ∃ t t₁ b t₂ t₃, Submits env (.idle, s) (.idle, t) ∧ Marked t dev block t₁ ∧
      Taken env t₁ dev block b t₂ ∧ (t₂.buf b).bCount = 1 ∧
      Submits env (.idle, t₂.zero b) (.idle, t₃) ∧ (t₃.buf b).bCount ≠ 0 ∧
      s' = t₃.countDown b := by
  unfold createBlock at h
  obtain ⟨block', t₁, hadd, h⟩ := bind_eq_ok.mp h
  obtain ⟨t, hpath, hmarked⟩ := addZoneBitmap_marked hadd
  obtain ⟨b, t₂, hget, h⟩ := bind_eq_ok.mp h
  have htaken := getBuff_taken hget
  simp only [read_bind, ite_run, panic, halt_run] at h
  split at h
  · simp at h
  rename_i hcount
  simp only [update_bind, bind_eq_ok, pure_run, Res.ok.injEq] at h
  obtain ⟨⟨⟩, t₃, hput, rfl, rfl⟩ := h
  obtain ⟨t₄, hpath', hcount', rfl⟩ := putBuff_eq_ok hput
  exact ⟨t, t₁, b, t₂, t₄, hpath, hmarked, htaken, not_not.mp hcount, hpath', hcount', rfl⟩

theorem createBlock_steps (h : createBlock dev env k s = .ok block s')
    (hasked : ∀ t r t', Submits env (.idle, s) (.idle, t) → Marked t dev r t' → asked dev r)
    (hzero : ∀ t b r, asked dev r → (dev < 65536 → t.Keyed b dev r) → may t (.zero b))
    (hstore : ∀ t sb i bh, Submits env (.idle, s) (.idle, t) →
      (t.superBlock sb).sZmap i = some bh → may t (.store bh)) :
    CacheSteps env asked may s s' := by
  obtain ⟨t, t₁, b, t₂, t₃, hpath, hmarked, htaken, -, hpath', -, rfl⟩ := createBlock_created h
  have hmarked' : CacheSteps env asked may t t₁ :=
    hmarked.steps fun sb i bh hmap => hstore t sb i bh hpath hmap
  have hblock := hasked t block t₁ hpath hmarked
  exact (((((CacheSteps.of_submits hpath).trans hmarked').trans (htaken.steps hblock)).tail
    (.zero (hzero t₂ b block hblock htaken.keyed) htaken.unlocked)).tail (.block hpath')).tail
    (.down b)

end EgGS
