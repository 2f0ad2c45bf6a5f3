import EgGS.Cache.Recycle
import EgGS.Fs.Interrupts
import EgGS.Fs.Maps
import Mathlib.Algebra.BigOperators.Fin
import Mathlib.Algebra.Order.BigOperators.Group.Finset
import Mathlib.Data.Nat.ModEq

/-!
# Mounting and unmounting

`read_super` takes a reference to every buffer of the two bitmaps, and gives all of them back
if one of the blocks cannot be read.  `b_count` is an `unsigned char`: the sum of what was
taken and what was given back is right in any case, but a 256th reference to a buffer makes
it look free while the super block still names it.

* `mount_balanced`: `read_super` of a device that is not mounted leaves nothing behind if it
  fails; if it succeeds, exactly one entry is the device's and each of its bitmap buffers is
  held once, a second `read_super` finds it, and `put_super` gives back what was taken.

A super block whose maps have more than 8 blocks is left out: `read_super` would store behind
`s_imap` or `s_zmap`, and the model stops there.
-/

namespace EgGS

open Lib Prog

variable {n : ℕ} {env : Env n} {k : ℕ} {s s' t v : Sys n} {b c : Fin n} {dev block : ℕ}
variable {sb : Fin nrSuper} {kind : MapKind} {u : Unit}

/-! ## References taken and given back -/

/-- `b_count` is an `unsigned char`. -/
def Sys.Bytes (s : Sys n) : Prop := ∀ b, (s.buf b).bCount < 256

/-- `d b` references to each buffer `b` are taken. -/
def Charged (d : Fin n → ℕ) (s s' : Sys n) : Prop :=
  ∀ b, (s'.buf b).bCount ≡ (s.buf b).bCount + d b [MOD 256]

/-- `d b` references to each buffer `b` are given back. -/
def Returned (d : Fin n → ℕ) (s s' : Sys n) : Prop :=
  ∀ b, (s'.buf b).bCount + d b = (s.buf b).bCount

/-- The reference to what was found. -/
def bufRef : Option (Fin n) → Fin n → ℕ
  | none, _ => 0
  | some c, b => if c = b then 1 else 0

theorem Charged.of_same (h : ∀ b, (s'.buf b).bCount = (s.buf b).bCount) : Charged 0 s s' :=
  fun b => by rw [h b]; rfl

theorem Charged.trans {d d' : Fin n → ℕ} (h : Charged d s t) (h' : Charged d' t s') :
    Charged (d + d') s s' := fun b => by
  refine (h' b).trans ?_
  rw [Pi.add_apply, ← Nat.add_assoc]
  exact (h b).add_right _

theorem Returned.trans {d d' : Fin n → ℕ} (h : Returned d s t) (h' : Returned d' t s') :
    Returned (d + d') s s' := fun b => by
  rw [← h b, ← h' b, Pi.add_apply]
  omega

/-- What is taken and given back again leaves the counts as they were. -/
theorem Charged.returned {d : Fin n → ℕ} (hbytes : s.Bytes) (hbytes' : t.Bytes)
    (h : Charged d s t) (h' : Returned d t s') (b : Fin n) :
    (s'.buf b).bCount = (s.buf b).bCount := by
  have hsum : (s'.buf b).bCount + d b ≡ (s.buf b).bCount + d b [MOD 256] := h' b ▸ h b
  have hle := hbytes' b
  rw [← h' b] at hle
  exact Nat.ModEq.eq_of_lt_of_lt (Nat.ModEq.add_right_cancel' _ hsum) (by omega) (hbytes b)

theorem Submits.count (h : Submits env (.idle, s) (.idle, s')) (b : Fin n) :
    (s'.buf b).bCount = (s.buf b).bCount := congrArg BufferLinks.bCount (h.links b)

theorem Sys.countUp_count (s : Sys n) (c b : Fin n) : ((s.countUp c).buf b).bCount =
    if c = b then ((s.buf b).bCount + 1) % 256 else (s.buf b).bCount := by
  by_cases hb : b = c
  · subst hb; simp [Sys.countUp]
  · simp [Sys.countUp, hb, Ne.symm hb]

theorem countUp_charged (s : Sys n) (c : Fin n) : Charged (bufRef (some c)) s (s.countUp c) := by
  intro b
  rw [s.countUp_count, bufRef]
  split
  · exact Nat.mod_modEq _ _
  · rfl

theorem Sys.Bytes.countUp (h : s.Bytes) (c : Fin n) : (s.countUp c).Bytes := by
  intro b
  rw [s.countUp_count]
  split
  · exact Nat.mod_lt _ (by decide)
  · exact h b

theorem Sys.countDown_count (s : Sys n) (c b : Fin n) : ((s.countDown c).buf b).bCount =
    if c = b then ((s.buf b).bCount + 255) % 256 else (s.buf b).bCount := by
  by_cases hb : b = c
  · subst hb; simp [Sys.countDown]
  · simp [Sys.countDown, hb, Ne.symm hb]

theorem countDown_returned (hbytes : s.Bytes) (hcount : (s.buf c).bCount ≠ 0) :
    Returned (bufRef (some c)) s (s.countDown c) := by
  intro b
  have hb := hbytes b
  rw [s.countDown_count, bufRef]
  split
  · rename_i hcb
    subst hcb
    omega
  · rfl

theorem Returned.bytes {d : Fin n → ℕ} (h : Returned d s s') (hbytes : s.Bytes) : s'.Bytes :=
  fun b => by
    have := hbytes b
    rw [← h b] at this
    omega

theorem Sys.Bytes.same (h : s.Bytes) (hsame : ∀ b, (s'.buf b).bCount = (s.buf b).bCount) :
    s'.Bytes := fun b => by
  rw [hsame b]
  exact h b

/-- What `get_buff` hands out has one reference more. -/
theorem Taken.charged (h : Taken env s dev block c s') (hbytes : s.Bytes) :
    Charged (bufRef (some c)) s s' ∧ s'.Bytes := by
  cases h with
  | @found t hpath _ heq =>
      subst heq
      have hsame := Charged.of_same hpath.count
      exact ⟨by simpa using hsame.trans (countUp_charged t c), (hbytes.same hpath.count).countUp c⟩
  | @recycled t k hpath hrec hreuse =>
      obtain ⟨-, hself, hother⟩ := reuse_spec hreuse
      have hone : (s'.buf c).bCount = 1 := congrArg BufferCore.bCount hself
      have hcount : ∀ b, b ≠ c → (s'.buf b).bCount = (s.buf b).bCount := fun b hb =>
        (congrArg BufferCore.bCount (hother b hb)).trans (hpath.count b)
      have hzero : (s.buf c).bCount = 0 := (hpath.count c).symm.trans hrec.count
      refine ⟨fun b => ?_, fun b => ?_⟩
      · by_cases hb : b = c
        · subst hb
          rw [hone, hzero, bufRef, if_pos rfl]
        · rw [hcount b hb, bufRef, if_neg (Ne.symm hb), Nat.add_zero]
      · by_cases hb : b = c
        · subst hb
          rw [hone]
          decide
        · rw [hcount b hb]
          exact hbytes b

/-- `read_buff` takes a reference to what it returns, and none otherwise. -/
theorem readBuff_charged {found : Option (Fin n)} (hbytes : s.Bytes)
    (h : readBuff dev block env k s = .ok found s') : Charged (bufRef found) s s' ∧ s'.Bytes := by
  obtain ⟨c, t, t', htaken, hpath, hdone⟩ := readBuff_taken h
  obtain ⟨hcharged, hbytes'⟩ := htaken.charged hbytes
  have hcharged' : Charged (bufRef (some c)) s t' := by
    simpa using hcharged.trans (.of_same hpath.count)
  have hbytes'' : t'.Bytes := hbytes'.same hpath.count
  cases hdone with
  | good _ _ => exact ⟨hcharged', hbytes''⟩
  | @bad w hpath' hcount =>
      have hw : w.Bytes := hbytes''.same hpath'.count
      have hreturned : Returned (bufRef (some c)) t' (w.countDown c) := fun b =>
        (countDown_returned hw hcount b).trans (hpath'.count b)
      exact ⟨.of_same (hcharged'.returned hbytes hbytes'' hreturned),
        hreturned.bytes hbytes''⟩

theorem putBuff_returned {found : Option (Fin n)} (hbytes : s.Bytes)
    (h : putBuff found env k s = .ok u s') : Returned (bufRef found) s s' := by
  cases found with
  | none =>
      simp only [putBuff, pure_run, Res.ok.injEq] at h
      exact h.2 ▸ fun b => rfl
  | some c =>
      obtain ⟨w, hpath, hcount, rfl⟩ := putBuff_eq_ok h
      exact fun b => (countDown_returned (hbytes.same hpath.count) hcount b).trans (hpath.count b)

/-! ## Buffers that keep their blocks -/

/-- The headers with references keep their blocks. -/
def KeysKept (s s' : Sys n) : Prop :=
  ∀ b, (s.buf b).bCount ≠ 0 → s'.Keyed b (s.buf b).bDev (s.buf b).bBlocknr

/-- A header that is handed out belongs to the block, and if it had references it did so
before. -/
theorem Taken.keys (hdev : dev < 65536) (h : Taken env s dev block c s') :
    KeysKept s s' ∧ s'.Keyed c dev block ∧ ((s.buf c).bCount ≠ 0 → s.Keyed c dev block) := by
  cases h with
  | @found t hpath hfound heq =>
      subst heq
      have hup : ∀ b dev block, (t.countUp c).Keyed b dev block ↔ t.Keyed b dev block := by
        intro b dev block
        by_cases hb : b = c
        · subst hb; simp [Sys.countUp, Sys.Keyed]
        · simp [Sys.countUp, Sys.Keyed, hb]
      exact ⟨fun b _ => (hup ..).mpr ((hpath.keyed_iff _).mpr ⟨rfl, rfl⟩), (hup ..).mpr hfound.key,
        fun _ => (hpath.keyed_iff _).mp hfound.key⟩
  | @recycled t k hpath hrec hreuse =>
      obtain ⟨-, hself, hother⟩ := reuse_spec hreuse
      have hzero : (s.buf c).bCount = 0 := (hpath.count c).symm.trans hrec.count
      have hkey : s'.Keyed c dev block :=
        ⟨(congrArg BufferCore.bDev hself).trans (Nat.mod_eq_of_lt hdev),
          congrArg BufferCore.bBlocknr hself⟩
      refine ⟨fun b hb => ?_, hkey, fun hne => absurd hzero hne⟩
      have hne : b ≠ c := by
        rintro rfl
        exact hb hzero
      have hkey : t.Keyed b (s.buf b).bDev (s.buf b).bBlocknr := (hpath.keyed_iff _).mpr ⟨rfl, rfl⟩
      exact ⟨(congrArg BufferCore.bDev (hother b hne)).trans hkey.1,
        (congrArg BufferCore.bBlocknr (hother b hne)).trans hkey.2⟩

/-- So does `read_buff`, whether it finds the block or not. -/
theorem readBuff_keys {found : Option (Fin n)} (hdev : dev < 65536)
    (h : readBuff dev block env k s = .ok found s') : KeysKept s s' ∧ ∀ c, found = some c →
      s'.Keyed c dev block ∧ ((s.buf c).bCount ≠ 0 → s.Keyed c dev block) := by
  obtain ⟨c, t, t', htaken, hpath, hdone⟩ := readBuff_taken h
  obtain ⟨hkept, hkey, hbefore⟩ := htaken.keys hdev
  have hkept' : KeysKept s t' := fun b hb => (hpath.keyed_iff _).mpr (hkept b hb)
  cases hdone with
  | good _ _ =>
      refine ⟨hkept', fun c' hc' => ?_⟩
      obtain rfl : c = c' := Option.some.inj hc'
      exact ⟨(hpath.keyed_iff _).mpr hkey, hbefore⟩
  | @bad w hpath' _ =>
      refine ⟨fun b hb => ?_, fun c' hc' => absurd hc' (by simp)⟩
      have hw := (hpath'.keyed_iff _).mpr (hkept' b hb)
      by_cases hbc : b = c
      · subst hbc; simpa [Sys.countDown, Sys.Keyed] using hw
      · simpa [Sys.countDown, Sys.Keyed, hbc] using hw

/-! ## The slots of a bitmap -/

/-- The slots that hold the buffer. -/
def slotCount (m : Fin mapSlots → Option (Fin n)) (b : Fin n) : ℕ := ∑ i, bufRef (m i) b

/-- The slots of both bitmaps that hold the buffer. -/
def SuperBlock.slots (p : SuperBlock n) (b : Fin n) : ℕ :=
  slotCount (p.map .inodes) b + slotCount (p.map .zones) b

/-- An empty slot is assigned. -/
theorem slotCount_fill {m : Fin mapSlots → Option (Fin n)} {i : Fin mapSlots} (hi : m i = none)
    (bh : Option (Fin n)) (b : Fin n) :
    slotCount (Function.update m i bh) b = slotCount m b + bufRef bh b := by
  have hrest : ∑ j ∈ Finset.univ.erase i, bufRef (Function.update m i bh j) b =
      ∑ j ∈ Finset.univ.erase i, bufRef (m j) b :=
    Finset.sum_congr rfl fun j hj => by rw [Function.update_of_ne (Finset.ne_of_mem_erase hj)]
  rw [slotCount, slotCount, ← Finset.add_sum_erase _ _ (Finset.mem_univ i),
    ← Finset.add_sum_erase _ (fun j => bufRef (m j) b) (Finset.mem_univ i), hrest,
    Function.update_self, hi, bufRef]
  omega

theorem SuperBlock.slots_fill {p : SuperBlock n} {i : Fin mapSlots} (hi : p.map kind i = none)
    (bh : Option (Fin n)) : (p.setMap kind i bh).slots = p.slots + bufRef bh := by
  funext b
  cases kind with
  | inodes =>
      show slotCount (Function.update (p.map .inodes) i bh) b + _ = _
      rw [slotCount_fill hi, Pi.add_apply, SuperBlock.slots]
      exact Nat.add_right_comm _ _ _
  | zones =>
      show _ + slotCount (Function.update (p.map .zones) i bh) b = _
      rw [slotCount_fill hi, Pi.add_apply, SuperBlock.slots, ← Nat.add_assoc]
      rfl

theorem slotCount_pos {m : Fin mapSlots → Option (Fin n)} {i : Fin mapSlots} (hi : m i = some b) :
    0 < slotCount m b := by
  have hle := Finset.single_le_sum (f := fun j => bufRef (m j) b)
    (fun j _ => Nat.zero_le _) (Finset.mem_univ i)
  have hone : bufRef (m i) b = 1 := by rw [hi, bufRef, if_pos rfl]
  rw [hone] at hle
  exact hle

theorem slotCount_eq_zero {m : Fin mapSlots → Option (Fin n)} :
    slotCount m b = 0 ↔ ∀ i, m i ≠ some b := by
  refine ⟨fun h i hi => absurd (slotCount_pos hi) (by omega), fun h => ?_⟩
  refine Finset.sum_eq_zero fun i _ => ?_
  cases hi : m i with
  | none => rfl
  | some c =>
      have hne : c ≠ b := by
        rintro rfl
        exact h i hi
      rw [bufRef, if_neg hne]

theorem SuperBlock.slots_eq_zero {p : SuperBlock n} :
    p.slots b = 0 ↔ ∀ kind i, p.map kind i ≠ some b := by
  rw [SuperBlock.slots, Nat.add_eq_zero_iff, slotCount_eq_zero, slotCount_eq_zero]
  refine ⟨fun ⟨hin, hzo⟩ kind => ?_, fun h => ⟨h .inodes, h .zones⟩⟩
  cases kind with
  | inodes => exact hin
  | zones => exact hzo

/-! ## Reading the bitmaps -/

/-- What every round of the loop keeps that reads a bitmap, the loop keeps: slot `i` gets what
was read for block `block + i`. -/
theorem loadMap_ensures {J : ℕ → Sys n → Prop} {r : ℕ}
    (hround : ∀ {i t w k bh} (hslot : i < mapSlots), J i t → i < (t.superBlock sb).blocks kind →
      readBuff dev (block + i) env k t = .ok bh w →
      J (if bh.isSome then i + 1 else i) (w.setSuper sb fun p => p.setMap kind ⟨i, hslot⟩ bh))
    (hstart : J 0 s) (h : loadMap sb dev kind block env k s = .ok r s') :
    ∃ i, r = block + i ∧ J i s' := by
  -- `J i` holds when the slots before `i` were tried; a block that cannot be read ends the loop
  refine iterate_ensures (I := fun x t => x.2 = block + x.1 ∧ J x.1 t)
    (Q := fun r t => ∃ i, r = block + i ∧ J i t) ?_ ?_ ⟨rfl, hstart⟩ h
  · rintro ⟨i, b⟩ t ⟨i', b'⟩ t' ⟨hb, hJ⟩ hbody
    dsimp only at hb hJ
    subst hb
    unfold loadRound at hbody
    rw [read_bind, ite_run] at hbody
    split at hbody
    · rename_i hi
      obtain ⟨bh, w, hread, hbody⟩ := bind_eq_ok.mp hbody
      split at hbody
      · rename_i hslot
        rw [update_bind] at hbody
        cases bh with
        | none => simp at hbody
        | some c =>
            simp only [pure_run, Res.ok.injEq, Sum.inl.injEq, Prod.mk.injEq] at hbody
            obtain ⟨⟨rfl, rfl⟩, rfl⟩ := hbody
            exact ⟨rfl, hround hslot hJ hi hread⟩
      · simp at hbody
    · simp at hbody
  · rintro ⟨i, b⟩ t r t' ⟨hb, hJ⟩ hbody
    dsimp only at hb hJ
    subst hb
    unfold loadRound at hbody
    rw [read_bind, ite_run] at hbody
    split at hbody
    · rename_i hi
      obtain ⟨bh, w, hread, hbody⟩ := bind_eq_ok.mp hbody
      split at hbody
      · rename_i hslot
        rw [update_bind] at hbody
        cases bh with
        | some c => simp at hbody
        | none =>
            simp only [pure_run, Res.ok.injEq, Sum.inr.injEq] at hbody
            obtain ⟨rfl, rfl⟩ := hbody
            exact ⟨i, rfl, hround hslot hJ hi hread⟩
      · simp at hbody
    · simp only [pure_run, Res.ok.injEq, Sum.inr.injEq] at hbody
      obtain ⟨rfl, rfl⟩ := hbody
      exact ⟨i, rfl, hJ⟩

/-- The other entries are the same. -/
def OnlySuper (sb : Fin nrSuper) (s s' : Sys n) : Prop :=
  ∀ p, p ≠ sb → s'.superBlock p = s.superBlock p

theorem OnlySuper.trans (h : OnlySuper sb s t) (h' : OnlySuper sb t s') : OnlySuper sb s s' :=
  fun p hp => (h' p hp).trans (h p hp)

theorem OnlySuper.of_same (h : s'.superBlock = s.superBlock) : OnlySuper sb s s' :=
  fun p _ => congrFun h p

theorem OnlySuper.set (s : Sys n) (sb : Fin nrSuper) (f : SuperBlock n → SuperBlock n) :
    OnlySuper sb s (s.setSuper sb f) := fun p hp => by simp [hp]

/-- A bitmap is being read, since `v`: the counts have gone up by the slots of the entry, and the
slots from the `i`-th on are empty. -/
structure Counting (v : Sys n) (sb : Fin nrSuper) (kind : MapKind) (i : ℕ) (t : Sys n) : Prop where
  charged : Charged (t.superBlock sb).slots v t
  bytes : t.Bytes
  empty : ∀ j : Fin mapSlots, i ≤ j.val → (t.superBlock sb).map kind j = none
  only : OnlySuper sb v t

theorem setMap_map (p : SuperBlock n) (kind kind' : MapKind) (i : Fin mapSlots)
    (bh : Option (Fin n)) : (p.setMap kind i bh).map kind' =
      if kind' = kind then Function.update (p.map kind) i bh else p.map kind' := by
  cases kind <;> cases kind' <;> rfl

theorem Counting.round {i : ℕ} {bh : Option (Fin n)} (hslot : i < mapSlots)
    (h : Counting v sb kind i t) (hread : readBuff dev block env k t = .ok bh s') :
    Counting v sb kind (if bh.isSome then i + 1 else i)
      (s'.setSuper sb fun p => p.setMap kind ⟨i, hslot⟩ bh) := by
  have hsame : s'.superBlock = t.superBlock := readBuff_superBlock hread
  obtain ⟨hcharged, hbytes⟩ := readBuff_charged h.bytes hread
  have hfree : (s'.superBlock sb).map kind ⟨i, hslot⟩ = none := by
    rw [hsame]
    exact h.empty ⟨i, hslot⟩ le_rfl
  refine ⟨?_, hbytes, fun j hj => ?_, ?_⟩
  · have hall := h.charged.trans hcharged
    rw [Sys.setSuper_superBlock, Function.update_self, SuperBlock.slots_fill hfree, hsame]
    exact hall
  · rw [Sys.setSuper_superBlock, Function.update_self, setMap_map, if_pos rfl]
    by_cases hji : j = ⟨i, hslot⟩
    · subst hji
      rw [Function.update_self]
      cases bh with
      | none => rfl
      | some c => simp at hj
    · rw [Function.update_of_ne hji, hsame]
      refine h.empty j ?_
      split at hj <;> omega
  · exact (h.only.trans (.of_same hsame)).trans (.set s' sb _)

/-- The number of the block that belongs into a slot, if the zone bitmap starts at `first`. -/
def slotBlock (first : ℕ) (kind : MapKind) (i : ℕ) : ℕ :=
  match kind with
  | .inodes => 2 + i
  | .zones => first + i

/-- No buffer of the blocks from 2 up to `last` has all the references that can be counted. -/
def Sys.Spare (s : Sys n) (dev last : ℕ) : Prop :=
  ∀ b block, s.Keyed b dev block → 2 ≤ block → block < last → (s.buf b).bCount ≠ 255

/-- Since `v`, the blocks from 2 up to `next` have been read, each into a slot of its own, where
its buffer is held. -/
structure Holding (v : Sys n) (sb : Fin nrSuper) (dev first next : ℕ) (t : Sys n) : Prop where
  charged : Charged (t.superBlock sb).slots v t
  bytes : t.Bytes
  once : ∀ b, (t.superBlock sb).slots b ≤ 1
  keyed : ∀ kind i b, (t.superBlock sb).map kind i = some b →
    t.Keyed b dev (slotBlock first kind i) ∧ slotBlock first kind i < next
  spare : ∀ b, (t.superBlock sb).slots b ≠ 0 → (v.buf b).bCount ≠ 255
  kept : ∀ b, (t.superBlock sb).slots b = 0 → (v.buf b).bCount ≠ 0 →
    t.Keyed b (v.buf b).bDev (v.buf b).bBlocknr

/-- A buffer in a slot has a count above zero. -/
theorem Holding.held {first next : ℕ} (h : Holding v sb dev first next t) (hv : v.Bytes)
    (hb : (t.superBlock sb).slots b ≠ 0) :
    (t.buf b).bCount = (v.buf b).bCount + 1 := by
  have hone : (t.superBlock sb).slots b = 1 := by
    have := h.once b
    omega
  have hspare := h.spare b hb
  have hlt := hv b
  have hcharged := h.charged b
  rw [hone] at hcharged
  exact hcharged.eq_of_lt_of_lt (h.bytes b) (by omega)

theorem Holding.free {first next : ℕ} (h : Holding v sb dev first next t) (hv : v.Bytes)
    (hb : (t.superBlock sb).slots b = 0) : (t.buf b).bCount = (v.buf b).bCount := by
  have hcharged := h.charged b
  rw [hb] at hcharged
  exact hcharged.eq_of_lt_of_lt (h.bytes b) (hv b)

/-- The next block goes into a slot. -/
theorem Holding.read {first next last i : ℕ} (h : Holding v sb dev first next t) (hv : v.Bytes)
    (hdev : dev < 65536) (hspare : v.Spare dev last) (hslot : i < mapSlots)
    (hnext : next = slotBlock first kind i) (htwo : 2 ≤ next) (hlast : next < last)
    (hempty : (t.superBlock sb).map kind ⟨i, hslot⟩ = none)
    (hread : readBuff dev next env k t = .ok (some c) s') :
    Holding v sb dev first (next + 1)
      (s'.setSuper sb fun p => p.setMap kind ⟨i, hslot⟩ (some c)) := by
  have hsame : s'.superBlock = t.superBlock := readBuff_superBlock hread
  obtain ⟨hcharged, hbytes⟩ := readBuff_charged h.bytes hread
  obtain ⟨hkept, hfound⟩ := readBuff_keys hdev hread
  obtain ⟨hkey, hbefore⟩ := hfound c rfl
  -- the header of the next block is in no slot
  have hfresh : (t.superBlock sb).slots c = 0 := by
    by_contra hin
    have hheld := h.held hv hin
    obtain ⟨kind', j, hj⟩ : ∃ kind' j, (t.superBlock sb).map kind' j = some c := by
      by_contra hno
      push Not at hno
      exact hin (SuperBlock.slots_eq_zero.mpr hno)
    obtain ⟨hkey', hlt⟩ := h.keyed kind' j c hj
    have heq := (hbefore (by omega)).2.symm.trans hkey'.2
    omega
  have hcount := h.free hv hfresh
  have hroom : (v.buf c).bCount ≠ 255 := by
    intro hfull
    have hkey' := hbefore (by omega)
    have hold := h.kept c hfresh (by omega)
    exact hspare c next ⟨hold.1.symm.trans hkey'.1, hold.2.symm.trans hkey'.2⟩ htwo hlast hfull
  have hfree : (s'.superBlock sb).map kind ⟨i, hslot⟩ = none := by rwa [hsame]
  set w := s'.setSuper sb fun p => p.setMap kind ⟨i, hslot⟩ (some c) with hw
  have hslots : (w.superBlock sb).slots = (t.superBlock sb).slots + bufRef (some c) := by
    rw [hw, Sys.setSuper_superBlock, Function.update_self, SuperBlock.slots_fill hfree, hsame]
  have hslotsAt : ∀ b, (w.superBlock sb).slots b =
      (t.superBlock sb).slots b + if c = b then 1 else 0 := fun b => congrFun hslots b
  -- the slot now holds `c`, and what was held before has kept its key through the read
  refine ⟨?_, hbytes, fun b => ?_, fun kind' j b hj => ?_, fun b hb => ?_, fun b hb hne => ?_⟩
  · rw [hslots]
    exact h.charged.trans hcharged
  · rw [hslotsAt]
    by_cases hcb : c = b
    · subst hcb
      simp [hfresh]
    · simpa [hcb] using h.once b
  · rw [hw, Sys.setSuper_superBlock, Function.update_self, setMap_map, hsame] at hj
    -- the slot that was filled, or one of the slots before it
    by_cases hhere : kind' = kind ∧ j = ⟨i, hslot⟩
    · obtain ⟨rfl, rfl⟩ := hhere
      rw [if_pos rfl, Function.update_self] at hj
      obtain rfl := Option.some.inj hj
      exact ⟨hnext ▸ hkey, by rw [← hnext]; omega⟩
    · have hj' : (t.superBlock sb).map kind' j = some b := by
        by_cases hkind : kind' = kind
        · subst hkind
          rwa [if_pos rfl, Function.update_of_ne fun hji => hhere ⟨rfl, hji⟩] at hj
        · rwa [if_neg hkind] at hj
      obtain ⟨hkey', hlt⟩ := h.keyed kind' j b hj'
      have hin : (t.superBlock sb).slots b ≠ 0 := fun hzero =>
        SuperBlock.slots_eq_zero.mp hzero kind' j hj'
      have hpos := h.held hv hin
      have hstays := hkept b (by omega)
      exact ⟨⟨hstays.1.trans hkey'.1, hstays.2.trans hkey'.2⟩, by omega⟩
  · rw [hslotsAt] at hb
    by_cases hcb : c = b
    · exact hcb ▸ hroom
    · exact h.spare b (by simpa [hcb] using hb)
  · rw [hslotsAt] at hb
    have hzero : (t.superBlock sb).slots b = 0 := by omega
    have hold := h.kept b hzero hne
    have hstays := hkept b (by rw [h.free hv hzero]; exact hne)
    exact ⟨hstays.1.trans hold.1, hstays.2.trans hold.2⟩

/-- Nothing that matters has changed. -/
theorem Holding.congr {first next : ℕ} (h : Holding v sb dev first next t) (hv : v.Bytes)
    (hmap : ∀ kind, (s'.superBlock sb).map kind = (t.superBlock sb).map kind)
    (hcount : ∀ b, (s'.buf b).bCount = (t.buf b).bCount) (hkept : KeysKept t s') :
    Holding v sb dev first next s' := by
  have hslots : (s'.superBlock sb).slots = (t.superBlock sb).slots := by
    funext b
    rw [SuperBlock.slots, SuperBlock.slots, hmap, hmap]
  refine ⟨?_, h.bytes.same hcount, fun b => ?_, fun kind i b hi => ?_, fun b hb => ?_,
    fun b hb hne => ?_⟩
  · rw [hslots]
    simpa using h.charged.trans (.of_same hcount)
  · rw [hslots]
    exact h.once b
  · rw [hmap] at hi
    obtain ⟨hkey, hlt⟩ := h.keyed kind i b hi
    have hin : (t.superBlock sb).slots b ≠ 0 := fun hzero =>
      SuperBlock.slots_eq_zero.mp hzero kind i hi
    have hpos := h.held hv hin
    have hstays := hkept b (by omega)
    exact ⟨⟨hstays.1.trans hkey.1, hstays.2.trans hkey.2⟩, hlt⟩
  · rw [hslots] at hb
    exact h.spare b hb
  · rw [hslots] at hb
    have hold := h.kept b hb hne
    have hstays := hkept b (by rw [h.free hv hb]; exact hne)
    exact ⟨hstays.1.trans hold.1, hstays.2.trans hold.2⟩

theorem setMap_blocks (p : SuperBlock n) (kind kind' : MapKind) (i : Fin mapSlots)
    (bh : Option (Fin n)) : (p.setMap kind i bh).blocks kind' = p.blocks kind' := by
  cases kind <;> cases kind' <;> rfl

theorem loadMap_counting {r : ℕ} (hstart : Counting v sb kind 0 s)
    (h : loadMap sb dev kind block env k s = .ok r s') :
    ∃ i ≤ (s.superBlock sb).blocks kind, r = block + i ∧ Counting v sb kind i s' ∧
      Loading s sb kind i s' := by
  obtain ⟨i, rfl, hcounting⟩ := loadMap_ensures (J := Counting v sb kind)
    (fun hslot hJ _ hread => hJ.round hslot hread) hstart h
  obtain ⟨i', hle, heq, hloading⟩ := loadMap_loading h
  obtain rfl : i = i' := by omega
  exact ⟨i, hle, rfl, hcounting, hloading⟩

/-- The loop reads blocks from `block` on, each into the slot it belongs into. -/
theorem loadMap_holding {r first last : ℕ} (hv : v.Bytes) (hdev : dev < 65536)
    (hspare : v.Spare dev last) (hblock : ∀ i, block + i = slotBlock first kind i)
    (htwo : 2 ≤ block) (hlast : block + (s.superBlock sb).blocks kind ≤ last)
    (hstart : Counting v sb kind 0 s) (hheld : Holding v sb dev first block s)
    (h : loadMap sb dev kind block env k s = .ok r s') : Holding v sb dev first r s' := by
  refine (loadMap_ensures (J := fun i t => Counting v sb kind i t ∧
    Holding v sb dev first (block + i) t ∧
    (t.superBlock sb).blocks kind = (s.superBlock sb).blocks kind)
    (fun {i t w k bh} hslot ⟨hcounting, hholding, hblocks⟩ hi hread => ?_)
    ⟨hstart, hheld, rfl⟩ h).elim fun i hi => hi.1 ▸ hi.2.2.1
  have hempty := hcounting.empty ⟨i, hslot⟩ le_rfl
  have hsame : w.superBlock = t.superBlock := readBuff_superBlock hread
  refine ⟨hcounting.round hslot hread, ?_, ?_⟩
  · cases bh with
    | some c =>
        exact hholding.read hv hdev hspare hslot (hblock i) (by omega) (by omega) hempty hread
    | none =>
        obtain ⟨hcharged, hbytes⟩ := readBuff_charged hcounting.bytes hread
        have hcounts : ∀ b, (w.buf b).bCount = (t.buf b).bCount := fun b =>
          (hcharged b).eq_of_lt_of_lt (hbytes b) (hcounting.bytes b)
        refine hholding.congr hv (fun kind' => ?_) hcounts (readBuff_keys hdev hread).1
        rw [Sys.setSuper_superBlock, Function.update_self, setMap_map, hsame]
        split
        · rename_i heq
          rw [heq, ← hempty, Function.update_eq_self]
        · rfl
  · rw [Sys.setSuper_superBlock, Function.update_self, setMap_blocks, hsame, hblocks]

/-! ## Giving the bitmaps back -/

theorem putBuff_superBlock {found : Option (Fin n)} (h : putBuff found env k s = .ok u s') :
    s'.superBlock = s.superBlock := by
  cases found with
  | none =>
      simp only [putBuff, pure_run, Res.ok.injEq, true_and] at h
      rw [h]
  | some c => exact (CachePath.tables (putBuff_steps h)).2

/-- The loop over the slots gives back one reference for each that holds a buffer. -/
theorem putSlots_returned (l : List (Fin mapSlots)) (hbytes : s.Bytes)
    (h : Prog.forEach l (fun i => do
      let s ← Prog.read
      putBuff ((s.superBlock sb).map kind i)) env k s = .ok u s') :
    Returned (fun b => (l.map fun i => bufRef ((s.superBlock sb).map kind i) b).sum) s s' ∧
      s'.superBlock = s.superBlock := by
  induction l generalizing s with
  | nil =>
      simp only [forEach, pure_run, Res.ok.injEq] at h
      exact h.2 ▸ ⟨fun _ => rfl, rfl⟩
  | cons i l ih =>
      obtain ⟨⟨⟩, t, hput, hrest⟩ := bind_eq_ok.mp h
      dsimp only at hput
      rw [read_bind] at hput
      have hreturned := putBuff_returned hbytes hput
      have hsame := putBuff_superBlock hput
      obtain ⟨hreturned', hsame'⟩ := ih (hreturned.bytes hbytes) hrest
      rw [hsame] at hreturned'
      exact ⟨fun b => by simpa using hreturned.trans hreturned' b, hsame'.trans hsame⟩

theorem putMap_returned (hbytes : s.Bytes) (h : putMap sb kind env k s = .ok u s') :
    Returned (slotCount ((s.superBlock sb).map kind)) s s' ∧ s'.superBlock = s.superBlock := by
  obtain ⟨hreturned, hsame⟩ := putSlots_returned (List.finRange mapSlots) hbytes h
  refine ⟨fun b => ?_, hsame⟩
  rw [slotCount, Fin.sum_univ_def]
  exact hreturned b

/-- Both bitmaps are given back. -/
theorem putMaps_returned {t : Sys n} {k' : ℕ} {u' : Unit} (hbytes : s.Bytes)
    (h : putMap sb .inodes env k s = .ok u t) (h' : putMap sb .zones env k' t = .ok u' s') :
    Returned (s.superBlock sb).slots s s' ∧ s'.superBlock = s.superBlock := by
  obtain ⟨hreturned, hsame⟩ := putMap_returned hbytes h
  obtain ⟨hreturned', hsame'⟩ := putMap_returned (hreturned.bytes hbytes) h'
  rw [hsame] at hreturned'
  exact ⟨hreturned.trans hreturned', hsame'.trans hsame⟩

theorem putBuff_keyed {found : Option (Fin n)} (h : putBuff found env k s = .ok u s')
    {b : Fin n} {dev block : ℕ} (hb : s.Keyed b dev block) : s'.Keyed b dev block := by
  cases found with
  | none =>
      simp only [putBuff, pure_run, Res.ok.injEq, true_and] at h
      exact h ▸ hb
  | some c =>
      obtain ⟨w, hpath, -, rfl⟩ := putBuff_eq_ok h
      have hw := (hpath.keyed_iff _).mpr hb
      by_cases hbc : b = c
      · subst hbc; simpa [Sys.countDown, Sys.Keyed] using hw
      · simpa [Sys.countDown, Sys.Keyed, hbc] using hw

/-- On hardware that works the loop returns, if its references are there to be given back. -/
theorem Ready.putSlots (henv : env.Works fun _ => False) (l : List (Fin mapSlots))
    (h : Ready (fun _ => False) s)
    (hheld : ∀ b, (l.map fun i => bufRef ((s.superBlock sb).map kind i) b).sum ≤ (s.buf b).bCount) :
    Does (Prog.forEach l (fun i => do
      let s ← Prog.read
      putBuff ((s.superBlock sb).map kind i))) env s fun _ s' => Ready (fun _ => False) s' := by
  induction l generalizing s with
  | nil => exact .pure h
  | cons i l ih =>
      refine Does.bind (R := fun _ t => Ready (fun _ => False) t ∧ t.superBlock = s.superBlock ∧
        Returned (bufRef ((s.superBlock sb).map kind i)) s t) (.bind_read ?_) ?_
      · cases hslot : (s.superBlock sb).map kind i with
        | none => exact .pure ⟨h, rfl, fun _ => rfl⟩
        | some b =>
            refine (h.waitOnBuff henv b).bind fun _ t ⟨hpath, _⟩ => .bind_read ?_
            have ht := h.submits henv hpath
            have hone := hheld b
            simp only [List.map_cons, List.sum_cons, hslot, bufRef, if_true] at hone
            have hcount : (t.buf b).bCount ≠ 0 := by
              rw [hpath.count]
              omega
            rw [if_neg hcount]
            have hback := countDown_returned ht.count hcount
            refine .update ⟨ht.counted b (Nat.mod_lt _ (by decide)),
              congrArg Rest.superBlock hpath.rest, fun c => (hback c).trans (hpath.count c)⟩
      · rintro _ t ⟨ht, hsuper, hback⟩
        refine ih ht fun b => ?_
        have hall := hheld b
        rw [List.map_cons, List.sum_cons, ← hback b] at hall
        rw [hsuper]
        omega

theorem Ready.putMap (henv : env.Works fun _ => False) (h : Ready (fun _ => False) s)
    (hheld : ∀ b, slotCount ((s.superBlock sb).map kind) b ≤ (s.buf b).bCount) :
    Does (putMap sb kind) env s fun _ s' => Ready (fun _ => False) s' ∧
      s'.superBlock = s.superBlock ∧ Returned (slotCount ((s.superBlock sb).map kind)) s s' := by
  have hsums : ∀ b, ((List.finRange mapSlots).map fun i =>
      bufRef ((s.superBlock sb).map kind i) b).sum ≤ (s.buf b).bCount := fun b => by
    have hb := hheld b
    rwa [slotCount, Fin.sum_univ_def] at hb
  obtain ⟨⟨⟩, s', heval, hs'⟩ := h.putSlots henv (List.finRange mapSlots) hsums
  obtain ⟨k, hk⟩ := heval.exists_run
  obtain ⟨hreturned, hsame⟩ := putMap_returned h.count hk
  exact ⟨(), s', heval, hs', hsame, hreturned⟩

/-! ## The exits of `read_super` -/

/-- The references and the blocks of the headers in use are as they were. -/
structure SameRefs (s s' : Sys n) : Prop where
  count : ∀ b, (s'.buf b).bCount = (s.buf b).bCount
  keys : KeysKept s s'

theorem SameRefs.of_buf (h : s'.buf = s.buf) : SameRefs s s' :=
  ⟨fun b => by rw [h], fun b _ => by rw [Sys.Keyed, h]; exact ⟨rfl, rfl⟩⟩

theorem SameRefs.trans (h : SameRefs s t) (h' : SameRefs t s') : SameRefs s s' :=
  ⟨fun b => (h'.count b).trans (h.count b), fun b hb => by
    have hkey := h.keys b hb
    have hkey' := h'.keys b (by rw [h.count b]; exact hb)
    exact ⟨hkey'.1.trans hkey.1, hkey'.2.trans hkey.2⟩⟩

/-- The entry `sb` was given up. -/
structure Abandoned (s : Sys n) (sb : Fin nrSuper) (s' : Sys n) : Prop where
  count : ∀ b, (s'.buf b).bCount = (s.buf b).bCount
  only : OnlySuper sb s s'
  free : (s'.superBlock sb).sDev = 0

/-- The block behind the two bitmaps. -/
def SuperBlock.mapsEnd (p : SuperBlock n) : ℕ := 2 + p.sImapBlocks + p.sZmapBlocks

/-- The entry `sb` names the buffers of both bitmaps. -/
structure Filled (s : Sys n) (sb : Fin nrSuper) (dev : ℕ) (s' : Sys n) : Prop where
  only : OnlySuper sb s s'
  sDev : (s'.superBlock sb).sDev = (s.superBlock sb).sDev
  sImount : (s'.superBlock sb).sImount = (s.superBlock sb).sImount
  full : ∀ kind (i : Fin mapSlots), i.val < (s'.superBlock sb).blocks kind →
    ((s'.superBlock sb).map kind i).isSome
  holding : s.Spare dev (s'.superBlock sb).mapsEnd →
    Holding s sb dev (2 + (s'.superBlock sb).sImapBlocks) (s'.superBlock sb).mapsEnd s'

theorem abandonSuper_abandoned {found : Option (Fin nrSuper)}
    (h : abandonSuper sb env k s = .ok found s') : found = none ∧ Abandoned s sb s' := by
  simp only [abandonSuper, update_bind, bind_eq_ok, pure_run, Res.ok.injEq] at h
  obtain ⟨⟨⟩, t, hunlock, rfl, rfl⟩ := h
  rw [unlockSuper_eq hunlock]
  refine ⟨rfl, fun _ => rfl, fun p hp => ?_, ?_⟩ <;> simp [*]

theorem Counting.start (hv : v.Bytes) (sb : Fin nrSuper) (kind : MapKind) :
    Counting v sb kind 0 (v.setSuper sb SuperBlock.clearMaps) := by
  have hclear : (v.setSuper sb SuperBlock.clearMaps).superBlock sb =
      (v.superBlock sb).clearMaps := by simp
  have hnone : ∀ kind i, (v.superBlock sb).clearMaps.map kind i = none := by
    intro kind i
    cases kind <;> rfl
  refine ⟨fun b => ?_, hv, fun j _ => by rw [hclear, hnone], .set v sb _⟩
  rw [hclear, SuperBlock.slots_eq_zero.mpr fun kind i => by rw [hnone]; simp]
  exact Nat.ModEq.refl _

theorem Counting.other {i : ℕ} {kind' : MapKind} (h : Counting v sb kind i t)
    (hnone : ∀ j, (t.superBlock sb).map kind' j = none) : Counting v sb kind' 0 t :=
  ⟨h.charged, h.bytes, fun j _ => hnone j, h.only⟩

theorem Holding.start {first : ℕ} (hv : v.Bytes) (sb : Fin nrSuper) (dev : ℕ) :
    Holding v sb dev first 2 (v.setSuper sb SuperBlock.clearMaps) := by
  have hcounting := Counting.start hv sb .inodes
  have hnone : ∀ kind i,
      ((v.setSuper sb SuperBlock.clearMaps).superBlock sb).map kind i = none := by
    intro kind i
    rw [Sys.setSuper_superBlock, Function.update_self]
    cases kind <;> rfl
  have hzero : ∀ b, ((v.setSuper sb SuperBlock.clearMaps).superBlock sb).slots b = 0 := fun b =>
    SuperBlock.slots_eq_zero.mpr fun kind i => by rw [hnone]; simp
  exact ⟨hcounting.charged, hv, fun b => by rw [hzero]; omega,
    fun kind i b hi => absurd ((hnone kind i).symm.trans hi) (by simp),
    fun b hb => absurd (hzero b) hb, fun b _ _ => ⟨rfl, rfl⟩⟩

theorem markFirst_sameRefs (h : markFirst sb kind env k s = .ok u s') : SameRefs s s' := by
  unfold markFirst at h
  rw [read_bind] at h
  cases hmap : (s.superBlock sb).map kind 0 with
  | none => simp [hmap] at h
  | some c =>
      simp only [hmap, update_run, Res.ok.injEq, true_and] at h
      subst h
      refine ⟨fun b => ?_, fun b _ => ?_⟩
      · by_cases hb : b = c
        · subst hb; simp
        · simp [hb]
      · by_cases hb : b = c
        · subst hb; simp [Sys.Keyed]
        · simp [Sys.Keyed, hb]

/-- What the two loops leave, when they have read every block. -/
theorem loadMaps_filled {b₁ b₂ k' : ℕ} {s₁ s₂ : Sys n} (hv : v.Bytes) (hdev : dev < 65536)
    (h₁ : loadMap sb dev .inodes 2 env k (v.setSuper sb SuperBlock.clearMaps) = .ok b₁ s₁)
    (h₂ : loadMap sb dev .zones b₁ env k' s₁ = .ok b₂ s₂)
    (heq : b₂ = (s₂.superBlock sb).mapsEnd) : Filled v sb dev s₂ := by
  obtain ⟨i₁, hle₁, rfl, hcounting₁, m₁, hm₁, hsome₁⟩ := loadMap_counting (.start hv sb .inodes) h₁
  have hclear : (v.setSuper sb SuperBlock.clearMaps).superBlock sb =
      (v.superBlock sb).clearMaps := by simp
  have hzones : ∀ j, (s₁.superBlock sb).map .zones j = none := by
    intro j
    rw [hm₁, SuperBlock.withMap_map_of_ne _ _ (by decide), hclear]
    rfl
  have hcounting₁' := hcounting₁.other hzones
  obtain ⟨i₂, hle₂, rfl, hcounting₂, m₂, hm₂, hsome₂⟩ := loadMap_counting hcounting₁' h₂
  have hin : (s₂.superBlock sb).sImapBlocks = (v.superBlock sb).blocks .inodes := by
    show (s₂.superBlock sb).blocks .inodes = _
    rw [hm₂, hm₁, hclear, SuperBlock.withMap_blocks, SuperBlock.withMap_blocks, clearMaps_blocks]
  have hzo : (s₂.superBlock sb).sZmapBlocks = (v.superBlock sb).blocks .zones := by
    show (s₂.superBlock sb).blocks .zones = _
    rw [hm₂, hm₁, hclear, SuperBlock.withMap_blocks, SuperBlock.withMap_blocks, clearMaps_blocks]
  rw [hclear, clearMaps_blocks] at hle₁
  rw [hm₁, hclear, SuperBlock.withMap_blocks, clearMaps_blocks] at hle₂
  rw [SuperBlock.mapsEnd, hin, hzo] at heq
  -- both loops were complete, for together they have come to the end of the bitmaps
  obtain rfl : i₁ = (v.superBlock sb).blocks .inodes := by omega
  refine ⟨hcounting₂.only, ?_, ?_, fun kind i hi => ?_, fun hspare => ?_⟩
  · rw [hm₂, hm₁, hclear]
    rfl
  · rw [hm₂, hm₁, hclear]
    rfl
  · -- the second loop leaves the slots of the first one alone
    cases kind with
    | inodes =>
        rw [hm₂, SuperBlock.withMap_map_of_ne _ _ (by decide), hm₁, SuperBlock.withMap_map]
        exact hsome₁ i (hin ▸ hi)
    | zones =>
        rw [hm₂, SuperBlock.withMap_map]
        have hi' : i.val < (v.superBlock sb).blocks .zones := lt_of_lt_of_eq hi hzo
        exact hsome₂ i (by omega)
  · rw [SuperBlock.mapsEnd, hin, hzo] at hspare ⊢
    have hblocks₁ : (s₁.superBlock sb).blocks .zones = (v.superBlock sb).blocks .zones := by
      rw [hm₁, hclear, SuperBlock.withMap_blocks, clearMaps_blocks]
    have hholding₁ : Holding v sb dev (2 + (v.superBlock sb).blocks .inodes)
        (2 + (v.superBlock sb).blocks .inodes) s₁ := loadMap_holding hv hdev hspare
      (fun _ => rfl) le_rfl (by rw [hclear, clearMaps_blocks]; omega)
      (.start hv sb .inodes) (.start hv sb dev) h₁
    have hholding₂ := loadMap_holding hv hdev hspare (fun _ => rfl) (by omega)
      (by rw [hblocks₁]) hcounting₁' hholding₁ h₂
    rwa [heq] at hholding₂

/-- The entry is unlocked at the end. -/
theorem Filled.unlock (hv : v.Bytes) (h : Filled v sb dev t) (hrefs : SameRefs t s')
    (honly : OnlySuper sb t s')
    (hentry : s'.superBlock sb = { t.superBlock sb with sLock := false }) : Filled v sb dev s' := by
  have hmap : ∀ kind, (s'.superBlock sb).map kind = (t.superBlock sb).map kind := by
    intro kind
    rw [hentry]
    cases kind <;> rfl
  refine ⟨h.only.trans honly, ?_, ?_, fun kind i hi => ?_, fun hspare => ?_⟩
  · rw [hentry]
    exact h.sDev
  · rw [hentry]
    exact h.sImount
  · rw [hmap]
    refine h.full kind i ?_
    rw [hentry] at hi
    cases kind <;> exact hi
  · rw [hentry] at hspare ⊢
    exact (h.holding hspare).congr hv hmap hrefs.count hrefs.keys

theorem loadMaps_outcome {found : Option (Fin nrSuper)} (hv : v.Bytes) (hdev : dev < 65536)
    (h : loadMaps sb dev env k v = .ok found t) :
    (found = none → Abandoned v sb t) ∧
      ∀ p, found = some p → p = sb ∧ Filled v sb dev t ∧ (t.superBlock sb).sLock = false := by
  simp only [loadMaps, update_bind, bind_eq_ok, read_bind, ite_run] at h
  obtain ⟨b₁, s₁, h₁, b₂, s₂, h₂, h⟩ := h
  split at h
  · rw [bind_eq_ok] at h
    obtain ⟨⟨⟩, s₃, hin, h⟩ := h
    rw [bind_eq_ok] at h
    obtain ⟨⟨⟩, s₄, hzo, h⟩ := h
    obtain ⟨rfl, hcount, honly, hfree⟩ := abandonSuper_abandoned h
    refine ⟨fun _ => ?_, fun p hp => absurd hp (by simp)⟩
    obtain ⟨i₁, -, -, hcounting₁, m₁, hm₁, -⟩ := loadMap_counting (.start hv sb .inodes) h₁
    have hzones : ∀ j, (s₁.superBlock sb).map .zones j = none := by
      intro j
      rw [hm₁, SuperBlock.withMap_map_of_ne _ _ (by decide), Sys.setSuper_superBlock,
        Function.update_self]
      rfl
    obtain ⟨i₂, -, -, hcounting₂, -⟩ := loadMap_counting (hcounting₁.other hzones) h₂
    -- a bitmap is not complete: what was taken is given back
    obtain ⟨hreturned, hsame⟩ := putMaps_returned hcounting₂.bytes hin hzo
    have hback := hcounting₂.charged.returned hv hcounting₂.bytes hreturned
    exact ⟨fun b => (hcount b).trans (hback b),
      (hcounting₂.only.trans (.of_same hsame)).trans honly, hfree⟩
  · rename_i heq
    simp only [bind_eq_ok, pure_run, Res.ok.injEq] at h
    obtain ⟨⟨⟩, s₃, hin, ⟨⟩, s₄, hzo, ⟨⟩, s₅, hunlock, rfl, rfl⟩ := h
    refine ⟨fun hnone => absurd hnone (by simp), fun p hp => ⟨(Option.some.inj hp).symm, ?_, ?_⟩⟩
    swap
    · simp [unlockSuper_eq hunlock]
    -- both are complete, and their first bits are set
    have hfilled := loadMaps_filled hv hdev h₁ h₂ (not_not.mp heq)
    have hsame : s₄.superBlock = s₂.superBlock :=
      (markFirst_superBlock hzo).trans (markFirst_superBlock hin)
    have hrefs : SameRefs s₂ s₄ := (markFirst_sameRefs hin).trans (markFirst_sameRefs hzo)
    rw [unlockSuper_eq hunlock]
    refine hfilled.unlock hv (hrefs.trans (.of_buf rfl))
      ((OnlySuper.of_same hsame).trans fun p hp => ?_) ?_
    · simp [hp]
    · rw [Sys.setIntr_superBlock, Sys.setSuper_superBlock, Function.update_self, hsame]

theorem Sys.Spare.of_sameRefs {last : ℕ} (h : s.Spare dev last) (hrefs : SameRefs s v) :
    v.Spare dev last := by
  intro b block hkey htwo hlast hfull
  rw [hrefs.count b] at hfull
  have hold := hrefs.keys b (by omega)
  exact h b block ⟨hold.1.symm.trans hkey.1, hold.2.symm.trans hkey.2⟩ htwo hlast hfull

theorem Holding.since {first next : ℕ} (h : Holding v sb dev first next t)
    (hrefs : SameRefs s v) : Holding s sb dev first next t := by
  refine ⟨fun b => ?_, h.bytes, h.once, h.keyed, fun b hb => ?_, fun b hb hne => ?_⟩
  · rw [← hrefs.count b]
    exact h.charged b
  · rw [← hrefs.count b]
    exact h.spare b hb
  · have hold := hrefs.keys b hne
    have hkey := h.kept b hb (by rwa [hrefs.count b])
    exact ⟨hkey.1.trans hold.1, hkey.2.trans hold.2⟩

/-- The entry was filled after something that has not changed any reference. -/
theorem Filled.since (h : Filled v sb dev t) (hrefs : SameRefs s v) (honly : OnlySuper sb s v)
    (hdev : (v.superBlock sb).sDev = (s.superBlock sb).sDev)
    (himount : (v.superBlock sb).sImount = (s.superBlock sb).sImount) : Filled s sb dev t :=
  ⟨honly.trans h.only, h.sDev.trans hdev, h.sImount.trans himount, h.full,
    fun hspare => (h.holding (hspare.of_sameRefs hrefs)).since hrefs⟩

theorem Abandoned.since (h : Abandoned v sb t) (hrefs : SameRefs s v)
    (honly : OnlySuper sb s v) : Abandoned s sb t :=
  ⟨fun b => (h.count b).trans (hrefs.count b), honly.trans h.only, h.free⟩

/-- What `read_super` does with an entry it has taken. -/
structure Outcome (s : Sys n) (sb : Fin nrSuper) (dev : ℕ) (found : Option (Fin nrSuper))
    (s' : Sys n) : Prop where
  failed : found = none → Abandoned s sb s'
  mounted : ∀ p, found = some p → p = sb ∧ Filled s sb dev s' ∧ (s'.superBlock sb).sLock = false

theorem fillSuper_outcome {found : Option (Fin nrSuper)} (hs : s.Bytes) (hdev : dev < 65536)
    (h : fillSuper sb dev env k s = .ok found s') : Outcome s sb dev found s' := by
  unfold fillSuper at h
  rw [bind_eq_ok] at h
  obtain ⟨⟨⟩, s₁, hlock, h⟩ := h
  rw [(lockSuper_eq hlock).1, bind_eq_ok] at h
  obtain ⟨bh, s₂, hread, h⟩ := h
  obtain ⟨hcharged, hbytes⟩ := readBuff_charged (s := s.setIntr true) hs hread
  have hsame : s₂.superBlock = s.superBlock := (readBuff_superBlock hread).trans rfl
  cases bh with
  | none =>
      -- block 1 cannot be read
      obtain ⟨rfl, hcount, honly, hfree⟩ := abandonSuper_abandoned h
      refine ⟨fun _ => ⟨fun b => ?_, (OnlySuper.of_same hsame).trans honly, hfree⟩,
        fun p hp => absurd hp (by simp)⟩
      exact (hcount b).trans ((hcharged b).eq_of_lt_of_lt (hbytes b) (hs b))
  | some c =>
      simp only [parseSuper, update_bind, bind_eq_ok, read_bind, ite_run] at h
      obtain ⟨⟨⟩, s₃, hput, h⟩ := h
      have hreturned := putBuff_returned (s := s₂.setSuper sb _) hbytes hput
      have hsuper := putBuff_superBlock hput
      have hrefs : SameRefs s s₃ := by
        refine ⟨hcharged.returned hs hbytes hreturned, fun b hb => ?_⟩
        exact putBuff_keyed hput ((readBuff_keys hdev hread).1 b hb)
      have hentry : s₃.superBlock sb = (s.superBlock sb).load (s₂.buf c).bData := by
        rw [hsuper, Sys.setSuper_superBlock, Function.update_self, hsame]
      have honly : OnlySuper sb s s₃ := fun p hp => by
        rw [hsuper, Sys.setSuper_superBlock, Function.update_of_ne hp, hsame]
      split at h
      · -- the magic number is wrong
        obtain ⟨rfl, habandoned⟩ := abandonSuper_abandoned h
        exact ⟨fun _ => habandoned.since hrefs honly, fun p hp => absurd hp (by simp)⟩
      · have hs₃ : s₃.Bytes := hs.same hrefs.count
        obtain ⟨hnone, hsome⟩ := loadMaps_outcome hs₃ hdev h
        refine ⟨fun hn => (hnone hn).since hrefs honly, fun p hp => ?_⟩
        obtain ⟨rfl, hfilled, hlock⟩ := hsome p hp
        refine ⟨rfl, hfilled.since hrefs honly ?_ ?_, hlock⟩
        · rw [hentry]
          rfl
        · rw [hentry]
          rfl

/-! ## Mounting -/

/-- The entry `sb` is the only one of the device. -/
def Sys.OnlyEntry (s : Sys n) (dev : ℕ) (sb : Fin nrSuper) : Prop :=
  ∀ p, (s.superBlock p).sDev = dev ↔ p = sb

/-- The device can be unmounted: nothing is mounted on it, nobody has the entry locked, and the
references to the buffers of its bitmaps are there to be given back. -/
structure Unmountable (s : Sys n) (dev : ℕ) (sb : Fin nrSuper) : Prop where
  ready : Ready (fun _ => False) s
  only : s.OnlyEntry dev sb
  sLock : (s.superBlock sb).sLock = false
  sImount : (s.superBlock sb).sImount = none
  held : ∀ b, (s.superBlock sb).slots b ≤ (s.buf b).bCount

/-- The device is mounted in the entry `sb` since `s`: each of its bitmap buffers is held once,
to look it up again takes no reference, and to unmount it gives back what was taken. -/
structure MountedOnce (env : Env n) (dev : ℕ) (s t : Sys n) (sb : Fin nrSuper) : Prop where
  only : t.OnlyEntry dev sb
  sLock : (t.superBlock sb).sLock = false
  sImount : (t.superBlock sb).sImount = none
  held : ∀ kind (i : Fin mapSlots), i.val < (t.superBlock sb).blocks kind → ∃ b,
    (t.superBlock sb).map kind i = some b ∧
    t.Keyed b dev (slotBlock (2 + (t.superBlock sb).sImapBlocks) kind i) ∧
    (t.buf b).bCount = (s.buf b).bCount + 1
  others : ∀ b, (∀ kind i, (t.superBlock sb).map kind i ≠ some b) →
    (t.buf b).bCount = (s.buf b).bCount
  again : Does (readSuper dev) env t fun found u =>
    found = some sb ∧ u.superBlock = t.superBlock ∧ ∀ b, (u.buf b).bCount = (t.buf b).bCount
  put : ∀ u, Unmountable u dev sb → env.Works (fun _ => False) → dev ≠ rootDev →
    (∀ kind, (u.superBlock sb).map kind = (t.superBlock sb).map kind) →
    Does (putSuper dev) env u fun _ u' =>
      (∀ p, (u'.superBlock p).sDev ≠ dev) ∧ (u'.superBlock sb).sDev = 0 ∧
      ∀ b, (u'.buf b).bCount + (t.buf b).bCount = (u.buf b).bCount + (s.buf b).bCount

theorem Sys.OnlyEntry.first (h : s.OnlyEntry dev sb) : FirstSuper s dev sb :=
  ⟨(h sb).mpr rfl, fun p hp heq => absurd ((h p).mp heq) (ne_of_lt hp)⟩

theorem readSuper_again (h : s.OnlyEntry dev sb) (hdev : dev ≠ 0)
    (hlock : (s.superBlock sb).sLock = false) :
    Evals (readSuper dev) env s (some sb) (s.setIntr false) := by
  unfold readSuper
  rw [if_neg hdev]
  exact (h.first.findSuper_evals hdev hlock).bind (.of_eq fun _ => rfl)

/-- The entry of a super block is assigned. -/
theorem Ready.super (h : Ready (fun _ => False) s) (sb : Fin nrSuper)
    (f : SuperBlock n → SuperBlock n) : Ready (fun _ => False) (s.setSuper sb f) :=
  h.kept ⟨rfl, rfl, rfl, rfl, rfl, rfl, fun _ => rfl, fun _ _ => .of_eq rfl, [], rfl, by simp⟩
    rfl (h.links.congr ⟨fun _ => rfl, rfl, rfl⟩) (fun _ => rfl) h.count fun _ => .inl

/-- `put_super` frees the entry and gives back one reference for each slot. -/
theorem putSuper_returned (henv : env.Works fun _ => False) (h : Unmountable s dev sb)
    (hdev : dev ≠ 0) (hroot : dev ≠ rootDev) :
    Does (putSuper dev) env s fun _ s' => Returned (s.superBlock sb).slots s s' ∧
      OnlySuper sb s s' ∧ (s'.superBlock sb).sDev = 0 := by
  unfold putSuper
  rw [if_neg hroot]
  refine ((h.only.first.findSuper_evals hdev h.sLock).does
    (Q := fun found t => found = some sb ∧ t = s.setIntr false) ⟨rfl, rfl⟩).bind ?_
  rintro _ _ ⟨rfl, rfl⟩
  refine .bind_read ?_
  rw [Sys.setIntr_superBlock, h.sImount, if_neg (by simp)]
  refine ((lockSuper_evals (s := s.setIntr false) h.sLock).does
    (Q := fun _ t => t = s.setIntr true) rfl).bind ?_
  rintro _ _ rfl
  refine .bind_update ?_
  set v := (s.setIntr true).setSuper sb fun p => { p with sDev := 0 } with hv
  have hmaps : ∀ kind, (v.superBlock sb).map kind = (s.superBlock sb).map kind := by
    intro kind
    rw [hv, Sys.setSuper_superBlock, Function.update_self, Sys.setIntr_superBlock]
    cases kind <;> rfl
  have hv' : Ready (fun _ => False) v := (h.ready.submits henv (setIntr_submits true)).super sb _
  -- the buffers of both bitmaps are given back, those of the inodes first
  refine (hv'.putMap henv fun b => ?_).bind fun _ t ⟨ht, hsuper, hback⟩ =>
    (ht.putMap henv fun b => ?_).bind fun _ u ⟨_, hsuper', hback'⟩ => ?_
  · rw [hmaps]
    exact (Nat.le_add_right ..).trans (h.held b)
  · have hb := hback b
    have hall : (s.superBlock sb).slots b ≤ (v.buf b).bCount := h.held b
    rw [hmaps] at hb
    rw [hsuper, hmaps]
    unfold SuperBlock.slots at hall
    omega
  · rw [hmaps] at hback
    rw [hsuper, hmaps] at hback'
    have hothers : ∀ p, p ≠ sb → u.superBlock p = s.superBlock p := fun p hp => by
      rw [hsuper', hsuper, hv, Sys.setSuper_superBlock, Function.update_of_ne hp,
        Sys.setIntr_superBlock]
    refine .update ⟨hback.trans hback', fun p hp => ?_, ?_⟩
    · exact (Function.update_of_ne hp ..).trans (hothers p hp)
    · simp [hsuper', hsuper, hv]

theorem Holding.mountedOnce (hbytes : s.Bytes) (hdev : dev ≠ 0) (honly : t.OnlyEntry dev sb)
    (hlock : (t.superBlock sb).sLock = false) (himount : (t.superBlock sb).sImount = none)
    (hfull : ∀ kind (i : Fin mapSlots), i.val < (t.superBlock sb).blocks kind →
      ((t.superBlock sb).map kind i).isSome)
    (h : Holding s sb dev (2 + (t.superBlock sb).sImapBlocks) (t.superBlock sb).mapsEnd t) :
    MountedOnce env dev s t sb := by
  have hcount : ∀ b, (t.buf b).bCount = (s.buf b).bCount + (t.superBlock sb).slots b := by
    intro b
    by_cases hb : (t.superBlock sb).slots b = 0
    · rw [hb, h.free hbytes hb, Nat.add_zero]
    · have hone := h.once b
      rw [h.held hbytes hb]
      omega
  refine ⟨honly, hlock, himount, fun kind i hi => ?_,
    fun b hb => h.free hbytes (SuperBlock.slots_eq_zero.mpr hb),
    (readSuper_again honly hdev hlock).does ⟨rfl, rfl, fun _ => rfl⟩,
    fun u hu henv hroot hmap => ?_⟩
  · obtain ⟨b, hb⟩ := Option.isSome_iff_exists.mp (hfull kind i hi)
    have hin : (t.superBlock sb).slots b ≠ 0 := fun hzero =>
      SuperBlock.slots_eq_zero.mp hzero kind i hb
    exact ⟨b, hb, (h.keyed kind i b hb).1, h.held hbytes hin⟩
  · have hslots : (u.superBlock sb).slots = (t.superBlock sb).slots := by
      funext b
      rw [SuperBlock.slots, SuperBlock.slots, hmap, hmap]
    refine (putSuper_returned henv hu hdev hroot).mono fun _ u' ⟨hreturned, hothers, hfree⟩ =>
      ⟨fun p => ?_, hfree, fun b => ?_⟩
    · by_cases hp : p = sb
      · rw [hp, hfree]
        exact hdev.symm
      · rw [hothers p hp]
        exact fun heq => hp ((hu.only p).mp heq)
    · have hb := hreturned b
      rw [hslots] at hb
      rw [hcount b]
      omega

/-- `read_super` of a device that is not mounted takes a free entry, if there is one. -/
theorem readSuper_outcome {found : Option (Fin nrSuper)} (hbytes : s.Bytes) (hdev : dev ≠ 0)
    (hsmall : dev < 65536) (hnone : ∀ p, (s.superBlock p).sDev ≠ dev)
    (h : readSuper dev env k s = .ok found t) :
    found = none ∧ t = s ∨
      ∃ sb, Outcome (s.setSuper sb fun p => p.claim dev) sb dev found t := by
  unfold readSuper at h
  rw [if_neg hdev, bind_eq_ok] at h
  obtain ⟨entry, s₁, hfind, h⟩ := h
  cases findSuper_super hfind with
  | found hfirst _ _ _ => exact absurd hfirst.sDev (hnone _)
  | missing _ =>
      dsimp only at h
      rw [read_bind] at h
      cases hfree : (List.finRange nrSuper).find? fun p => (s.superBlock p).sDev = 0 with
      | none =>
          simp only [hfree, pure_run, Res.ok.injEq] at h
          exact .inl ⟨h.1.symm, h.2.symm⟩
      | some sb =>
          simp only [hfree, update_bind] at h
          exact .inr ⟨sb, fillSuper_outcome hbytes hsmall h⟩

/-- **Mounting is all or nothing, and balanced.**  If `read_super` of a device that is not
mounted fails, no entry is the device's and every count is as before; if it succeeds, and no
buffer of the bitmaps had 255 references, the device is mounted once, until `put_super` gives
back exactly what was taken. -/
theorem mount_balanced {found : Option (Fin nrSuper)} (hbytes : s.Bytes)
    (hdev : 0 < dev ∧ dev < 65536) (hunmounted : s.Unmounted dev)
    (h : readSuper dev env k s = .ok found t) :
    (found = none → (∀ p, (t.superBlock p).sDev ≠ dev) ∧
      ∀ b, (t.buf b).bCount = (s.buf b).bCount) ∧
    ∀ sb, found = some sb → s.Spare dev (t.superBlock sb).mapsEnd →
      MountedOnce env dev s t sb := by
  have hzero : dev ≠ 0 := by omega
  have hnone : ∀ p, (s.superBlock p).sDev ≠ dev := hunmounted.resolve_left hzero
  rcases readSuper_outcome hbytes hzero hdev.2 hnone h with ⟨rfl, rfl⟩ | ⟨sb, hfailed, hmounted⟩
  · exact ⟨fun _ => ⟨hnone, fun _ => rfl⟩, fun sb hsb => absurd hsb (by simp)⟩
  have hothers : OnlySuper sb (s.setSuper sb fun p => p.claim dev) t →
      ∀ p, p ≠ sb → (t.superBlock p).sDev ≠ dev := by
    intro honly p hp
    rw [honly p hp, Sys.setSuper_superBlock, Function.update_of_ne hp]
    exact hnone p
  refine ⟨fun hn => ⟨fun p => ?_, (hfailed hn).count⟩, fun q hq hspare => ?_⟩
  · by_cases hp : p = sb
    · rw [hp, (hfailed hn).free]
      exact hzero.symm
    · exact hothers (hfailed hn).only p hp
  · obtain ⟨rfl, hfilled, hlock⟩ := hmounted q hq
    have hsDev : (t.superBlock q).sDev = dev := by
      rw [hfilled.sDev, Sys.setSuper_superBlock, Function.update_self]
      exact Nat.mod_eq_of_lt hdev.2
    have honly : t.OnlyEntry dev q := fun p =>
      ⟨fun hp => by_contra fun hne => hothers hfilled.only p hne hp, fun hp => hp ▸ hsDev⟩
    have himount : (t.superBlock q).sImount = none := by
      rw [hfilled.sImount, Sys.setSuper_superBlock, Function.update_self]
      rfl
    exact Holding.mountedOnce hbytes hzero honly hlock himount hfilled.full
      ((hfilled.holding (hspare.of_sameRefs (.of_buf rfl))).since (.of_buf rfl))

/-- The warm cache of a device with one block of each bitmap, and `count` references to the
block of the inode bitmap. -/
def mountable (count : ℕ) : Sys 32 :=
  (preread (superData 1)).setBuf 2 fun bh => { bh with bCount := count }

/-- The device is mounted. -/
def mountedTwice (count : ℕ) : Sys 32 :=
  (readSuper 0x300 (Env.diligent 0x50) 40 (mountable count)).state

theorem mountable_count (count : ℕ) (b : Fin 32) :
    ((mountable count).buf b).bCount = if b = 2 then count else 1 := by
  by_cases hb : b = 2
  · subst hb; simp [mountable]
  · simp [mountable, hb, preread]

theorem mountable_bytes {count : ℕ} (hcount : count < 256) : (mountable count).Bytes := by
  intro b
  rw [mountable_count]
  split
  · exact hcount
  · decide

theorem mountable_unmounted (count : ℕ) : (mountable count).Unmounted 0x300 :=
  .inr fun _ => by show 0 ≠ 0x300; decide

theorem mount_balanced_once : MountedOnce (Env.diligent 0x50) 0x300 (mountable 1)
    (mountedTwice 1) 0 :=
  (mount_balanced (mountable_bytes (by decide)) ⟨by decide, by decide⟩ (mountable_unmounted 1)
    (Res.eq_ok (show _ = some (some 0) by decide +kernel))).2 0 rfl fun b block _ _ _ => by
      rw [mountable_count, ite_self]
      decide

/-- One reference more to a buffer with 255 of them, and it counts as free. -/
theorem mount_overflows :
    ¬ ∀ (s t : Sys 32) (sb : Fin nrSuper), s.Bytes → s.Unmounted 0x300 →
      readSuper 0x300 (Env.diligent 0x50) 40 s = .ok (some sb) t →
      MountedOnce (Env.diligent 0x50) 0x300 s t sb := by
  intro h
  have hmounted := h (mountable 255) (mountedTwice 255) 0 (mountable_bytes (by decide))
    (mountable_unmounted 255) (Res.eq_ok (show _ = some (some 0) by decide +kernel))
  obtain ⟨b, hb, -, hcount⟩ := hmounted.held .inodes 0 (by decide +kernel)
  have hslot : ((mountedTwice 255).superBlock 0).map .inodes 0 = some 2 := by decide +kernel
  obtain rfl := Option.some.inj (hslot.symm.trans hb)
  have hzero : ((mountedTwice 255).buf 2).bCount = 0 := by decide +kernel
  rw [hzero] at hcount
  omega

end EgGS
