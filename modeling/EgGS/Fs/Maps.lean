import EgGS.Cache.Hits
import EgGS.Cache.Stops
import EgGS.Fs.Steps

/-!
# The bitmap slots of a super block

`read_super` takes the numbers of bitmap blocks from block 1 of the device and reads that
many blocks into arrays of eight slots.  It does not look whether they fit, nor whether
there is a block at all.

* `read_super_bounded`: it stays inside the arrays, and leaves a super block behind that the
  four bitmap functions can use, exactly if both numbers are between 1 and 8.
-/

namespace EgGS

open Lib Prog Relation

variable {n : ℕ} {env : Env n} {k : ℕ} {s s' t : Sys n} {sb : Fin nrSuper} {dev block : ℕ}
variable {kind : MapKind}

/-- The accesses outside the arrays of a super block, and those through an empty slot. -/
def MapFault (why : Stop) : Prop :=
  why = .fault "bitmap slot out of range" ∨ why = .fault "NULL bitmap slot"

theorem mapFault_foreign : Foreign MapFault where
  panic _ _ := by simp [MapFault]
  spin := by simp [MapFault]
  division := by simp [MapFault]
  null := by simp [MapFault]

/-- The slots in use are inside the arrays and hold buffers, and so does the first. -/
structure SuperBlock.Mapped (p : SuperBlock n) : Prop where
  bound : ∀ kind, p.blocks kind ≤ mapSlots
  slots : ∀ kind (i : Fin mapSlots), i.val < p.blocks kind ∨ i = 0 → (p.map kind i).isSome
  words : p.sNinodes < 65536 ∧ p.sNzones < 65536

theorem SuperBlock.Mapped.unlock {p : SuperBlock n} (h : p.Mapped) :
    { p with sLock := false }.Mapped where
  bound kind := by
    cases kind with
    | inodes => exact h.bound .inodes
    | zones => exact h.bound .zones
  slots kind i hi := by
    cases kind with
    | inodes => exact h.slots .inodes i hi
    | zones => exact h.slots .zones i hi
  words := h.words

/-! ## The four bitmap functions -/

/-- The four bitmap functions stay inside the arrays. -/
structure BitmapsSafe (env : Env n) (dev : ℕ) (s : Sys n) : Prop where
  addInode : Avoids MapFault (addInodeBitmap dev) env s
  freeInode : ∀ num, Avoids MapFault (freeInodeBitmap dev num) env s
  addZone : Avoids MapFault (addZoneBitmap dev) env s
  freeZone : ∀ block, Avoids MapFault (freeZoneBitmap dev block) env s

theorem scanMaps_avoids {map : Fin mapSlots → Option (Fin n)} {blocks : ℕ}
    (hbound : blocks ≤ mapSlots) (s : Sys n) : Avoids MapFault (scanMaps map blocks) env s := by
  refine loop_avoids mapFault_foreign (fun i s => .bind .read fun _ _ s _ =>
    .ite (fun hi => ?_) fun _ => .pure _) _ s
  rw [dif_pos (hi.trans_le hbound)]
  cases map ⟨i, hi.trans_le hbound⟩ with
  | none => exact .pure _
  | some bh => exact .ite (fun _ => .pure _) fun _ => .pure _

/-- A bitmap function that finds a mapped super block. -/
theorem withSuper_avoids {α : Type} {f : Fin nrSuper → P n α} {message : String}
    (hfind : ∀ k p u, findSuper dev env k s = .ok (some p) u → (u.superBlock p).Mapped)
    (hf : ∀ p (u : Sys n), (u.superBlock p).Mapped → Avoids MapFault (f p) env u) :
    Avoids MapFault (findSuper dev >>= fun found =>
      match found with
      | none => panic message
      | some p => f p) env s := by
  refine .bind (findSuper_avoids mapFault_foreign dev s) fun k found u hrun => ?_
  cases found with
  | none => exact .halt (by simp [MapFault])
  | some p => exact hf p u (hfind k p u hrun)

theorem bitmapsSafe_of_mapped
    (hfind : ∀ k p u, findSuper dev env k s = .ok (some p) u → (u.superBlock p).Mapped) :
    BitmapsSafe env dev s where
  addInode := by
    refine withSuper_avoids hfind fun p u hp => .bind_read ?_
    refine .bind (scanMaps_avoids (hp.bound .inodes) u) fun _ found v _ => ?_
    cases found with
    | none => exact .pure 0
    | some x =>
        exact .ite (fun _ => .pure 0) fun _ =>
          .bind (markBit_avoids mapFault_foreign _ _ (by simp [panicMessages]) v)
            fun _ _ _ _ => .pure _
  freeInode num := by
    refine withSuper_avoids hfind fun p u hp => .bind_read ?_
    refine guard_avoids mapFault_foreign (by simp [panicMessages]) fun hnum => ?_
    -- a number of 16 bits is in one of the eight blocks
    have hslot : num / 8192 < mapSlots := by
      have := hp.words.1
      simp only [mapSlots]
      omega
    rw [dif_pos hslot]
    cases (u.superBlock p).sImap ⟨num / 8192, hslot⟩ with
    | none => exact .halt (mapFault_foreign.panic _ (by simp [panicMessages]))
    | some bh => exact unmarkBit_avoids bh _ u
  addZone := by
    refine withSuper_avoids hfind fun p u hp => .bind_read ?_
    refine .bind (scanMaps_avoids (hp.bound .zones) u) fun _ found v _ => ?_
    cases found with
    | none => exact .pure 0
    | some x =>
        exact .ite (fun _ => .pure 0) fun _ =>
          .bind (markBit_avoids mapFault_foreign _ _ (by simp [panicMessages]) v)
            fun _ _ _ _ => .pure _
  freeZone block := by
    refine withSuper_avoids hfind fun p u hp => .bind_read ?_
    refine guard_avoids mapFault_foreign (by simp [panicMessages]) fun hblock => ?_
    have hslot : (block - (u.superBlock p).sFirstdatazone + 1) / 8192 < mapSlots := by
      have := hp.words.2
      simp only [mapSlots]
      omega
    rw [dif_pos hslot]
    cases (u.superBlock p).sZmap ⟨_, hslot⟩ with
    | none => exact .halt (mapFault_foreign.panic _ (by simp [panicMessages]))
    | some bh => exact unmarkBit_avoids bh _ u

/-! ## Reading a bitmap -/

/-- The super block with other slots. -/
def SuperBlock.withMap (p : SuperBlock n) (kind : MapKind) (m : Fin mapSlots → Option (Fin n)) :
    SuperBlock n :=
  match kind with
  | .inodes => { p with sImap := m }
  | .zones => { p with sZmap := m }

namespace SuperBlock

variable (p : SuperBlock n) (m : Fin mapSlots → Option (Fin n))

@[simp] theorem withMap_blocks (kind kind' : MapKind) :
    (p.withMap kind m).blocks kind' = p.blocks kind' := by
  cases kind <;> cases kind' <;> rfl

@[simp] theorem withMap_map (kind : MapKind) : (p.withMap kind m).map kind = m := by
  cases kind <;> rfl

theorem withMap_map_of_ne {kind kind' : MapKind} (h : kind' ≠ kind) :
    (p.withMap kind m).map kind' = p.map kind' := by
  cases kind <;> cases kind' <;> first | rfl | exact absurd rfl h

@[simp] theorem withMap_words (kind : MapKind) :
    (p.withMap kind m).sNinodes = p.sNinodes ∧ (p.withMap kind m).sNzones = p.sNzones := by
  cases kind <;> exact ⟨rfl, rfl⟩

theorem setMap_withMap (kind : MapKind) (i : Fin mapSlots) (bh : Option (Fin n)) :
    (p.withMap kind m).setMap kind i bh = p.withMap kind (Function.update m i bh) := by
  cases kind <;> rfl

theorem withMap_self (kind : MapKind) : p.withMap kind (p.map kind) = p := by
  cases kind <;> rfl

end SuperBlock

/-- A bitmap is being read: the first `i` slots hold buffers, and only the slots of this
bitmap have changed. -/
def Loading (s : Sys n) (sb : Fin nrSuper) (kind : MapKind) (i : ℕ) (t : Sys n) : Prop :=
  ∃ m, t.superBlock sb = (s.superBlock sb).withMap kind m ∧
    ∀ j : Fin mapSlots, j.val < i → (m j).isSome

theorem Loading.start (s : Sys n) (sb : Fin nrSuper) (kind : MapKind) : Loading s sb kind 0 s :=
  ⟨_, ((s.superBlock sb).withMap_self kind).symm, fun _ hj => absurd hj (Nat.not_lt_zero _)⟩

theorem Loading.blocks {i : ℕ} (h : Loading s sb kind i t) (kind' : MapKind) :
    (t.superBlock sb).blocks kind' = (s.superBlock sb).blocks kind' := by
  obtain ⟨m, heq, -⟩ := h
  rw [heq, SuperBlock.withMap_blocks]

/-- The next slot is filled. -/
theorem Loading.store {i : ℕ} (h : Loading s sb kind i t) (hi : i < mapSlots)
    (bh : Option (Fin n)) :
    let u := t.setSuper sb fun p => p.setMap kind ⟨i, hi⟩ bh
    Loading s sb kind i u ∧ (bh.isSome → Loading s sb kind (i + 1) u) := by
  obtain ⟨m, heq, hsome⟩ := h
  have hset : (t.setSuper sb fun p => p.setMap kind ⟨i, hi⟩ bh).superBlock sb =
      (s.superBlock sb).withMap kind (Function.update m ⟨i, hi⟩ bh) := by
    rw [← SuperBlock.setMap_withMap, ← heq]
    exact Function.update_self ..
  refine ⟨⟨_, hset, fun j hj => ?_⟩, fun hbh => ⟨_, hset, fun j hj => ?_⟩⟩
  · rw [Function.update_of_ne (fun hji => by simp [hji] at hj)]
    exact hsome j hj
  · by_cases hji : j = ⟨i, hi⟩
    · rw [hji, Function.update_self]
      exact hbh
    · rw [Function.update_of_ne hji]
      have hne : j.val ≠ i := fun heq => hji (Fin.ext heq)
      exact hsome j (by omega)

/-- Reading a block leaves the tables alone. -/
theorem readBuff_superBlock {found : Option (Fin n)}
    (h : readBuff dev block env k s = .ok found s') : s'.superBlock = s.superBlock :=
  (CachePath.tables (readBuff_steps trivial h)).2

/-- The loop stays inside the array if the number of blocks does. -/
theorem loadMap_avoids (hbound : (s.superBlock sb).blocks kind ≤ mapSlots) :
    Avoids MapFault (loadMap sb dev kind block) env s := by
  refine iterate_avoids (I := fun _ t => (t.superBlock sb).blocks kind ≤ mapSlots)
    mapFault_foreign.spin (fun x t hI => ?_) (fun x t x' t' k hI hbody => ?_) hbound
  · refine .bind_read (.ite (fun hi => ?_) fun _ => .pure _)
    refine .bind (readBuff_avoids mapFault_foreign dev _ t) fun _ bh u _ => ?_
    rw [dif_pos (hi.trans_le hI)]
    refine .bind (.update _) fun _ _ _ _ => ?_
    cases bh with
    | none => exact .pure _
    | some b => exact .pure _
  · obtain ⟨i, block'⟩ := x
    unfold loadRound at hbody
    rw [read_bind, ite_run] at hbody
    split at hbody
    · rename_i hi
      obtain ⟨bh, u, hread, hbody⟩ := bind_eq_ok.mp hbody
      rw [dif_pos (hi.trans_le hI), update_bind] at hbody
      have hset : ((u.setSuper sb fun p => p.setMap kind ⟨i, hi.trans_le hI⟩ bh).superBlock
          sb).blocks kind ≤ mapSlots := by
        rw [Sys.setSuper_superBlock, Function.update_self, readBuff_superBlock hread]
        cases kind <;> exact hI
      cases bh with
      | none => simp at hbody
      | some b =>
          simp only [pure_run, Res.ok.injEq] at hbody
          exact hbody.2 ▸ hset
    · simp at hbody

/-- What the loop leaves: a buffer in each slot before the first that could not be read, and
the block behind the last that was. -/
theorem loadMap_loading {r : ℕ} (h : loadMap sb dev kind block env k s = .ok r s') :
    ∃ i ≤ (s.superBlock sb).blocks kind, r = block + i ∧ Loading s sb kind i s' := by
  -- the first `i` slots are filled, with the blocks that follow `block`
  refine iterate_ensures
    (I := fun x t => x.1 ≤ (s.superBlock sb).blocks kind ∧ x.2 = block + x.1 ∧
      Loading s sb kind x.1 t)
    (Q := fun r t => ∃ i ≤ (s.superBlock sb).blocks kind, r = block + i ∧ Loading s sb kind i t)
    ?_ ?_ ⟨Nat.zero_le _, rfl, .start s sb kind⟩ h
  · rintro ⟨i, b⟩ t ⟨i', b'⟩ t' ⟨hle, hb, hloading⟩ hbody
    dsimp only at hle hb hloading
    unfold loadRound at hbody
    rw [read_bind, ite_run] at hbody
    split at hbody
    · rename_i hi
      rw [hloading.blocks] at hi
      obtain ⟨bh, u, hread, hbody⟩ := bind_eq_ok.mp hbody
      have hloading' : Loading s sb kind i u := by
        unfold Loading
        rw [readBuff_superBlock hread]
        exact hloading
      split at hbody
      · rename_i hslot
        rw [update_bind] at hbody
        cases bh with
        | none => simp at hbody
        | some bh =>
            simp only [pure_run, Res.ok.injEq, Sum.inl.injEq, Prod.mk.injEq] at hbody
            obtain ⟨⟨rfl, rfl⟩, rfl⟩ := hbody
            exact ⟨hi, by rw [hb]; rfl, (hloading'.store hslot (some bh)).2 rfl⟩
      · simp at hbody
    · simp at hbody
  · rintro ⟨i, b⟩ t r t' ⟨hle, hb, hloading⟩ hbody
    dsimp only at hle hb hloading
    unfold loadRound at hbody
    rw [read_bind, ite_run] at hbody
    split at hbody
    · obtain ⟨bh, u, hread, hbody⟩ := bind_eq_ok.mp hbody
      have hloading' : Loading s sb kind i u := by
        unfold Loading
        rw [readBuff_superBlock hread]
        exact hloading
      split at hbody
      · rename_i hslot
        rw [update_bind] at hbody
        cases bh with
        | some bh => simp at hbody
        | none =>
            simp only [pure_run, Res.ok.injEq, Sum.inr.injEq] at hbody
            obtain ⟨rfl, rfl⟩ := hbody
            exact ⟨i, hle, hb, (hloading'.store hslot none).1⟩
      · simp at hbody
    · simp only [pure_run, Res.ok.injEq, Sum.inr.injEq] at hbody
      obtain ⟨rfl, rfl⟩ := hbody
      exact ⟨i, hle, hb, hloading⟩

/-! ## Reading both bitmaps -/

/-- Both loops came to their end: every slot in use holds a buffer. -/
theorem maps_loaded {b₁ b₂ k' : ℕ} {s₁ s₂ : Sys n}
    (h₁ : loadMap sb dev .inodes 2 env k s = .ok b₁ s₁)
    (h₂ : loadMap sb dev .zones b₁ env k' s₁ = .ok b₂ s₂)
    (heq : b₂ = 2 + (s₂.superBlock sb).sImapBlocks + (s₂.superBlock sb).sZmapBlocks) :
    (∀ kind, (s₂.superBlock sb).blocks kind = (s.superBlock sb).blocks kind) ∧
    ((s₂.superBlock sb).sNinodes = (s.superBlock sb).sNinodes ∧
      (s₂.superBlock sb).sNzones = (s.superBlock sb).sNzones) ∧
    ∀ kind (i : Fin mapSlots), i.val < (s.superBlock sb).blocks kind →
      ((s₂.superBlock sb).map kind i).isSome := by
  obtain ⟨i₁, hle₁, rfl, m₁, hm₁, hsome₁⟩ := loadMap_loading h₁
  obtain ⟨i₂, hle₂, rfl, m₂, hm₂, hsome₂⟩ := loadMap_loading h₂
  have hblocks : ∀ kind, (s₂.superBlock sb).blocks kind = (s.superBlock sb).blocks kind :=
    fun kind => by
    rw [hm₂, hm₁, SuperBlock.withMap_blocks, SuperBlock.withMap_blocks]
  have hzones : (s₁.superBlock sb).blocks .zones = (s.superBlock sb).blocks .zones := by
    rw [hm₁, SuperBlock.withMap_blocks]
  have hin : (s₂.superBlock sb).sImapBlocks = (s.superBlock sb).blocks .inodes := hblocks .inodes
  have hzo : (s₂.superBlock sb).sZmapBlocks = (s.superBlock sb).blocks .zones := hblocks .zones
  rw [hzones] at hle₂
  rw [hin, hzo] at heq
  refine ⟨hblocks, ?_, fun kind i hi => ?_⟩
  · rw [hm₂, hm₁, (SuperBlock.withMap_words _ _ _).1, (SuperBlock.withMap_words _ _ _).1,
      (SuperBlock.withMap_words _ _ _).2, (SuperBlock.withMap_words _ _ _).2]
    exact ⟨rfl, rfl⟩
  · cases kind with
    | inodes =>
        rw [hm₂, SuperBlock.withMap_map_of_ne _ _ (by decide), hm₁, SuperBlock.withMap_map]
        exact hsome₁ i (by omega)
    | zones =>
        rw [hm₂, SuperBlock.withMap_map]
        exact hsome₂ i (by omega)

theorem putMap_avoids (sb : Fin nrSuper) (kind : MapKind) (s : Sys n) :
    Avoids MapFault (putMap sb kind) env s :=
  forEach_avoids (fun _ _ => .bind .read fun _ _ s _ => putBuff_avoids mapFault_foreign _ s) _ s

theorem abandonSuper_avoids (sb : Fin nrSuper) (s : Sys n) :
    Avoids MapFault (abandonSuper sb) env s :=
  .bind (.update _) fun _ _ s _ => .bind (unlockSuper_avoids sb s) fun _ _ _ _ => .pure none

theorem markFirst_avoids (h : ((s.superBlock sb).map kind 0).isSome) :
    Avoids MapFault (markFirst sb kind) env s := by
  obtain ⟨bh, hbh⟩ := Option.isSome_iff_exists.mp h
  refine .bind_read ?_
  rw [hbh]
  exact .update _

theorem markFirst_superBlock {u : Unit} (h : markFirst sb kind env k s = .ok u s') :
    s'.superBlock = s.superBlock := by
  unfold markFirst at h
  rw [read_bind] at h
  cases hmap : (s.superBlock sb).map kind 0 with
  | none => simp [hmap] at h
  | some bh =>
      simp only [hmap, update_run, Res.ok.injEq, true_and] at h
      exact h ▸ rfl

/-- The numbers of bitmap blocks with which `read_super` can work. -/
def Countable (p : SuperBlock n) : Prop := ∀ kind, 1 ≤ p.blocks kind ∧ p.blocks kind ≤ mapSlots

theorem clearMaps_blocks (p : SuperBlock n) (kind : MapKind) :
    p.clearMaps.blocks kind = p.blocks kind := by
  cases kind <;> rfl

/-- With such numbers the end of `read_super` stays inside the arrays and leaves a usable
super block. -/
theorem loadMaps_mapped (h : Countable (s.superBlock sb))
    (hwords : (s.superBlock sb).sNinodes < 65536 ∧ (s.superBlock sb).sNzones < 65536) :
    Avoids MapFault (loadMaps sb dev) env s ∧ ∀ k found s',
      loadMaps sb dev env k s = .ok (some found) s' → (s'.superBlock found).Mapped := by
  set s₀ := s.setSuper sb SuperBlock.clearMaps with hs₀
  have hclear : s₀.superBlock sb = (s.superBlock sb).clearMaps := by simp [hs₀]
  have hblocks : ∀ kind, (s₀.superBlock sb).blocks kind = (s.superBlock sb).blocks kind :=
    fun kind => by rw [hclear, clearMaps_blocks]
  -- what both loops leave when all blocks could be read
  have hloaded : ∀ {k k' b₁ b₂ s₁ s₂}, loadMap sb dev .inodes 2 env k s₀ = .ok b₁ s₁ →
      loadMap sb dev .zones b₁ env k' s₁ = .ok b₂ s₂ →
      ¬ b₂ ≠ 2 + (s₂.superBlock sb).sImapBlocks + (s₂.superBlock sb).sZmapBlocks →
      (s₂.superBlock sb).Mapped := by
    intro k k' b₁ b₂ s₁ s₂ h₁ h₂ heq
    obtain ⟨hsame, hw, hsome⟩ := maps_loaded h₁ h₂ (not_not.mp heq)
    refine ⟨fun kind => ?_, fun kind i hi => hsome kind i ?_, ?_⟩
    · rw [hsame, hblocks]
      exact (h kind).2
    · have hpos := (h kind).1
      rcases hi with hi | rfl
      · rwa [hsame] at hi
      · rw [hblocks]
        exact hpos
    · rw [hw.1, hw.2, hclear]
      exact hwords
  constructor
  · refine .bind (.update _) fun _ _ s₀' h₀ => ?_
    simp only [update_run, Res.ok.injEq, true_and] at h₀
    subst h₀
    refine .bind (loadMap_avoids (by rw [hblocks]; exact (h .inodes).2)) fun k b₁ s₁ h₁ => ?_
    obtain ⟨i, -, -, hloading⟩ := loadMap_loading h₁
    refine .bind (loadMap_avoids (by rw [hloading.blocks, hblocks]; exact (h .zones).2))
      fun k' b₂ s₂ h₂ => .bind_read (.ite (fun _ => ?_) fun heq => ?_)
    · exact .bind (putMap_avoids sb _ s₂) fun _ _ s _ => .bind (putMap_avoids sb _ s)
        fun _ _ s _ => abandonSuper_avoids sb s
    · -- all blocks were read, so bit 0 of both bitmaps has its slot
      have hmapped := hloaded h₁ h₂ heq
      refine .bind (markFirst_avoids (hmapped.slots .inodes 0 (.inr rfl))) fun _ _ s₃ h₃ => ?_
      have hsame := markFirst_superBlock h₃
      refine .bind (markFirst_avoids (by rw [hsame]; exact hmapped.slots .zones 0 (.inr rfl)))
        fun _ _ s₄ _ => .bind (unlockSuper_avoids sb s₄) fun _ _ _ _ => .pure _
  · intro k found s' hrun
    obtain ⟨⟨⟩, s₀', h₀, hrun⟩ := bind_eq_ok.mp hrun
    simp only [update_run, Res.ok.injEq, true_and] at h₀
    subst h₀
    simp only [bind_eq_ok, read_bind, ite_run] at hrun
    obtain ⟨b₁, s₁, h₁, b₂, s₂, h₂, hrun⟩ := hrun
    split at hrun
    · simp only [abandonSuper, bind_eq_ok, pure_run, Res.ok.injEq] at hrun
      -- a block could not be read, so nothing is mounted
      obtain ⟨-, -, -, -, -, -, -, -, -, -, -, -, hnone, -⟩ := hrun
      exact absurd hnone (by simp)
    · rename_i heq
      have hmapped := hloaded h₁ h₂ heq
      simp only [bind_eq_ok, pure_run, Res.ok.injEq, Option.some.injEq] at hrun
      obtain ⟨_, s₃, h₃, _, s₄, h₄, _, s₅, h₅, rfl, rfl⟩ := hrun
      rw [unlockSuper_eq h₅, Sys.setIntr_superBlock, Sys.setSuper_superBlock,
        Function.update_self, markFirst_superBlock h₄, markFirst_superBlock h₃]
      exact hmapped.unlock

/-! ## What block 1 may say -/

/-- With the contents `data` of block 1, `read_super` stays inside the arrays, and the super
block it returns has a buffer in every slot in use and in the first of each array, so that
the four bitmap functions stay inside the arrays wherever they find it. -/
def ParsedSafely (env : Env n) (data : Block) : Prop :=
  ∀ (s : Sys n) (sb : Fin nrSuper) (dev : ℕ) (bh : Fin n), (s.buf bh).bData = data →
    Avoids MapFault (parseSuper sb dev bh) env s ∧
    ∀ k found s', parseSuper sb dev bh env k s = .ok (some found) s' →
      (∀ kind (i : ℕ), i < (s'.superBlock found).blocks kind ∨ i = 0 →
        ∃ hi : i < mapSlots, ((s'.superBlock found).map kind ⟨i, hi⟩).isSome) ∧
      ∀ t dev', (∀ k p u, findSuper dev' env k t = .ok (some p) u →
        u.superBlock p = s'.superBlock found) → BitmapsSafe env dev' t

/-- The numbers of bitmap blocks in block 1. -/
def superBlocks (data : Block) : MapKind → ℕ
  | .inodes => (data.word 2).toNat
  | .zones => (data.word 3).toNat

theorem load_blocks (p : SuperBlock n) (data : Block) (kind : MapKind) :
    (p.load data).blocks kind = superBlocks data kind := by
  cases kind <;> rfl

theorem parsedSafely_of_countable {data : Block}
    (h : ∀ kind, 1 ≤ superBlocks data kind ∧ superBlocks data kind ≤ mapSlots) :
    ParsedSafely env data := by
  rintro s sb dev bh rfl
  set s₁ := s.setSuper sb fun p => p.load (s.buf bh).bData with hs₁
  have hload : s₁.superBlock sb = (s.superBlock sb).load (s.buf bh).bData := by simp [hs₁]
  have hput : ∀ {k u s₂}, putBuff (some bh) env k s₁ = .ok u s₂ →
      s₂.superBlock = s₁.superBlock := fun hrun => (CachePath.tables (putBuff_steps hrun)).2
  have hmaps : ∀ {s₂ : Sys n}, s₂.superBlock = s₁.superBlock →
      Countable (s₂.superBlock sb) ∧
        (s₂.superBlock sb).sNinodes < 65536 ∧ (s₂.superBlock sb).sNzones < 65536 := by
    intro s₂ hsame
    rw [hsame, hload]
    exact ⟨fun kind => by rw [load_blocks]; exact h kind, UInt16.toNat_lt _, UInt16.toNat_lt _⟩
  constructor
  · refine .bind (.update _) fun _ _ s₁' h₁ => ?_
    simp only [update_run, Res.ok.injEq, true_and] at h₁
    subst h₁
    refine .bind (putBuff_avoids mapFault_foreign _ _) fun _ _ s₂ h₂ => .bind_read ?_
    obtain ⟨hcount, hwords⟩ := hmaps (hput h₂)
    exact .ite (fun _ => abandonSuper_avoids sb s₂) fun _ => (loadMaps_mapped hcount hwords).1
  · -- what the super block has when it is handed out
    intro k found s' hrun
    obtain ⟨⟨⟩, s₁', h₁, hrun⟩ := bind_eq_ok.mp hrun
    simp only [update_run, Res.ok.injEq, true_and] at h₁
    subst h₁
    simp only [bind_eq_ok, read_bind, ite_run] at hrun
    obtain ⟨⟨⟩, s₂, h₂, hrun⟩ := hrun
    obtain ⟨hcount, hwords⟩ := hmaps (hput h₂)
    split at hrun
    · simp only [abandonSuper, bind_eq_ok, pure_run, Res.ok.injEq] at hrun
      obtain ⟨-, -, -, -, -, -, hnone, -⟩ := hrun
      exact absurd hnone (by simp)
    · have hmapped := (loadMaps_mapped hcount hwords).2 k found s' hrun
      refine ⟨fun kind i hi => ?_, fun t dev' hfind => bitmapsSafe_of_mapped fun k p u hp => ?_⟩
      · have hlt : i < mapSlots := by
          rcases hi with hi | rfl
          · exact hi.trans_le (hmapped.bound kind)
          · decide
        refine ⟨hlt, hmapped.slots kind ⟨i, hlt⟩ ?_⟩
        rcases hi with hi | rfl
        · exact .inl hi
        · exact .inr rfl
      · rw [hfind k p u hp]
        exact hmapped

/-! ## Counts that are too large or zero -/

/-- A warm cache in which header `b` belongs to block `b` of the device. -/
structure Stocked (dev : ℕ) (s : Sys n) : Prop where
  warm : Warm s
  keyed : ∀ b : Fin n, s.Keyed b dev b.val

theorem Stocked.hit (h : Stocked dev s) (b : Fin n) : Stocked dev (s.hit b) :=
  ⟨h.warm.hit b, fun c => (s.hit_keyed b c).mpr (h.keyed c)⟩

theorem Stocked.congr (h : Stocked dev s) (hbuf : s'.buf = s.buf)
    (htable : s'.hashTable = s.hashTable) (hfree : s'.freeList = s.freeList) : Stocked dev s' where
  warm := h.warm.congr (h.warm.links.congr ⟨fun b => by rw [hbuf], htable, hfree⟩)
    fun b => by rw [hbuf]; exact ⟨rfl, rfl⟩
  keyed b := by rw [Sys.Keyed, hbuf]; exact h.keyed b

theorem Stocked.setSuper (h : Stocked dev s) (sb : Fin nrSuper) (f : SuperBlock n → SuperBlock n) :
    Stocked dev (s.setSuper sb f) := h.congr rfl rfl rfl

/-- The state after one round of the loop that reads a bitmap. -/
def Sys.fillSlot (s : Sys n) (sb : Fin nrSuper) (kind : MapKind) (i : Fin mapSlots) (b : Fin n) :
    Sys n :=
  (s.hit b).setSuper sb fun p => p.setMap kind i (some b)

theorem fillSlot_blocks (s : Sys n) (sb : Fin nrSuper) (kind : MapKind) (i : Fin mapSlots)
    (b : Fin n) (kind' : MapKind) : ((s.fillSlot sb kind i b).superBlock sb).blocks kind' =
      (s.superBlock sb).blocks kind' := by
  rw [Sys.fillSlot, Sys.setSuper_superBlock, Function.update_self]
  cases kind <;> cases kind' <;> rfl

section Warm

variable (hdev : dev ≠ 0)

include hdev

/-- In a stocked cache the loop reads one block after the other. -/
theorem loadMap_round (h : Stocked dev s) {i : ℕ} (hi : i < (s.superBlock sb).blocks kind)
    (hslot : i < mapSlots) (hblock : block < n) {r : Res (Sys n) ℕ}
    (hrest : LoopEnds (fun x => loadRound sb dev kind x.1 x.2) env.silent (i + 1, block + 1)
      (s.fillSlot sb kind ⟨i, hslot⟩ ⟨block, hblock⟩) r) :
    LoopEnds (fun x => loadRound sb dev kind x.1 x.2) env.silent (i, block) s r := by
  refine LoopEnds.step ?_ hrest
  have hread : Evals (readBuff dev block) env.silent s (some ⟨block, hblock⟩) _ :=
    readBuff_evals h.warm hdev (h.keyed ⟨block, hblock⟩)
  refine (Evals.of_eq fun _ => rfl : Evals Prog.read env.silent s s s).bind ?_
  rw [if_pos hi]
  refine hread.bind ?_
  rw [dif_pos hslot]
  exact .of_eq fun _ => rfl

/-- A count above eight leads to a store behind the array. -/
theorem loadMap_overruns (h : Stocked dev s) (hcount : mapSlots < (s.superBlock sb).blocks kind)
    (hfit : block + mapSlots < n) :
    Stops (.fault "bitmap slot out of range") (loadMap sb dev kind block) env.silent s := by
  suffices hloop : ∀ d i block (s : Sys n), i + d = mapSlots → Stocked dev s →
      mapSlots < (s.superBlock sb).blocks kind → block + d < n →
      ∃ t, LoopEnds (fun x => loadRound sb dev kind x.1 x.2) env.silent (i, block) s
        (.stop (.fault "bitmap slot out of range") t) by
    obtain ⟨t, hends⟩ := hloop mapSlots 0 block s (by simp) h hcount hfit
    exact hends.stops
  intro d
  induction d with
  | zero =>
      intro i block s hi h hcount hfit
      apply LoopEnds.stop
      have hread : Evals (readBuff dev block) env.silent s (some ⟨block, hfit⟩) _ :=
        readBuff_evals h.warm hdev (h.keyed ⟨block, hfit⟩)
      refine Stops.bind (Evals.of_eq fun _ => rfl : Evals Prog.read env.silent s s s) ?_
      dsimp only
      rw [if_pos (by omega)]
      refine Stops.bind hread ?_
      rw [dif_neg (by omega)]
      exact Stops.halt _ _ _
  | succ d ih =>
      intro i block s hi h hcount hfit
      obtain ⟨t, hends⟩ := ih (i + 1) (block + 1)
        (s.fillSlot sb kind ⟨i, by omega⟩ ⟨block, by omega⟩) (by omega) ((h.hit _).setSuper _ _)
        (by rwa [fillSlot_blocks]) (by omega)
      exact ⟨t, loadMap_round hdev h (by omega) (by omega) (by omega) hends⟩

variable (env kind block) in
/-- Up to eight blocks are all read. -/
theorem loadMap_fills (h : Stocked dev s) (hcount : (s.superBlock sb).blocks kind ≤ mapSlots)
    (hfit : block + (s.superBlock sb).blocks kind ≤ n) : ∃ s', Stocked dev s' ∧
      Evals (loadMap sb dev kind block) env.silent s
        (block + (s.superBlock sb).blocks kind) s' := by
  suffices hloop : ∀ d i block (s : Sys n), i + d = (s.superBlock sb).blocks kind →
      (s.superBlock sb).blocks kind ≤ mapSlots → Stocked dev s → block + d ≤ n →
      ∃ s', Stocked dev s' ∧ LoopEnds (fun x => loadRound sb dev kind x.1 x.2) env.silent
      (i, block) s
        (.ok (block + d) s') by
    obtain ⟨s', hs', hends⟩ := hloop _ 0 block s (Nat.zero_add _) hcount h hfit
    exact ⟨s', hs', hends.evals⟩
  intro d
  induction d with
  | zero =>
      intro i block s hi hcount h hfit
      refine ⟨s, h, .done (.of_eq fun _ => ?_)⟩
      simp only [loadRound, read_bind]
      rw [if_neg (by omega)]
      rfl
  | succ d ih =>
      intro i block s hi hcount h hfit
      obtain ⟨s', hs', hends⟩ := ih (i + 1) (block + 1)
        (s.fillSlot sb kind ⟨i, by omega⟩ ⟨block, by omega⟩) (by rw [fillSlot_blocks]; omega)
        (by rwa [fillSlot_blocks]) ((h.hit _).setSuper _ _) (by omega)
      refine ⟨s', hs', loadMap_round hdev h (by omega) (by omega) (by omega) ?_⟩
      rwa [Nat.add_right_comm, Nat.add_assoc] at hends

end Warm

/-- Without blocks nothing is read. -/
theorem loadMap_zero (hzero : (s.superBlock sb).blocks kind = 0) {r : ℕ}
    (h : loadMap sb dev kind block env k s = .ok r s') : s' = s := by
  refine iterate_ensures (I := fun x t => x = (0, block) ∧ t = s) (Q := fun _ t => t = s)
    ?_ ?_ ⟨rfl, rfl⟩ h
  · rintro x t x' t' ⟨rfl, rfl⟩ hbody
    simp [loadRound, hzero] at hbody
  · rintro x t r t' ⟨rfl, rfl⟩ hbody
    simp only [loadRound, read_bind, hzero, lt_irrefl, if_false, pure_run, Res.ok.injEq] at hbody
    exact hbody.2.symm

theorem markFirst_stops (h : (s.superBlock sb).map kind 0 = none) :
    Stops (.fault "NULL bitmap slot") (markFirst sb kind) env s :=
  ⟨s, 0, fun _ _ => by simp [markFirst, h]⟩

variable (env kind) in
theorem markFirst_evals (h : ((s.superBlock sb).map kind 0).isSome) :
    ∃ s', Evals (markFirst sb kind) env s () s' ∧ s'.superBlock = s.superBlock := by
  obtain ⟨bh, hbh⟩ := Option.isSome_iff_exists.mp h
  exact ⟨s.setBuf bh fun h => { h with bData := h.bData.setBit 0 },
    .of_eq fun _ => by simp [markFirst, hbh], rfl⟩

variable (env sb) in
/-- With other counts the end of `read_super` leaves the arrays or meets an empty slot. -/
theorem loadMaps_stops (hdev : dev ≠ 0) (h : Stocked dev s) (hn : 18 < n)
    (hcount : ¬ Countable (s.superBlock sb)) :
    ∃ why, MapFault why ∧ Stops why (loadMaps sb dev) env.silent s := by
  set s₀ := s.setSuper sb SuperBlock.clearMaps with hs₀
  have hclear : s₀.superBlock sb = (s.superBlock sb).clearMaps := by simp [hs₀]
  have h₀ : Stocked dev s₀ := h.setSuper sb _
  have hblocks : ∀ kind, (s₀.superBlock sb).blocks kind = (s.superBlock sb).blocks kind :=
    fun kind => by rw [hclear, clearMaps_blocks]
  have hnone : ∀ kind i, (s₀.superBlock sb).map kind i = none := by
    intro kind i
    rw [hclear]
    cases kind <;> rfl
  have hset : Evals (Prog.update (Sys.setSuper · sb SuperBlock.clearMaps)) env.silent s () s₀ :=
    .of_eq fun _ => rfl
  simp only [Countable, mapSlots] at hcount
  -- a bitmap of more than eight blocks runs over its slots while it is loaded
  by_cases himap : 8 < (s.superBlock sb).blocks .inodes
  · exact ⟨_, .inl rfl, .bind hset (.bind_left (loadMap_overruns hdev h₀ (by rwa [hblocks])
      (by simp only [mapSlots]; omega)))⟩
  obtain ⟨s₁, h₁, hrun₁⟩ := loadMap_fills env 2 .inodes hdev h₀
    (by rw [hblocks]; exact not_lt.mp himap) (by rw [hblocks]; omega)
  obtain ⟨k₁, hk₁⟩ := hrun₁.exists_run
  obtain ⟨i₁, -, -, hloading₁⟩ := loadMap_loading hk₁
  have hblocks₁ : ∀ kind, (s₁.superBlock sb).blocks kind = (s.superBlock sb).blocks kind :=
    fun kind => (hloading₁.blocks kind).trans (hblocks kind)
  by_cases hzmap : 8 < (s.superBlock sb).blocks .zones
  · exact ⟨_, .inl rfl, .bind hset (.bind hrun₁ (.bind_left (loadMap_overruns hdev h₁
      (by rwa [hblocks₁]) (by rw [hblocks]; simp only [mapSlots]; omega))))⟩
  obtain ⟨s₂, h₂, hrun₂⟩ := loadMap_fills env
    (2 + (s₀.superBlock sb).blocks .inodes) .zones hdev h₁
    (by rw [hblocks₁]; exact not_lt.mp hzmap) (by rw [hblocks, hblocks₁]; omega)
  obtain ⟨k₂, hk₂⟩ := hrun₂.exists_run
  obtain ⟨i₂, -, -, hloading₂⟩ := loadMap_loading hk₂
  have hblocks₂ : ∀ kind, (s₂.superBlock sb).blocks kind = (s.superBlock sb).blocks kind :=
    fun kind => (hloading₂.blocks kind).trans (hblocks₁ kind)
  -- a bitmap without blocks leaves its slots empty
  have hempty : ∃ kind, (s₂.superBlock sb).map kind 0 = none := by
    by_cases hin : (s.superBlock sb).blocks .inodes = 0
    · obtain rfl := loadMap_zero ((hblocks _).trans hin) hk₁
      obtain ⟨m, hm, -⟩ := hloading₂
      exact ⟨.inodes, by rw [hm, SuperBlock.withMap_map_of_ne _ _ (by decide), hnone]⟩
    · have hzo : (s.superBlock sb).blocks .zones = 0 := by
        by_contra hzo
        refine hcount fun kind => ?_
        cases kind <;> omega
      obtain rfl := loadMap_zero ((hblocks₁ _).trans hzo) hk₂
      obtain ⟨m, hm, -⟩ := hloading₁
      exact ⟨.zones, by rw [hm, SuperBlock.withMap_map_of_ne _ _ (by decide), hnone]⟩
  have hall : ¬ (2 + (s₀.superBlock sb).blocks .inodes + (s₁.superBlock sb).blocks .zones ≠
      2 + (s₂.superBlock sb).sImapBlocks + (s₂.superBlock sb).sZmapBlocks) := by
    have hin : (s₂.superBlock sb).sImapBlocks = _ := hblocks₂ .inodes
    have hzo : (s₂.superBlock sb).sZmapBlocks = _ := hblocks₂ .zones
    rw [hblocks, hblocks₁, hin, hzo]
    exact not_not.mpr rfl
  refine ⟨_, .inr rfl, .bind hset (.bind hrun₁ (.bind hrun₂ (.bind (.of_eq fun _ => rfl) ?_)))⟩
  rw [if_neg hall]
  -- setting bit 0 goes through the first slot of both bitmaps, and one of them is empty
  cases hslot : (s₂.superBlock sb).map .inodes 0 with
  | none => exact .bind_left (markFirst_stops hslot)
  | some bh =>
      obtain ⟨s₃, hmark, hsame⟩ := markFirst_evals env.silent .inodes
        (by rw [hslot]; rfl : ((s₂.superBlock sb).map .inodes 0).isSome)
      obtain ⟨kind, hkind⟩ := hempty
      cases kind with
      | inodes => simp [hslot] at hkind
      | zones => exact .bind hmark (.bind_left (markFirst_stops (by rw [hsame]; exact hkind)))

variable (env sb) in
/-- Nothing but block 1 decides whether `read_super` stays inside the arrays. -/
theorem parseSuper_stops (bh : Fin n) (hdev : dev ≠ 0) (h : Stocked dev s) (hn : 18 < n)
    (hheld : (s.buf bh).bCount ≠ 0) (hmagic : ((s.buf bh).bData.word 8).toNat = superMagic)
    (hcount : ¬ ∀ kind, 1 ≤ superBlocks (s.buf bh).bData kind ∧
      superBlocks (s.buf bh).bData kind ≤ mapSlots) :
    ∃ why, MapFault why ∧ Stops why (parseSuper sb dev bh) env.silent s := by
  set s₁ := s.setSuper sb fun p => p.load (s.buf bh).bData with hs₁
  have h₁ : Stocked dev s₁ := h.setSuper sb _
  set s₂ := (s₁.setIntr false).countDown bh with hs₂
  have h₂ : Stocked dev s₂ := by
    refine ⟨h₁.warm.congr ?_ fun c => ?_, fun c => ?_⟩
    · exact ((h₁.congr rfl rfl rfl : Stocked dev (s₁.setIntr false)).warm.links).congr
        (.setBuf fun _ => rfl)
    · by_cases hc : c = bh <;> simp [hs₂, Sys.countDown, hc]
    · have hkey := h₁.keyed c
      by_cases hc : c = bh <;> simpa [hs₂, Sys.countDown, Sys.Keyed, hc] using hkey
  have hload : s₂.superBlock sb = (s.superBlock sb).load (s.buf bh).bData := by
    simp [hs₂, hs₁, Sys.countDown]
  have hput : Evals (putBuff (some bh)) env.silent s₁ () s₂ :=
    putBuff_evals (h₁.warm.lock bh) hheld
  obtain ⟨why, hwhy, hstops⟩ := loadMaps_stops env sb hdev h₂ hn fun hc => hcount
    fun kind => by
      have := hc kind
      rwa [hload, load_blocks] at this
  refine ⟨why, hwhy, .bind (.of_eq fun _ => rfl) (.bind hput (.bind (.of_eq fun _ => rfl) ?_))⟩
  have hmagic' : ¬ (s₂.superBlock sb).sMagic ≠ superMagic := by
    rw [hload]
    exact not_not.mpr hmagic
  rwa [if_neg hmagic']

/-- A cache of 32 up-to-date blocks of device `0x300`, of which block 1 has the contents
`data` and is held. -/
def preread (data : Block) : Sys 32 :=
  { initBuff (Sys.load fun _ _ _ => 7 : Sys 32) with
    buf := fun b => { (initBuff (Sys.load fun _ _ _ => 7 : Sys 32)).buf b with
      bDev := 0x300, bBlocknr := b.val, bCount := 1, bUptodate := true
      bData := if b = 1 then data else zeroBlock }
    hashTable := fun h => (List.finRange 32).find? fun b => hashfn 0x300 b.val = h }

theorem hashfn_preread : ∀ b c : Fin 32, hashfn 0x300 b.val = hashfn 0x300 c.val → b = c := by
  decide

theorem preread_links (data : Block) : Links (preread data) where
  free := by
    obtain ⟨l, hl, hall⟩ := (Links.init (Sys.load fun _ _ _ => 7 : Sys 32)).free
    exact ⟨l, hl.congr (fun _ => rfl) (fun _ => rfl) rfl, hall⟩
  hashed := by
    refine ⟨fun h => ((preread data).hashTable h).toList, fun h => ?_, fun h b => ?_⟩
    · cases (preread data).hashTable h with
      | none => exact ⟨none, rfl, rfl⟩
      | some b => exact ⟨some b, rfl, rfl, rfl, rfl⟩
    · have hfind : (preread data).hashTable h = some b ↔ hashfn 0x300 b.val = h := by
        constructor
        · exact fun hb => by simpa using List.find?_some hb
        · intro hb
          cases hc : (preread data).hashTable h with
          | none =>
              have hne := List.find?_eq_none.mp hc b (List.mem_finRange b)
              simp [hb] at hne
          | some c =>
              have hash : hashfn 0x300 c.val = h := by simpa using List.find?_some hc
              rw [hashfn_preread c b (hash.trans hb.symm)]
      rw [Option.mem_toList, hfind]
      exact ⟨fun hb => ⟨by show 0x300 ≠ 0; decide, hb⟩, fun hb => hb.2⟩
  unhashed b hb := absurd hb (by show ¬ 0x300 = 0; decide)
  unique b c _ _ hnr := Fin.ext hnr

theorem preread_stocked (data : Block) : Stocked 0x300 (preread data) where
  warm := ⟨preread_links data, fun _ => rfl, fun _ => rfl⟩
  keyed _ := ⟨rfl, rfl⟩

/-- **The bitmap slots of a super block.**  For every contents of block 1 with the right
magic, `read_super` stays inside the arrays of slots and leaves a usable super block behind,
whatever the state and the disk, exactly if both counts are between 1 and 8. -/
theorem read_super_bounded (data : Block) (hmagic : (data.word 8).toNat = superMagic) :
    (∀ (n : ℕ) (env : Env n), ParsedSafely env data) ↔
      ∀ kind, 1 ≤ superBlocks data kind ∧ superBlocks data kind ≤ mapSlots := by
  refine ⟨fun h => ?_, fun h n env => parsedSafely_of_countable h⟩
  by_contra hcount
  obtain ⟨why, hwhy, hstops⟩ := parseSuper_stops (Env.diligent 0x50) 0 1 (by decide)
    (preread_stocked data) (by decide) (by show 1 ≠ 0; decide) hmagic hcount
  exact hstops.not_avoids hwhy (h 32 (Env.diligent 0x50).silent (preread data) 0 0x300 1 rfl).1

/-- Block 1 of a device with `imap` blocks of inode bitmap and one of zone bitmap. -/
def superData (imap : UInt8) : Block := fun i =>
  if i = 4 then imap else if i = 6 then 1 else if i = 16 then 0x8F else if i = 17 then 0x13 else 0

theorem read_super_bounded_one : ParsedSafely (Env.diligent 0x50 : Env 32) (superData 1) :=
  (read_super_bounded (superData 1) (by decide)).mpr
    (fun kind => by cases kind <;> decide) 32 (Env.diligent 0x50)

/-- With nine blocks of inode bitmap `read_super` stores behind `s_imap`. -/
theorem nine_maps_overrun :
    ¬ ∀ (data : Block), (data.word 8).toNat = superMagic →
      ∀ (n : ℕ) (env : Env n), ParsedSafely env data := by
  intro h
  have hcount : ¬ ∀ kind, 1 ≤ superBlocks (superData 9) kind ∧
      superBlocks (superData 9) kind ≤ mapSlots :=
    fun hall => absurd (hall .inodes).2 (by decide)
  obtain ⟨why, hwhy, hstops⟩ := parseSuper_stops (Env.diligent 0x50) 0 1 (by decide)
    (preread_stocked (superData 9)) (by decide) (by show 1 ≠ 0; decide)
    (show ((superData 9).word 8).toNat = superMagic by decide) hcount
  exact hstops.not_avoids hwhy
    (h (superData 9) (by decide) 32 (Env.diligent 0x50).silent
    (preread (superData 9)) 0 0x300 1 rfl).1

end EgGS
