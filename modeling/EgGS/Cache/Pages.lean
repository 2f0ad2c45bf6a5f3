import EgGS.Cache.Access

/-!
# Reading a page

`read_buff_page` takes the buffers of its four blocks and starts their reads.  Then it waits for
one after the other, copies those that are up to date to the page, and gives them all back.

A buffer that has been waited for has no request, so nothing changes it any more; the page
contains what the buffers contain at the end.

`Ready.pageBuffers` is the first loop and `Ready.copyAll` the second; `TakenAll` and `Copied` say
what each did, one constructor a block.  `Copied.page` puts the copies together: four copies to
quarters that do not overlap, so the order does not matter, and no other byte of the memory is
written.
-/

namespace EgGS

open Lib Prog Relation

variable {n : ℕ} {env : Env n} {k : ℕ} {s s' t : Sys n}
variable {b c : Fin n} {dev block address i : ℕ} {refs : Refs n}
variable {l : List (Option (Fin n) × ℕ)} {mem : ℕ → UInt8}

/-! ## The page -/

/-- The distance of the address `a` from `addr`, in 32 bits. -/
def offset (addr a : ℕ) : ℕ := (a + 4294967296 - addr % 4294967296) % 4294967296

theorem offset_add (addr : ℕ) {x : ℕ} (hx : x < 4294967296) :
    offset addr ((addr + x) % 4294967296) = x := by
  unfold offset
  omega

/-- The blocks of the page are next to each other. -/
theorem offset_block (addr a : ℕ) (hi : i < 4194304) :
    offset (addr + 1024 * i) a < 1024 ↔ offset addr a / 1024 = i := by
  unfold offset
  omega

theorem offset_byte (addr a : ℕ) (hi : offset addr a / 1024 = i) :
    offset (addr + 1024 * i) a = offset addr a % 1024 := by
  unfold offset at hi ⊢
  omega

/-- The memory after all buffers that are up to date have been copied to their places. -/
def Sys.page (s : Sys n) (address : ℕ) : List (Option (Fin n) × ℕ) → (ℕ → UInt8) → ℕ → UInt8
  | [], mem => mem
  | (none, _) :: l, mem => s.page address l mem
  | (some b, i) :: l, mem => s.page address l
      (if (s.buf b).bUptodate then copyBlk (s.buf b).bData (address + 1024 * i) mem else mem)

/-- A byte that belongs to no block that is up to date does not change. -/
theorem Sys.page_skip {a : ℕ} (hsmall : ∀ x ∈ l, x.2 < 4194304)
    (hnone : ∀ b i, (some b, i) ∈ l → offset address a / 1024 = i → (s.buf b).bUptodate = false) :
    s.page address l mem a = mem a := by
  induction l generalizing mem with
  | nil => rfl
  | cons x l ih =>
      have hsmall' : ∀ x ∈ l, x.2 < 4194304 := fun x hx => hsmall x (List.mem_cons_of_mem _ hx)
      have hnone' : ∀ b i, (some b, i) ∈ l → offset address a / 1024 = i →
          (s.buf b).bUptodate = false := fun b i hx => hnone b i (List.mem_cons_of_mem _ hx)
      obtain ⟨_ | b, i⟩ := x
      · exact ih hsmall' hnone'
      · rw [Sys.page, ih hsmall' hnone']
        split
        · rename_i hup
          refine dif_neg fun hlt => ?_
          have hblock := (offset_block address a (hsmall _ (List.mem_cons_self ..))).mp hlt
          exact absurd (hup.symm.trans (hnone b i (List.mem_cons_self ..) hblock)) (by decide)
        · rfl

/-- A byte of a block that is up to date is the byte of its buffer. -/
theorem Sys.page_hit {a : ℕ} (hsmall : ∀ x ∈ l, x.2 < 4194304) (hnodup : (l.map Prod.snd).Nodup)
    (hmem : (some b, i) ∈ l) (hup : (s.buf b).bUptodate = true) (hi : offset address a / 1024 = i) :
    s.page address l mem a =
    (s.buf b).bData ⟨offset address a % 1024, Nat.mod_lt _ (by decide)⟩ := by
  induction l generalizing mem with
  | nil => exact absurd hmem (by simp)
  | cons x l ih =>
      have hsmall' : ∀ x ∈ l, x.2 < 4194304 := fun x hx => hsmall x (List.mem_cons_of_mem _ hx)
      rw [List.map_cons, List.nodup_cons] at hnodup
      rcases List.mem_cons.mp hmem with rfl | hin
      · rw [Sys.page, if_pos hup, Sys.page_skip hsmall' fun c j hc hj => ?_]
        · have hlt := (offset_block address a (hsmall _ (List.mem_cons_self ..))).mpr hi
          refine (dif_pos hlt).trans (congrArg _ (Fin.ext ?_))
          exact offset_byte address a hi
        · refine absurd ?_ hnodup.1
          exact List.mem_map.mpr ⟨_, hc, hj.symm.trans hi⟩
      · obtain ⟨_ | c, j⟩ := x
        · exact ih hsmall' hnodup.2 hin
        · exact ih hsmall' hnodup.2 hin

/-! ## Copying -/

/-- One round of the second loop of `read_buff_page`. -/
def copyOut (address : ℕ) : Option (Fin n) × ℕ → P n Unit := fun (buf, i) =>
  match buf with
  | none => pure ()
  | some bh => do
    waitOnBuff bh
    Prog.update fun s =>
      if (s.buf bh).bUptodate then
        { s with mem := copyBlk (s.buf bh).bData (address + 1024 * i) s.mem }
      else s
    putBuff (some bh)

/-- The buffer `b` is copied to the address `addr` if it is up to date. -/
def Sys.copied (s : Sys n) (b : Fin n) (addr : ℕ) : Sys n :=
  { s with mem := if (s.buf b).bUptodate then copyBlk (s.buf b).bData addr s.mem else s.mem }

/-- The buffers of a list are waited for, copied to their places and given back. -/
inductive Copied (env : Env n) (address : ℕ) :
    List (Option (Fin n) × ℕ) → Sys n → Sys n → Prop
  | nil {s : Sys n} : Copied env address [] s s
  | skip {s s' : Sys n} {i : ℕ} {l : List (Option (Fin n) × ℕ)} : Copied env address l s s' →
      Copied env address ((none, i) :: l) s s'
  | copy {s t t' s' : Sys n} {b : Fin n} {i : ℕ} {l : List (Option (Fin n) × ℕ)} :
      Waits env s t → (t.buf b).bLock = false →
      Waits env (t.copied b (address + 1024 * i)) t' →
      (t'.buf b).bCount ≠ 0 → Copied env address l (t'.countDown b) s' →
      Copied env address ((some b, i) :: l) s s'

namespace Copied

theorem putAll (h : Copied env address l s s') : PutAll env (l.map Prod.fst) s s' := by
  induction h with
  | nil => exact .nil
  | skip _ ih => exact .skip ih
  | copy hwait _ hwait' hcount _ ih => exact .put _ (hwait.submits _) (hwait'.submits _) hcount ih

/-- No header gets another block. -/
theorem key (h : Copied env address l s s') (c : Fin n) : s'.key c = s.key c := by
  induction h with
  | nil => rfl
  | skip _ ih => exact ih
  | @copy s t t' s' b i l hwait _ hwait' _ _ ih =>
      have hdown : (t'.countDown b).key c = t'.key c :=
        (@Beside.countDown n (fun _ => 1) t' b).key c Nat.one_pos
      refine ih.trans (hdown.trans ((Sys.key_of_rest (hwait'.submits .idle).rest c).trans ?_))
      exact Sys.key_of_rest (hwait.submits .idle).rest c

end Copied

theorem Sys.countDown_core (s : Sys n) (b c : Fin n) :
    ((s.countDown b).buf c).bUptodate = (s.buf c).bUptodate ∧
      ((s.countDown b).buf c).bData = (s.buf c).bData := by
  rw [Sys.countDown, Sys.setBuf_at (·.bUptodate), Sys.setBuf_at (·.bData), ite_self, ite_self]
  exact ⟨rfl, rfl⟩

/-- The memory of the caller is none of the cache's business. -/
theorem Ready.copy (h : Ready (fun _ => False) s) (mem : ℕ → UInt8) :
    Ready (fun _ => False) { s with mem } :=
  h.kept ⟨rfl, rfl, rfl, rfl, rfl, rfl, fun _ => rfl, fun _ _ => .of_eq rfl, [], rfl, by simp⟩
    rfl (h.links.congr ⟨fun _ => rfl, rfl, rfl⟩) (fun _ => rfl) h.count fun _ => .inl

section
variable (henv : env.Works fun _ => False)
include henv

theorem Ready.waits (h : Ready (fun _ => False) s) (hwait : Waits env s s') :
    Ready (fun _ => False) s' :=
  h.submits henv (hwait.submits _)

/-- **The page is what the buffers contain at the end**, since a buffer that has been waited for
is left alone. -/
theorem Copied.page (h : Copied env address l s s') (hready : Ready (fun _ => False) s) :
    (∀ c, (∀ cmd, ¬ s.Queued c cmd) → (s'.buf c).bUptodate = (s.buf c).bUptodate ∧
      (s'.buf c).bData = (s.buf c).bData) ∧ s'.mem = s'.page address l s.mem := by
  induction h with
  | nil => exact ⟨fun _ _ => ⟨rfl, rfl⟩, rfl⟩
  | skip _ ih => exact ih hready
  | @copy s t t' s' b i l hwait hlock hwait' _ _ ih =>
      have ht := hready.waits henv hwait
      obtain ⟨-, heffects⟩ := hwait.effects henv.answers hready.working.serving
      have hu : Ready (fun _ => False) (t.copied b (address + 1024 * i)) := ht.copy _
      obtain ⟨-, heffects'⟩ := hwait'.effects henv.answers hu.working.serving
      have ht' := hu.waits henv hwait'
      obtain ⟨hfree, hpage⟩ := ih (ht'.counted b (Nat.mod_lt _ (by decide)))
      -- what is free when the copy is made has the same contents at the end
      have hlast : ∀ c, (∀ cmd, ¬ t.Queued c cmd) → (s'.buf c).bUptodate = (t.buf c).bUptodate ∧
          (s'.buf c).bData = (t.buf c).bData := by
        intro c hc
        obtain ⟨hbuf, hnone⟩ := heffects'.free (b := c) hc
        obtain ⟨hup, hdata⟩ := hfree c hnone
        obtain ⟨hup', hdata'⟩ := t'.countDown_core b c
        rw [hup, hdata, hup', hdata', hbuf]
        exact ⟨rfl, rfl⟩
      refine ⟨fun c hc => ?_, ?_⟩
      · obtain ⟨hbuf, hnone⟩ := heffects.free (b := c) hc
        rw [← hbuf]
        exact hlast c hnone
      · obtain ⟨hup, hdata⟩ := hlast b fun cmd => ht.unqueued hlock cmd
        have hmem : t.mem = s.mem := congrArg Rest.mem (hwait.submits .idle).rest
        have hmem' : t'.mem = (t.copied b (address + 1024 * i)).mem := congrArg Rest.mem
          (hwait'.submits .idle).rest
        rw [hpage, Sys.page, hup, hdata]
        show s'.page address l t'.mem = _
        rw [hmem', Sys.copied, hmem]

theorem Ready.waitsFor (h : Ready (fun _ => False) s) (b : Fin n) :
    Does (EgGS.waitOnBuff b) env s fun _ s' => Waits env s s' ∧ (s'.buf b).bLock = false :=
  (h.working.waitOnBuff_returns henv (by simp)).does fun _ _ _ hrun => waitOnBuff_waits hrun

/-- **The second loop** copies and gives back all the buffers that were taken. -/
theorem Ready.copyAll (h : Ready (fun _ => False) s)
    (hcounted : Counted (refs.addAll (l.map Prod.fst)) s) :
    Does (forEach l (copyOut address)) env s fun _ s' => Copied env address l s s' := by
  induction l generalizing s with
  | nil => exact .pure .nil
  | cons x l ih =>
      obtain ⟨_ | b, i⟩ := x
      · -- a hole of the page: nothing is copied
        exact (Does.pure (Q := fun _ t => s = t) rfl).bind fun _ t ht =>
          ht ▸ (ih h hcounted).mono fun _ _ => .skip
      refine Does.bind (R := fun _ u => ∃ t t', Waits env s t ∧ (t.buf b).bLock = false ∧
        Waits env (t.copied b (address + 1024 * i)) t' ∧ (t'.buf b).bCount ≠ 0 ∧
          u = t'.countDown b) ?_ ?_
      · refine (h.waitsFor henv b).bind fun _ t ⟨hwait, hlock⟩ => .bind_update ?_
        have ht := h.waits henv hwait
        have hcopied : (if (t.buf b).bUptodate = true then
            { t with mem := copyBlk (t.buf b).bData (address + 1024 * i) t.mem } else t) =
            t.copied b (address + 1024 * i) := by
          unfold Sys.copied
          split <;> rfl
        rw [hcopied]
        have hu : Ready (fun _ => False) (t.copied b (address + 1024 * i)) := ht.copy _
        refine (hu.waitsFor henv b).bind fun _ t' ⟨hwait', _⟩ => .bind_read
          (.ite (fun hzero => ?_) fun hne =>
          .update ⟨t, t', hwait, hlock, hwait', hne, rfl⟩)
        have hcount : (t'.buf b).bCount = (s.buf b).bCount :=
          (congrArg BufferLinks.bCount ((hwait'.submits .idle).links b)).trans
            (congrArg BufferLinks.bCount ((hwait.submits .idle).links b))
        -- `put_buff` does not panic, because the reference is ours
        rw [hcount, hcounted.count, Refs.addAll_apply] at hzero
        simp at hzero
      · rintro _ u ⟨t, t', hwait, hlock, hwait', hne, rfl⟩
        have ht : Ready (fun _ => False) (t.copied b (address + 1024 * i)) :=
          (h.waits henv hwait).copy _
        have hcounted' : Counted (refs.addAll (some b :: l.map Prod.fst))
            (t.copied b (address + 1024 * i)) :=
          ⟨(hcounted.submits (hwait.submits .idle)).count, hcounted.bound⟩
        have hdown := (hcounted'.submits (hwait'.submits .idle)).down hne
        rw [Refs.addAll_sub] at hdown
        refine (ih ((ht.waits henv hwait').counted b (Nat.mod_lt _ (by decide))) hdown).mono ?_
        exact fun _ s' => .copy hwait hlock hwait' hne

end

/-! ## Taking the buffers -/

/-- The blocks of the list that have no referenced header. -/
def Sys.wanting (s : Sys n) (dev : ℕ) (blocks : List ℕ) : Finset ℕ :=
  blocks.toFinset.filter fun block => ∀ c, s.Keyed c dev block → (s.buf c).bCount = 0

/-- The unreferenced headers. -/
def Sys.unused (s : Sys n) : Finset (Fin n) := Finset.univ.filter fun c => (s.buf c).bCount = 0

/-- There is an unreferenced header for every block that needs one. -/
def Sys.Enough (s : Sys n) (dev : ℕ) (blocks : List ℕ) : Prop :=
  (s.wanting dev blocks).card ≤ s.unused.card

theorem Sys.Enough.congr {blocks : List ℕ} (h : s.Enough dev blocks)
    (hlinks : ∀ c, (s'.buf c).toBufferLinks = (s.buf c).toBufferLinks) : s'.Enough dev blocks := by
  have hcount : ∀ c, (s'.buf c).bCount = (s.buf c).bCount := fun c =>
    congrArg BufferLinks.bCount (hlinks c)
  have hkeyed : ∀ c block, s'.Keyed c dev block ↔ s.Keyed c dev block := fun c block => by
    have hdev : (s'.buf c).bDev = (s.buf c).bDev := congrArg BufferLinks.bDev (hlinks c)
    have hnr : (s'.buf c).bBlocknr = (s.buf c).bBlocknr := congrArg BufferLinks.bBlocknr (hlinks c)
    rw [Sys.Keyed, Sys.Keyed, hdev, hnr]
  have hwanting : s'.wanting dev blocks = s.wanting dev blocks := by
    ext x
    simp [Sys.wanting, hcount, hkeyed]
  have hunused : s'.unused = s.unused := by
    ext c
    simp [Sys.unused, hcount]
  rwa [Sys.Enough, hwanting, hunused]

theorem Sys.Enough.spare {blocks : List ℕ} (h : s.Enough dev (block :: blocks)) :
    (∃ b, s.Keyed b dev block) ∨ ∃ c, (s.buf c).bCount = 0 := by
  by_cases hkeyed : ∃ b, s.Keyed b dev block
  · exact .inl hkeyed
  · have hmem : block ∈ s.wanting dev (block :: blocks) := by
      refine Finset.mem_filter.mpr ⟨by simp, fun c hc => absurd ⟨c, hc⟩ hkeyed⟩
    have hpos : 0 < s.unused.card := (Finset.card_pos.mpr ⟨_, hmem⟩).trans_le h
    obtain ⟨c, hc⟩ := Finset.card_pos.mp hpos
    exact .inr ⟨c, (Finset.mem_filter.mp hc).2⟩

/-- **A block is taken**, and there are still enough unreferenced headers for the others. -/
theorem Sys.Enough.taken {blocks : List ℕ} (h : s.Enough dev (block :: blocks))
    (hready : Ready (fun _ => False) s) (hdev : dev ≠ 0) (hshort : dev < 65536)
    (htaken : Taken env s dev block b t)
    (hroom : s.Keyed b dev block → (s.buf b).bCount + 1 < 256) : t.Enough dev blocks := by
  have hcounted : Counted (fun c => (s.buf c).bCount) s := ⟨fun _ => rfl, hready.count⟩
  obtain ⟨hcounted', hkept, -⟩ := hcounted.taken htaken hroom
  have hcount : ∀ c, (t.buf c).bCount = (s.buf c).bCount + if c = b then 1 else 0 := fun c => by
    rw [hcounted'.count, Refs.add_apply]
  have hkeyed := htaken.keyed hshort
  have hunused : t.unused = s.unused.erase b := by
    ext c
    by_cases hc : c = b <;> simp [Sys.unused, hcount, hc]
  have hwanting : t.wanting dev blocks ⊆ (s.wanting dev (block :: blocks)).erase block := by
    intro x hx
    obtain ⟨hx, hall⟩ := Finset.mem_filter.mp hx
    refine Finset.mem_erase.mpr ⟨?_, Finset.mem_filter.mpr ⟨?_, fun c hc => ?_⟩⟩
    · rintro rfl
      have hzero := hall b hkeyed
      rw [hcount, if_pos rfl] at hzero
      omega
    · rw [List.toFinset_cons]
      exact Finset.mem_insert_of_mem hx
    · by_contra hne
      obtain ⟨hd, hr⟩ := hkept c (Nat.pos_of_ne_zero hne)
      have hzero := hall c ⟨hd.trans hc.1, hr.trans hc.2⟩
      rw [hcount] at hzero
      omega
  have hcard := Finset.card_le_card hwanting
  have henough : (s.wanting dev (block :: blocks)).card ≤ s.unused.card := h
  show (t.wanting dev blocks).card ≤ t.unused.card
  rw [hunused]
  -- an unreferenced header was used up, and `block` is not wanting any more
  by_cases hb : (s.buf b).bCount = 0
  · have hmem : b ∈ s.unused := Finset.mem_filter.mpr ⟨Finset.mem_univ b, hb⟩
    have hwant : block ∈ s.wanting dev (block :: blocks) := by
      refine Finset.mem_filter.mpr ⟨by simp, fun c hc => ?_⟩
      -- a header with this block is the one that was found, and a recycled one had none
      cases htaken with
      | found hpath hfound _ =>
          have hkey := (Submits.keyed_iff hpath b).mp hfound.key
          obtain rfl : c = b := hready.links.unique b c (by rw [hkey.1]; exact hdev)
            (hc.1.trans hkey.1.symm) (hc.2.trans hkey.2.symm)
          exact hb
      | @recycled u _ hpath hrec _ =>
          obtain ⟨k', hfind⟩ := hrec.missing
          have hlinks : Links u := hready.links.congr (.of_rest hpath.rest)
          exact absurd ((Submits.keyed_iff hpath c).mpr hc) (hlinks.missing hdev hfind c)
    rw [Finset.card_erase_of_mem hmem]
    rw [Finset.card_erase_of_mem hwant] at hcard
    omega
  · have hmem : b ∉ s.unused := fun hmem => hb (Finset.mem_filter.mp hmem).2
    rw [Finset.erase_eq_of_notMem hmem]
    exact (hcard.trans (Finset.card_le_card (Finset.erase_subset _ _))).trans henough

/-- The buffer that is held for a block of the page. -/
def PageBuffer (s : Sys n) (dev : ℕ) : ℕ → Option (Fin n) → Prop
  | 0, buf => buf = none
  | block + 1, buf => ∃ c, buf = some c ∧ s.Keyed c dev (block + 1)

/-- There is room for as many references to a header as its block is named. -/
def Sys.Fits (s : Sys n) (dev : ℕ) (blocks : List ℕ) : Prop :=
  ∀ c, (s.buf c).bDev = dev → (s.buf c).bBlocknr ≠ 0 →
    (s.buf c).bCount + blocks.count (s.buf c).bBlocknr < 256

theorem Sys.Fits.taken {blocks : List ℕ} (h : s.Fits dev (block :: blocks))
    (hlen : blocks.length < 255) (hready : Ready (fun _ => False) s) (hshort : dev < 65536)
    (htaken : Taken env s dev block b t) (hne : block ≠ 0) : t.Fits dev blocks := by
  have hcounted : Counted (fun c => (s.buf c).bCount) s := ⟨fun _ => rfl, hready.count⟩
  have hroom : s.Keyed b dev block → (s.buf b).bCount + 1 < 256 := fun hkey => by
    have hb := h b hkey.1 (by rw [hkey.2]; exact hne)
    rw [hkey.2, List.count_cons_self] at hb
    omega
  obtain ⟨hcounted', hkept, -⟩ := hcounted.taken htaken hroom
  intro c hdev hnr
  have hle := List.count_le_length (a := (t.buf c).bBlocknr) (l := blocks)
  have hcount : (t.buf c).bCount = (s.buf c).bCount + if c = b then 1 else 0 := by
    rw [hcounted'.count, Refs.add_apply]
  by_cases hc : 0 < (s.buf c).bCount
  · -- held before: the header has kept its block
    obtain ⟨hd, hr⟩ := hkept c hc
    have hb := h c (hd.symm.trans hdev) (by rwa [← hr])
    rw [← hr, List.count_cons] at hb
    split at hcount
    · rename_i hcb
      subst hcb
      rw [(htaken.keyed hshort).2] at hb hle ⊢
      simp only [beq_self_eq_true, if_true] at hb
      omega
    · split at hb <;> omega
  · split at hcount <;> omega

theorem Sys.Fits.congr {blocks : List ℕ} (h : s.Fits dev blocks)
    (hlinks : ∀ c, (s'.buf c).toBufferLinks = (s.buf c).toBufferLinks) : s'.Fits dev blocks := by
  intro c
  have hd : (s'.buf c).bDev = (s.buf c).bDev := congrArg BufferLinks.bDev (hlinks c)
  have hr : (s'.buf c).bBlocknr = (s.buf c).bBlocknr := congrArg BufferLinks.bBlocknr (hlinks c)
  have hn : (s'.buf c).bCount = (s.buf c).bCount := congrArg BufferLinks.bCount (hlinks c)
  rw [hd, hr, hn]
  exact h c

section
variable (henv : env.Works fun _ => False)
include henv

/-- **The first loop** takes a buffer for every block other than 0. -/
theorem Ready.pageBuffers (hdev : dev ≠ 0) (hshort : dev < 65536) :
    ∀ {blocks : List ℕ} {s : Sys n}, Ready (fun _ => False) s → blocks.length < 256 →
      s.Enough dev (blocks.filter (· ≠ 0)) → s.Fits dev blocks →
      Does (pageBuffers dev blocks) env s fun bufs s' => Ready (fun _ => False) s' ∧
        TakenAll env dev blocks s bufs s' ∧ List.Forall₂ (PageBuffer s' dev) blocks bufs := by
  intro blocks
  -- on the blocks of the page; what is enough for the rest is what `Enough.taken` says
  induction blocks with
  | nil => exact fun h _ _ _ => .pure ⟨h, .nil, .nil⟩
  | cons block blocks ih =>
      intro s h hlen henough hfits
      have hlen' : blocks.length < 255 := by
        rw [List.length_cons] at hlen
        omega
      -- a block number 0 takes no buffer
      cases block with
      | zero =>
          refine (ih h (by omega) (by simpa using henough) fun c hc hne => ?_).bind
            fun bufs t ⟨ht, htaken, hall⟩ => .pure ⟨ht, .skip htaken, .cons rfl hall⟩
          have hc' := hfits c hc hne
          rwa [List.count_cons_of_ne (Ne.symm hne)] at hc'
      | succ block =>
          have henough' : s.Enough dev ((block + 1) :: blocks.filter (· ≠ 0)) := by
            simpa using henough
          refine (h.getBuff henv hdev hshort henough'.spare).bind fun b t hobtained => ?_
          have htaken := hobtained.taken
          have hroom : s.Keyed b dev (block + 1) → (s.buf b).bCount + 1 < 256 := fun hkey => by
            have hb := hfits b hkey.1 (by rw [hkey.2]; exact Nat.succ_ne_zero block)
            rw [hkey.2, List.count_cons_self] at hb
            omega
          have ht : Ready (fun _ => False) t := h.taken henv hshort htaken
          have hread : Does (readIfStale .read b) env t fun _ u =>
              Submits env (.idle, t) (.idle, u) :=
            .bind_read (.ite (fun _ => .pure .refl) fun _ =>
              (ht.working.llRwBlock_returns henv htaken.unlocked).does fun _ _ _ hrun =>
                llRwBlock_submits htaken.unlocked hrun)
          refine hread.bind fun _ u hpath => ?_
          have hu := ht.submits henv hpath
          have hlinks := Submits.links hpath
          have hfits' : u.Fits dev blocks :=
            (hfits.taken hlen' h hshort htaken (Nat.succ_ne_zero block)).congr hlinks
          refine (ih hu (by omega) ((henough'.taken h hdev hshort htaken hroom).congr hlinks)
            hfits').bind fun bufs v ⟨hv, hrest, hall⟩ => .pure ⟨hv, ?_, .cons ⟨b, rfl, ?_⟩ hall⟩
          · exact .take (Nat.succ_ne_zero block) htaken hpath hrest
          · -- the header is held, so it keeps its block
            have hcounted : Counted (fun c => (u.buf c).bCount) u := ⟨fun _ => rfl, hu.count⟩
            obtain ⟨-, hkept⟩ := hcounted.takenAll hrest (by omega) hfits'
            have hcount : (u.buf b).bCount = (s.buf b).bCount + 1 := by
              have hstart : Counted (fun c => (s.buf c).bCount) s := ⟨fun _ => rfl, h.count⟩
              have hn : (u.buf b).bCount = (t.buf b).bCount :=
                congrArg BufferLinks.bCount (hlinks b)
              rw [hn, (hstart.taken htaken hroom).1.count, Refs.add_apply, if_pos rfl]
            obtain ⟨hd, hr⟩ := hkept b (by show 0 < (u.buf b).bCount; omega)
            have hkey := (Submits.keyed_iff hpath b).mpr (htaken.keyed hshort)
            exact ⟨hd.trans hkey.1, hr.trans hkey.2⟩

end

/-! ## `read_buff_page` -/

/-- The address of byte `j` of block `i` of the page. -/
def pageAddress (address : ℕ) (i : Fin 4) (j : Fin 1024) : ℕ :=
  (address + (1024 * i.val + j.val)) % 4294967296

/-- What `read_buff_page` does for the block `i` of the page: nothing for block 0, and for another
one its bytes are those of the buffer, if that is up to date. -/
def Sys.PageBlock (s s' : Sys n) (address dev block : ℕ) (i : Fin 4) : Prop :=
  if block = 0 then ∀ j, s'.mem (pageAddress address i j) = s.mem (pageAddress address i j)
  else ∃ c, s'.Keyed c dev block ∧ ∀ j, s'.mem (pageAddress address i j) =
    if (s'.buf c).bUptodate then (s'.buf c).bData j else s.mem (pageAddress address i j)

theorem pageAddress_offset (i : Fin 4) (j : Fin 1024) :
    offset address (pageAddress address i j) = 1024 * i.val + j.val :=
  offset_add address (by omega)

theorem pageAddress_of_offset {a : ℕ} (i : Fin 4) (hi : offset address a / 1024 = i.val) :
    a % 4294967296 = pageAddress address i ⟨offset address a % 1024, Nat.mod_lt _ (by decide)⟩ := by
  unfold pageAddress
  unfold offset at hi ⊢
  dsimp only
  omega

theorem TakenAll.same_mem {blocks : List ℕ} {bufs : List (Option (Fin n))}
    (h : TakenAll env dev blocks s bufs s') : s'.mem = s.mem := by
  induction h with
  | nil => rfl
  | skip _ ih => exact ih
  | @take s t t' s' block b blocks bufs _ htaken hpath _ ih =>
      have ht : t.mem = s.mem := by
        cases htaken with
        | found hpath _ heq => exact heq ▸ congrArg Rest.mem hpath.rest
        | recycled hpath _ hreuse =>
            obtain ⟨hstate, -, -⟩ := reuse_spec hreuse
            rw [hstate]
            exact congrArg Rest.mem hpath.rest
      exact ih.trans ((congrArg Rest.mem hpath.rest).trans ht)

namespace Mapped

variable {which : Rw → Prop} {used loose : ℕ × ℕ → Prop} {M : Contents}

theorem copy (h : Mapped which used loose M refs s) (mem : ℕ → UInt8) :
    Mapped which used loose M refs { s with mem } := by
  refine h.touched ⟨rfl, rfl, rfl, rfl, rfl, rfl, fun _ => rfl, fun _ _ => .of_eq rfl, [], rfl, by
    simp⟩
    rfl (fun c hc => (h.flags.dirty c hc).congr rfl ⟨rfl, rfl⟩ rfl)
    (fun c cmd _ hc => hc.congr rfl ⟨rfl, rfl⟩ rfl) (h.links.congr ⟨fun _ => rfl, rfl, rfl⟩)
    (h.coherent.congr (fun _ => rfl) (fun _ => ⟨rfl, fun _ => rfl⟩) rfl rfl fun c hd hq => ⟨hd, hq⟩)
    ⟨h.counted.count, h.counted.bound⟩ h.held h.blank

/-- Taking the buffers of a page keeps the map. -/
theorem takenAll {blocks : List ℕ} {bufs : List (Option (Fin n))} (henv : env.Works which)
    (hwhich : which .write) (h : Mapped which used loose M refs s)
    (ht : TakenAll env dev blocks s bufs s')
    (hused : ∀ block ∈ blocks, block ≠ 0 → used (dev, block))
    (hlen : blocks.length < 256) (hfits : s.Fits dev blocks) :
    Mapped which used loose M (refs.addAll bufs) s' := by
  induction ht generalizing refs with
  | nil => exact h
  | skip _ ih =>
      refine ih h (fun x hx => hused x (List.mem_cons_of_mem _ hx)) (by simp at hlen; omega)
        fun c hc hne => ?_
      have hc' := hfits c hc hne
      rwa [List.count_cons_of_ne (Ne.symm hne)] at hc'
  | @take s t t' s' block b blocks bufs hne htaken hpath _ ih =>
      rw [List.length_cons] at hlen
      have hblock := hused block (List.mem_cons_self ..) hne
      have hroom : s.Roomy refs dev block := fun c hc => by
        have hb := hfits c hc.1 (by rw [hc.2]; exact hne)
        rw [hc.2, List.count_cons_self, h.counted.count] at hb
        omega
      obtain ⟨ht, -, -, -, -⟩ := h.taken henv hwhich hblock hroom htaken
      have hshort : dev < 65536 := (h.tiled.dev _ hblock).2
      refine ih (ht.submits henv hwhich hpath) (fun x hx => hused x (List.mem_cons_of_mem _ hx))
        (by omega) ((hfits.taken (by omega) h.ready.calls hshort htaken hne).congr ?_)
      exact Submits.links hpath

/-- Giving them back keeps the map. -/
theorem putAll {bufs : List (Option (Fin n))} (henv : env.Works which) (hwhich : which .write)
    (h : Mapped which used loose M (refs.addAll bufs) s) (hput : PutAll env bufs s s')
    (hfirm : ∀ x, ¬ loose x) : Mapped which used loose M refs s' := by
  induction hput with
  | nil => exact h
  | skip _ ih => exact ih h
  | @put s t t' s' b bufs mem hpath hpath' _ _ ih =>
      have ht := (h.submits henv hwhich hpath).copy mem
      have hpos : 0 < refs.addAll (some b :: bufs) b := by
        rw [Refs.addAll_apply, List.count_cons_self]
        omega
      have hdown := (ht.submits henv hwhich hpath').down hpos (hfirm _)
      rw [Refs.addAll_sub] at hdown
      exact ih hdown

end Mapped

/-- **`read_buff_page`** reads the four blocks.  If there is an unreferenced header for every block
that needs one, and no header gets a 256th reference, it returns with the counts as they were.
The bytes of the page are those of the buffers that are up to date, and no other byte changes.
While no write fails, the buffers contain their blocks. -/
theorem page_read [NeZero n] {s₀ : Sys n} {blocks : Fin 4 → ℕ} (hquiet : s₀.Quiet)
    (hdrives : s₀.geo.Drives) (hen : s₀.hdEnabled = true) (henv : env.Works fun _ => False)
    (h : CacheReach env (Driven env) (initRequestQueue s₀) refs s) (hdev : dev ≠ 0)
    (hshort : dev < 65536) (henough : s.Enough dev ((List.ofFn blocks).filter (· ≠ 0)))
    (hfits : s.Fits dev (List.ofFn blocks)) :
    ∃ s', Evals (readBuffPage address dev blocks) env s () s' ∧
      (∀ c, (s'.buf c).bCount = (s.buf c).bCount) ∧
      (∀ i, s.PageBlock s' address dev (blocks i) i) ∧
      (∀ a, (∀ i j, a % 4294967296 ≠ pageAddress address i j) → s'.mem a = s.mem a) ∧
      ∀ which used M refs, env.Works which → which .write →
        Mapped which used (fun _ => False) M refs s → (∀ i, blocks i ≠ 0 → used (dev, blocks i)) →
        ∀ i c, blocks i ≠ 0 → s'.Keyed c dev (blocks i) → (s'.buf c).bUptodate = true →
          (s'.buf c).bData = M (dev, blocks i) := by
  have hready := Ready.reach hquiet hdrives hen henv h
  have hlen : (List.ofFn blocks).length < 256 := by simp
  -- the two loops of the function: first all buffers are taken, then each is copied and given back
  obtain ⟨bufs, t, heval, ht, htaken, hall⟩ :=
    hready.pageBuffers henv hdev hshort hlen henough hfits
  have hcounted : Counted (fun c => (s.buf c).bCount) s := ⟨fun _ => rfl, hready.count⟩
  obtain ⟨htcounted, -⟩ := hcounted.takenAll htaken hlen hfits
  obtain ⟨⟨⟩, s', heval', hcopied⟩ : Does (forEach bufs.zipIdx (copyOut address)) env t
      fun _ s' => Copied env address bufs.zipIdx t s' :=
    ht.copyAll henv (by rwa [List.zipIdx_map_fst])
  have hput : PutAll env bufs t s' := by
    have hput := hcopied.putAll
    rwa [List.zipIdx_map_fst] at hput
  obtain ⟨-, hpage⟩ := hcopied.page henv ht
  have hlength : bufs.length = 4 := by
    rw [← hall.length_eq, List.length_ofFn]
  have hmem : ∀ {x : Option (Fin n) × ℕ}, x ∈ bufs.zipIdx ↔ bufs[x.2]? = some x.1 :=
    List.mem_zipIdx_iff_getElem?
  have hsmall : ∀ x ∈ bufs.zipIdx, x.2 < 4 := fun x hx => by
    have hlt := (List.getElem?_eq_some_iff.mp (hmem.mp hx)).1
    omega
  have hmem' : s'.mem = s'.page address bufs.zipIdx s.mem := htaken.same_mem ▸ hpage
  have hsmall' : ∀ x ∈ bufs.zipIdx, x.2 < 4194304 := fun x hx => (hsmall x hx).trans (by decide)
  -- the buffer of a block stands at its place of the list
  have hbuffer : ∀ i : Fin 4, ∃ buf, bufs[i.val]? = some buf ∧ PageBuffer t dev (blocks i) buf := by
    intro i
    have hi : i.val < bufs.length := by omega
    refine ⟨bufs[i.val], List.getElem?_eq_getElem hi, ?_⟩
    have hget := hall.get (i := i.val) (by rw [List.length_ofFn]; exact i.isLt) hi
    rw [List.get_ofFn] at hget
    exact hget
  refine ⟨s', heval.bind heval', fun c => (htcounted.putAll hput).1.count c, fun i => ?_,
    fun a ha => ?_, fun which used M refs henv' hwhich hmapped hused i c hne hkey hup => ?_⟩
  · obtain ⟨buf, hbuf, hpb⟩ := hbuffer i
    have hindex : ∀ j, offset address (pageAddress address i j) / 1024 = i.val := fun j => by
      rw [pageAddress_offset]
      omega
    have hsame : ∀ {b : Fin n} {i' : ℕ} {j}, (some b, i') ∈ bufs.zipIdx →
        offset address (pageAddress address i j) / 1024 = i' → buf = some b := by
      intro b i' j hx hi'
      rw [hindex] at hi'
      exact Option.some.inj (hbuf.symm.trans (hi' ▸ hmem.mp hx))
    -- a block number 0 leaves its quarter of the page alone, any other one has a buffer
    unfold Sys.PageBlock
    split
    · rename_i hzero
      rw [hzero] at hpb
      intro j
      rw [hmem', Sys.page_skip hsmall' fun b i' hx hi' => ?_]
      exact absurd (hpb.symm.trans (hsame hx hi')) (by simp)
    · rename_i hne
      obtain ⟨block, hblock⟩ := Nat.exists_eq_succ_of_ne_zero hne
      rw [hblock] at hpb ⊢
      obtain ⟨c, rfl, hkey⟩ := hpb
      have hkey' := hcopied.key c
      refine ⟨c, ⟨(congrArg Prod.fst hkey').trans hkey.1, (congrArg Prod.snd hkey').trans hkey.2⟩,
        fun j => ?_⟩
      rw [hmem']
      split
      · -- the quarter has the data of the buffer
        rename_i hup
        have hnodup : (bufs.zipIdx.map Prod.snd).Nodup := by
          rw [List.zipIdx_map_snd]
          exact List.nodup_range'
        rw [Sys.page_hit hsmall' hnodup (hmem.mpr hbuf) hup (hindex j)]
        refine congrArg _ (Fin.ext ?_)
        show offset address (pageAddress address i j) % 1024 = j.val
        rw [pageAddress_offset]
        omega
      · -- the read failed, so `read_buff_page` copies nothing
        rename_i hstale
        refine Sys.page_skip hsmall' fun b i' hx hi' => ?_
        obtain rfl := Option.some.inj (hsame hx hi')
        exact Bool.eq_false_iff.mpr hstale
  · rw [hmem', Sys.page_skip hsmall' fun b i' hx hi' => ?_]
    -- an address of no quarter is written by no copy
    exact absurd (pageAddress_of_offset ⟨i', hsmall _ hx⟩ hi') (ha _ _)
  · -- on coherent contents a buffer that is up to date has those of its block
    have hmap := hmapped.takenAll henv' hwhich htaken
      (fun x hx hne => by
        obtain ⟨i, rfl⟩ := List.mem_ofFn.mp hx
        exact hused i hne) hlen hfits
    have hend := hmap.putAll henv' hwhich hput fun _ => id
    have hdev' : (s'.buf c).bDev ≠ 0 := by
      rw [hkey.1]
      exact hdev
    rw [hend.coherent.cached c hdev' hup, show s'.key c = (dev, blocks i) from
      (Sys.key_eq _).mpr hkey]

/-- A page with block 5 at its beginning and nothing behind it. -/
def onePage : Fin 4 → ℕ := fun i => if i = 0 then 5 else 0

theorem page_read_first : ∃ s', Evals (readBuffPage 0x2000 0x300 onePage) (Env.diligent 0x50)
    (initBuff oneHeader) () s' := by
  refine (page_read oneHeader_quiet smallDrive_drives rfl (diligent_works 0x50) .init (by decide)
    (by decide) (show Finset.card _ ≤ Finset.card _ by decide) ?_).imp fun _ h => h.1
  exact fun c hc => absurd hc (by simp [initBuff])

/-- A page of a block that has 255 references already: the first loop makes `b_count` 0, and the
second one finds nothing to give back. -/
theorem page_read_full : ∃ (refs : Refs 1) (s : Sys 1),
    CacheReach (Env.diligent 0x50) (Driven (Env.diligent 0x50)) oneHeader refs s ∧
      s.Enough 0x300 ((List.ofFn onePage).filter (· ≠ 0)) ∧
      ¬ ∃ s', Evals (readBuffPage 0x2000 0x300 onePage) (Env.diligent 0x50) s () s' := by
  obtain ⟨refs, s, -, hreach, hfull, hkeyed, -⟩ := taken_often 0x50 5 255 (by decide)
  have hkey := hkeyed (by decide)
  refine ⟨refs, s, hreach, ?_, fun ⟨s', heval⟩ => ?_⟩
  · -- block 5 has a referenced header
    have hnone : s.wanting 0x300 ((List.ofFn onePage).filter (· ≠ 0)) = ∅ := by
      refine Finset.filter_eq_empty_iff.mpr fun x hx hall => ?_
      obtain rfl : x = 5 := by simpa [onePage] using hx
      exact absurd ((hall 0 hkey).symm.trans hfull) (by decide)
    show (s.wanting _ _).card ≤ _
    rw [hnone]
    exact Nat.zero_le _
  · obtain ⟨k, hrun⟩ := heval.exists_run
    obtain ⟨bufs, t, htaken, hput⟩ := readBuffPage_taken hrun
    have hpage : List.ofFn onePage = [5, 0, 0, 0] := by decide
    rw [hpage] at htaken
    cases htaken with
    | @take _ u u' _ _ b _ bufs _ hfirst hpath hrest =>
        obtain rfl : b = 0 := Subsingleton.elim _ _
        have hzero : (u.buf 0).bCount = 0 := by
          -- 255 references and one more make 0, and a header with 255 references is not recycled
          cases hfirst with
          | @found v hpath' _ heq =>
              have hsame : (v.buf 0).bCount = 255 :=
                (congrArg BufferLinks.bCount (hpath'.links 0)).trans hfull
              simp [heq, Sys.countUp, hsame]
          | @recycled v _ hpath' hrec _ =>
              have hsame : (v.buf 0).bCount = 255 :=
                (congrArg BufferLinks.bCount (hpath'.links 0)).trans hfull
              exact absurd (hsame.symm.trans hrec.count) (by decide)
        -- nothing else is taken
        obtain rfl : u' = t := by
          cases hrest with
          | skip hrest => cases hrest with
            | skip hrest => cases hrest with
              | skip hrest => cases hrest with
                | nil => rfl
              | take hne _ _ _ => exact absurd rfl hne
            | take hne _ _ _ => exact absurd rfl hne
          | take hne _ _ _ => exact absurd rfl hne
        -- `put_buff` of a header with count 0 does not return
        cases hput with
        | @put _ w w' _ _ _ mem hback hback' hcount _ =>
            refine hcount ?_
            have hw' : (w'.buf 0).bCount = (w.buf 0).bCount :=
              congrArg BufferLinks.bCount (hback'.links 0)
            have hw : (w.buf 0).bCount = (u'.buf 0).bCount :=
              congrArg BufferLinks.bCount (hback.links 0)
            have hu' : (u'.buf 0).bCount = (u.buf 0).bCount :=
              congrArg BufferLinks.bCount (hpath.links 0)
            rw [hw', hw, hu', hzero]

end EgGS
