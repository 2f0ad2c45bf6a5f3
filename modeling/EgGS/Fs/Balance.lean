import EgGS.Fs.Runs
import Mathlib.Data.ZMod.Basic
import Mathlib.Tactic.Abel

/-!
# The balance of path lookup

A path is walked with one reference: it is taken on the start inode, moves to each
component that is found, and across a mount point with `..`, and is handed out at the end.
The exits of the loop that return `NULL` keep it.

`Shifts` says by how much the counts of a step have moved, and such steps add up.  Reading an inode
shifts by the entry that it hands out and `put_inode` by the one it takes; `pathRound_cases` puts
the calls of one round together, and `pathLoop_balanced` the rounds.

* `path_lookup_balanced`: the counts balance exactly if the path is empty or every
  component is found.
-/

namespace EgGS

open Lib Prog Relation

variable {n : ℕ} {env : Env n} {k : ℕ} {s s' t : Sys n} {i : Fin nrInode} {dev nr : ℕ}

/-- A change of the counts of all entries. -/
abbrev Delta := Fin nrInode → ZMod 65536

/-- The count of an entry; `i_count` is an `unsigned short`. -/
def Sys.held (s : Sys n) (i : Fin nrInode) : ZMod 65536 := (s.inode i).iCount

/-- The counts change by `d`. -/
def Shifts (d : Delta) (s s' : Sys n) : Prop := s'.held = s.held + d

/-- One reference to the entry `i`. -/
def ref (i : Fin nrInode) : Delta := Pi.single i 1

theorem Shifts.refl (s : Sys n) : Shifts 0 s s := (add_zero s.held).symm

theorem Shifts.trans {d d' : Delta} (h : Shifts d s t) (h' : Shifts d' t s') :
    Shifts (d + d') s s' := by
  rw [Shifts] at h h' ⊢
  rw [h', h, add_assoc]

/-! ## Taking and giving back -/

theorem Steadily.shifts (h : Steadily env s s') : Shifts 0 s s' := by
  funext i
  simp [Sys.held, h.count i]

/-- One entry is assigned. -/
theorem setInode_shifts (i : Fin nrInode) {f : MInode → MInode} {c : ZMod 65536}
    (hf : ((f (s.inode i)).iCount : ZMod 65536) = s.held i + c) :
    Shifts (Pi.single i c) s (s.setInode i f) := by
  funext j
  by_cases hj : j = i
  · subst hj
    simpa [Sys.held] using hf
  · simp [Sys.held, hj]

theorem inodeUp_shifts (i : Fin nrInode) : Shifts (ref i) s (s.inodeUp i) := by
  refine setInode_shifts i ?_
  have hmod : ((((s.inode i).iCount + 1) % 65536 : ℕ) : ZMod 65536) =
      (((s.inode i).iCount + 1 : ℕ) : ZMod 65536) := ZMod.natCast_mod _ _
  rw [hmod, Nat.cast_add, Nat.cast_one]
  rfl

theorem inodeDown_shifts (i : Fin nrInode) : Shifts (-ref i) s (s.inodeDown i) := by
  rw [ref, ← Pi.single_neg]
  refine setInode_shifts i ?_
  have hmod : ((((s.inode i).iCount + 65535) % 65536 : ℕ) : ZMod 65536) =
      (((s.inode i).iCount + 65535 : ℕ) : ZMod 65536) := ZMod.natCast_mod _ _
  rw [hmod, Nat.cast_add, show ((65535 : ℕ) : ZMod 65536) = -1 by decide]
  rfl

/-- What `get_inode` hands out has one reference more. -/
theorem InodeTaken.shifts (h : InodeTaken env s dev nr i s') : Shifts (ref i) s s' := by
  cases h with
  | found hpath _ _ _ => simpa using hpath.shifts.trans (inodeUp_shifts i)
  | made hpath hrec _ =>
      refine zero_add (ref i) ▸ hpath.shifts.trans (setInode_shifts i ?_)
      simp [Sys.held, hrec.count]

theorem InodePut.shifts (h : InodePut env s i s') : Shifts (-ref i) s s' := by
  cases h with
  | dropped hpath _ => simpa using hpath.shifts.trans (inodeDown_shifts i)
  | erased hpath hlast =>
      rw [ref, ← Pi.single_neg]
      refine zero_add (Pi.single i (-1) : Delta) ▸ hpath.shifts.trans (setInode_shifts i ?_)
      simp [Sys.held, MInode.zero, hlast]

theorem readInode_shifts {dev nr : ℤ} (h : readInode dev nr env k s = .ok i s') :
    Shifts (ref i) s s' := by
  obtain ⟨t, hget, hread⟩ := readInode_got h
  have htaken := (getInode_taken hget).shifts
  rcases hread with ⟨-, hfilled⟩ | ⟨-, rfl⟩
  · simpa using htaken.trans hfilled.steady.shifts
  · exact htaken

/-! ## One component -/

section Component

variable {inode inode' : Fin nrInode} {name : ℕ → UInt8} {namelen entries : ℕ}
variable {found : Option (Fin nrInode)}

/-- At a mount point the reference moves to the inode that is mounted on. -/
theorem crossMount_shifts (h : crossMount inode env k s = .ok inode' s') :
    Shifts (ref inode' - ref inode) s s' := by
  have hstay : ∀ {t : Sys n}, Steadily env s t → Shifts (ref inode - ref inode) s t :=
    fun hpath => by simpa using hpath.shifts
  unfold crossMount at h
  rw [read_bind, ite_run] at h
  split at h
  · obtain ⟨known, s₁, hfind, h⟩ := bind_eq_ok.mp h
    have hpath : Steadily env s s₁ := findSuper_steady.path hfind
    cases known with
    | none => simp at h
    | some sb =>
        simp only [read_bind] at h
        cases hmount : (s₁.superBlock sb).sImount with
        | none =>
            simp only [hmount, pure_run, Res.ok.injEq] at h
            obtain ⟨rfl, rfl⟩ := h
            exact hstay hpath
        | some mount =>
            simp only [hmount, bind_eq_ok, update_bind, pure_run, Res.ok.injEq] at h
            obtain ⟨⟨⟩, s₂, hput, rfl, rfl⟩ := h
            have hmoved := (hpath.shifts.trans (putInode_put hput).shifts).trans
              (inodeUp_shifts mount)
            rwa [zero_add, neg_add_eq_sub] at hmoved
  · simp only [pure_run, Res.ok.injEq] at h
    obtain ⟨rfl, rfl⟩ := h
    exact hstay .refl

/-- The reference to the result of a lookup. -/
def refOf : Option (Fin nrInode) → Delta
  | none => 0
  | some i => ref i

theorem lookupName_shifts
    (h : lookupName inode name namelen entries env k s = .ok (inode', found) s') :
    inode' = inode ∧ Shifts (refOf found) s s' := by
  unfold lookupName at h
  rw [read_bind, ite_run] at h
  split at h
  · simp only [pure_run, Res.ok.injEq, Prod.mk.injEq] at h
    obtain ⟨⟨rfl, rfl⟩, rfl⟩ := h
    exact ⟨rfl, .refl _⟩
  obtain ⟨read, s₁, hread, h⟩ := bind_eq_ok.mp h
  have hpath : Steadily env s s₁ := readBuff_steady.path hread
  cases read with
  | none =>
      simp only [pure_run, Res.ok.injEq, Prod.mk.injEq] at h
      obtain ⟨⟨rfl, rfl⟩, rfl⟩ := h
      exact ⟨rfl, hpath.shifts⟩
  | some bh =>
      simp only [bind_eq_ok] at h
      obtain ⟨⟨buf, res⟩, s₂, hscan, ⟨⟩, s₃, hput, h⟩ := h
      have hpath' : Steadily env s s₃ :=
        (hpath.trans (scanEntries_steady.path hscan)).trans ((putBuff_steady _).path hput)
      cases res with
      | none =>
          simp only [pure_run, Res.ok.injEq, Prod.mk.injEq] at h
          obtain ⟨⟨rfl, rfl⟩, rfl⟩ := h
          exact ⟨rfl, hpath'.shifts⟩
      | some entry =>
          simp only [read_bind, bind_eq_ok, pure_run, Res.ok.injEq, Prod.mk.injEq] at h
          obtain ⟨i, s₄, hgot, ⟨rfl, rfl⟩, rfl⟩ := h
          refine ⟨rfl, ?_⟩
          have hmoved := hpath'.shifts.trans (readInode_shifts hgot)
          rwa [zero_add] at hmoved

/-- `retain_inode_by_name` may move the reference of its caller, and takes one to what it
finds. -/
theorem retainInodeByName_shifts
    (h : retainInodeByName inode name namelen env k s = .ok (inode', found) s') :
    Shifts (ref inode' - ref inode + refOf found) s s' := by
  unfold retainInodeByName at h
  simp only [read_bind, ite_run] at h
  split at h
  · simp only [pure_run, Res.ok.injEq, Prod.mk.injEq] at h
    obtain ⟨⟨rfl, rfl⟩, rfl⟩ := h
    simpa [refOf] using Shifts.refl s
  obtain ⟨into, s₁, hcross, h⟩ := bind_eq_ok.mp h
  obtain ⟨rfl, hfound⟩ := lookupName_shifts h
  refine Shifts.trans ?_ hfound
  unfold crossDots at hcross
  rw [ite_run] at hcross
  split at hcross
  · exact crossMount_shifts hcross
  · simp only [pure_run, Res.ok.injEq] at hcross
    obtain ⟨rfl, rfl⟩ := hcross
    simpa using Shifts.refl s

end Component

/-! ## The whole path -/

section Path

variable {inode : Fin nrInode} {pathname : ℕ → UInt8} {found : Option (Fin nrInode)}

/-- From `res` on, the rest of the path from position `pos` on leads somewhere: at each `/`
the start inode is a directory and the component is found. -/
inductive Walks (env : Env n) (k : ℕ) (inode : Fin nrInode) (pathname : ℕ → UInt8) :
    Fin nrInode → ℕ → ℕ → ℕ → Sys n → Prop
  | arrived {res : Fin nrInode} {thisname namelen pos : ℕ} {s : Sys n} : pathname pos = 0 →
      Walks env k inode pathname res thisname namelen pos s
  | letter {res : Fin nrInode} {thisname namelen pos : ℕ} {s : Sys n} : pathname pos ≠ 0 →
      pathname pos ≠ 0x2F → Walks env k inode pathname res thisname (namelen + 1) (pos + 1) s →
      Walks env k inode pathname res thisname namelen pos s
  | enter {res res' tmp : Fin nrInode} {thisname namelen pos : ℕ} {s t t' : Sys n} :
      pathname pos = 0x2F → isDir (s.inode inode).iMode = true →
      retainInodeByName res (fun j => pathname (thisname + j)) namelen env k s =
        .ok (res', some tmp) t →
      putInode (some res') env k t = .ok () t' →
      Walks env k inode pathname tmp (pos + 1) 0 (pos + 1) t' →
      Walks env k inode pathname res thisname namelen pos s

/-- Every component of the path is found. -/
def PathFound (env : Env n) (k : ℕ) (inode : Fin nrInode) (pathname : ℕ → UInt8) (s : Sys n) :
    Prop :=
  let start := if pathname 0 = 0x2F then 1 else 0
  Walks env k inode pathname inode start 0 start (s.inodeUp inode)

/-- The counts balance: nothing has changed if the lookup failed, and one reference has been
taken if it did not. -/
def Balanced (s s' : Sys n) : Option (Fin nrInode) → Prop
  | none => ∀ i, s'.held i = s.held i
  | some i => s'.held i = s.held i + 1 ∧ ∀ j ≠ i, s'.held j = s.held j

theorem Shifts.balanced (h : Shifts (ref i) s s') : Balanced s s' (some i) := by
  refine ⟨?_, fun j hj => ?_⟩
  · simpa [ref] using congrFun h i
  · simpa [ref, hj] using congrFun h j

/-- A reference that is kept is missing from the balance. -/
theorem Shifts.not_balanced (h : Shifts (ref i) s s') : ¬ Balanced s s' none := by
  intro hbalanced
  have hkept : s'.held i = s.held i + 1 := h.balanced.1
  rw [hbalanced i] at hkept
  exact absurd (left_eq_add.mp hkept) (by decide)

/-- One round of the loop of `retain_inode_by_path`. -/
def pathRound (inode : Fin nrInode) (pathname : ℕ → UInt8) (resInode : Fin nrInode)
    (thisname namelen pos : ℕ) : P n ((Fin nrInode × ℕ × ℕ × ℕ) ⊕ Option (Fin nrInode)) :=
  if pathname pos = 0 then
    pure (.inr (some resInode))
  else if pathname pos ≠ 0x2F then
    pure (.inl (resInode, thisname, namelen + 1, pos + 1))
  else do
    let s ← Prog.read
    if !isDir (s.inode inode).iMode then
      pure (.inr none)
    else do
      match ← retainInodeByName resInode (fun j => pathname (thisname + j)) namelen with
      | (_, none) => pure (.inr none)
      | (resInode, some tmp) => do
        putInode (some resInode)
        pure (.inl (tmp, pos + 1, 0, pos + 1))

/-- What a round does with the reference and with the rest of the way. -/
inductive PathRound (env : Env n) (k : ℕ) (inode : Fin nrInode) (pathname : ℕ → UInt8)
    (res : Fin nrInode) (thisname namelen pos : ℕ) (s : Sys n) :
    (Fin nrInode × ℕ × ℕ × ℕ) ⊕ Option (Fin nrInode) → Sys n → Prop
  | next {res' : Fin nrInode} {thisname' namelen' pos' : ℕ} {s' : Sys n} :
      Shifts (ref res' - ref res) s s' →
      (Walks env k inode pathname res thisname namelen pos s ↔
        Walks env k inode pathname res' thisname' namelen' pos' s') →
      PathRound env k inode pathname res thisname namelen pos s
        (.inl (res', thisname', namelen', pos')) s'
  | arrived : Walks env k inode pathname res thisname namelen pos s →
      PathRound env k inode pathname res thisname namelen pos s (.inr (some res)) s
  | lost {res' : Fin nrInode} {s' : Sys n} : Shifts (ref res' - ref res) s s' →
      ¬ Walks env k inode pathname res thisname namelen pos s →
      PathRound env k inode pathname res thisname namelen pos s (.inr none) s'

theorem shifts_stay : Shifts (ref i - ref i) s s := by
  rw [Shifts, sub_self, add_zero]

theorem pathRound_cases {res : Fin nrInode} {thisname namelen pos : ℕ}
    {x : (Fin nrInode × ℕ × ℕ × ℕ) ⊕ Option (Fin nrInode)}
    (h : pathRound inode pathname res thisname namelen pos env k s = .ok x s') :
    PathRound env k inode pathname res thisname namelen pos s x s' := by
  unfold pathRound at h
  rw [ite_run] at h
  split at h
  · -- the end of the path: `res` is handed out
    rename_i hend
    simp only [pure_run, Res.ok.injEq] at h
    obtain ⟨rfl, rfl⟩ := h
    exact .arrived (.arrived hend)
  rename_i hgo
  rw [ite_run] at h
  split at h
  · -- a letter: nothing is held or given back
    rename_i hletter
    simp only [pure_run, Res.ok.injEq] at h
    obtain ⟨rfl, rfl⟩ := h
    refine .next shifts_stay ⟨fun hwalks => ?_, .letter hgo hletter⟩
    cases hwalks with
    | arrived hend => exact absurd hend hgo
    | letter _ _ hrest => exact hrest
    | enter hslash _ _ _ _ => exact absurd hslash hletter
  rename_i hslash
  have hslash : pathname pos = 0x2F := not_not.mp hslash
  rw [read_bind, ite_run] at h
  split at h
  · -- the start is no directory, and the reference to `res` stays
    rename_i hdir
    simp only [pure_run, Res.ok.injEq] at h
    obtain ⟨rfl, rfl⟩ := h
    refine .lost shifts_stay fun hwalks => ?_
    cases hwalks with
    | arrived hend => exact hgo hend
    | letter _ hletter _ => exact hletter hslash
    | enter _ hdir' _ _ _ => simp [hdir'] at hdir
  rename_i hdir
  have hdir : isDir (s.inode inode).iMode = true := by simpa using hdir
  obtain ⟨⟨res', made⟩, t, hname, h⟩ := bind_eq_ok.mp h
  have hmoved := retainInodeByName_shifts hname
  -- the name is not found and `res` stays held, or it is entered and `res` is given back
  cases made with
  | none =>
      simp only [pure_run, Res.ok.injEq] at h
      obtain ⟨rfl, rfl⟩ := h
      -- `retain_inode_by_name` may have gone up to another root, which is `res'`
      have hkept : Shifts (ref res' - ref res) s t := by simpa [refOf] using hmoved
      refine .lost hkept fun hwalks => ?_
      cases hwalks with
      | arrived hend => exact hgo hend
      | letter _ hletter _ => exact hletter hslash
      | enter _ _ hname' _ _ => simp [hname] at hname'
  | some tmp =>
      simp only [bind_eq_ok, pure_run, Res.ok.injEq] at h
      obtain ⟨⟨⟩, t', hput, rfl, rfl⟩ := h
      have hsum : ref res' - ref res + refOf (some tmp) + -ref res' = ref tmp - ref res := by
        simp only [refOf]
        abel
      refine .next (hsum ▸ hmoved.trans (putInode_put hput).shifts)
        ⟨fun hwalks => ?_, .enter hslash hdir hname hput⟩
      cases hwalks with
      | arrived hend => exact absurd hend hgo
      | letter _ hletter _ => exact absurd hslash hletter
      | enter _ _ hname' hput' hrest =>
          rw [hname, Res.ok.injEq, Prod.mk.injEq, Option.some.injEq] at hname'
          obtain ⟨⟨rfl, rfl⟩, rfl⟩ := hname'
          rw [hput, Res.ok.injEq] at hput'
          exact hput'.2 ▸ hrest

/-- The loop ends with the reference that it started with, whether it returns it or not. -/
theorem pathLoop_balanced {res : Fin nrInode} {thisname namelen pos : ℕ} {s₀ : Sys n}
    (hstart : Shifts (ref res) s₀ s)
    (h : Prog.iterate (fun x => pathRound inode pathname x.1 x.2.1 x.2.2.1 x.2.2.2)
      (res, thisname, namelen, pos) env k s = .ok found s') :
    Balanced s₀ s' found ↔ Walks env k inode pathname res thisname namelen pos s := by
  refine iterate_ensures
    (I := fun x t => Shifts (ref x.1) s₀ t ∧
    (Walks env k inode pathname res thisname namelen pos s ↔
      Walks env k inode pathname x.1 x.2.1 x.2.2.1 x.2.2.2 t))
    (Q := fun found t => Balanced s₀ t found ↔
      Walks env k inode pathname res thisname namelen pos s) ?_ ?_ ⟨hstart, Iff.rfl⟩ h
  · rintro ⟨r, p, l, q⟩ t x t' ⟨hheld, hiff⟩ hbody
    cases pathRound_cases hbody with
    | next hmoved hwalks =>
        refine ⟨?_, hiff.trans hwalks⟩
        simpa using hheld.trans hmoved
  · rintro ⟨r, p, l, q⟩ t found t' ⟨hheld, hiff⟩ hbody
    cases pathRound_cases hbody with
    | arrived hwalks => exact iff_of_true hheld.balanced (hiff.mpr hwalks)
    | @lost res' _ hmoved hwalks =>
        have hkept : Shifts (ref res') s₀ t' := by simpa using hheld.trans hmoved
        exact iff_of_false hkept.not_balanced (hiff.not.mpr hwalks)

/-- The counts balance after a lookup exactly if the path is empty or every component of it is
found: every other exit keeps a reference. -/
theorem path_lookup_balanced (h : retainInodeByPath inode pathname env k s = .ok found s') :
    Balanced s s' found ↔ pathname 0 = 0 ∨ PathFound env k inode pathname s := by
  unfold retainInodeByPath at h
  rw [ite_run] at h
  split at h
  · rename_i hempty
    simp only [pure_run, Res.ok.injEq] at h
    obtain ⟨rfl, rfl⟩ := h
    exact iff_of_true (fun _ => rfl) (.inl hempty)
  · rename_i hempty
    dsimp only at h
    rw [update_bind] at h
    rw [pathLoop_balanced (inodeUp_shifts inode) h]
    exact ⟨.inr, fun hor => hor.resolve_left hempty⟩

end Path

/-- Inode 5 of a device, a file that is held once. -/
def heldFile : Sys 1 :=
  (Sys.load fun _ _ _ => 7).setInode 0 fun x =>
    { x with iMode := 0x81A4, iNlinks := 1, iDev := 0x300, iNum := 5, iCount := 1 }

/-- The path `a/`. -/
def slashPath : ℕ → UInt8
  | 0 => 0x61
  | 1 => 0x2F
  | _ => 0

/-- The path is looked up from the file. -/
theorem path_lookup_balanced_file :
    Balanced heldFile (heldFile.inodeUp 0) none ↔
      slashPath 0 = 0 ∨ PathFound (Env.diligent 0x50) 20 0 slashPath heldFile :=
  path_lookup_balanced (k := 20) (s := heldFile) rfl

/-- The file is no directory, and its count stays up. -/
theorem path_lookup_leaks :
    ¬ ∀ (found : Option (Fin nrInode)) (s' : Sys 1),
      retainInodeByPath 0 slashPath (Env.diligent 0x50) 20 heldFile = .ok found s' →
      Balanced heldFile s' found := by
  intro h
  have hcount : (2 : ZMod 65536) = 1 := h none (heldFile.inodeUp 0) rfl 0
  exact absurd hcount (by decide)

end EgGS
