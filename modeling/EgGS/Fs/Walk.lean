import EgGS.Cache.Runs
import EgGS.Fs.Balance

/-!
# Walking along a path

The components of a path that are followed by a slash are looked up one after the other,
each in the inode that the one before it led to.  `walkPath` is this walk over the list of
components, with the lookups it makes; which inodes it enters is a parameter.

`retain_inode_by_path` is the walk that enters an inode if the inode it started from is a
directory.  It asks the mode of `inode`, not of `res_inode`.

* `path_walk`: this is the walk through directories exactly if every inode it comes to is
  a directory if and only if the first one is.
-/

namespace EgGS

open Lib Prog

variable {n : ℕ} {env : Env n} {k : ℕ} {s : Sys n}

/-! ## Names and paths in memory -/

/-- The bytes of a name. -/
def nameOf (c : List UInt8) (j : ℕ) : UInt8 := c.getD j 0

/-- The string at `pathname` is `path`, and a zero byte ends it. -/
structure IsString (pathname : ℕ → UInt8) (path : List UInt8) : Prop where
  bytes : ∀ i (h : i < path.length), pathname i = path[i]
  zero : pathname path.length = 0
  nonzero : 0 ∉ path

/-- The components of a path that are followed by a slash, after one leading slash. -/
def components (path : List UInt8) : List (List UInt8) :=
  ((if path.head? = some 0x2F then path.tail else path).splitOn 0x2F).dropLast

/-- The components of the rest of a path, of which `c` has been read already. -/
def componentsFrom (c : List UInt8) : List UInt8 → List (List UInt8)
  | [] => []
  | b :: p => if b = 0x2F then c :: componentsFrom [] p else componentsFrom (c ++ [b]) p

theorem componentsFrom_eq (c p : List UInt8) :
    componentsFrom c p = ((p.splitOn 0x2F).modifyHead (c ++ ·)).dropLast := by
  induction p generalizing c with
  | nil => rfl
  | cons b p ih =>
      rw [List.splitOn_cons_eq_if_modifyHead, componentsFrom]
      by_cases hb : b = 0x2F
      · have hne : p.splitOn 0x2F ≠ [] := List.splitOn_ne_nil _ _
        simp only [hb, ↓reduceIte, beq_self_eq_true, List.modifyHead_cons, List.append_nil, ih]
        rw [List.dropLast_cons_of_ne_nil hne]
        cases p.splitOn 0x2F <;> rfl
      · have hb' : (b == 0x2F) = false := by simpa using hb
        simp only [hb, ↓reduceIte, hb', Bool.false_eq_true, ih, List.modifyHead_modifyHead]
        congr 2
        funext l
        simp

theorem components_eq (path : List UInt8) :
    components path = componentsFrom [] (if path.head? = some 0x2F then path.tail else path) := by
  rw [componentsFrom_eq, components]
  cases List.splitOn 0x2F (if path.head? = some 0x2F then path.tail else path) <;> rfl

/-! ## A lookup reads `namelen` bytes of the name -/

section Names

variable {name name' : ℕ → UInt8} {len : ℕ}

theorem matchName_congr (h : ∀ j < len, name j = name' j) (uName : ℕ → UInt8) :
    matchName len name uName = matchName len name' uName := by
  unfold matchName
  congr 1
  rw [Bool.eq_iff_iff, List.all_eq_true, List.all_eq_true]
  refine forall₂_congr fun j hj => ?_
  rw [h j (List.mem_range.mp hj)]

theorem retainInodeByName_congr (inode : Fin nrInode) (h : ∀ j < len, name j = name' j) :
    (retainInodeByName inode name len : P n _) = retainInodeByName inode name' len := by
  have hmin : ∀ j < min len nameLen, name j = name' j := fun j hj =>
    h j (lt_of_lt_of_le hj (Nat.min_le_left _ _))
  have hcheck : checkEntry (n := n) name (min len nameLen) =
      checkEntry name' (min len nameLen) := by
    funext i e bh
    unfold checkEntry
    simp only [matchName_congr hmin]
  have hdots : crossDots (n := n) inode name (min len nameLen) =
      crossDots inode name' (min len nameLen) := by
    unfold crossDots
    by_cases htwo : min len nameLen = 2
    · rw [hmin 0 (by omega), hmin 1 (by omega)]
    · simp only [htwo, false_and, ↓reduceIte]
  unfold retainInodeByName lookupName scanEntries
  simp only [hcheck, hdots]

end Names

/-! ## The walk -/

/-- A name is looked up in an inode. -/
abbrev Visit := Fin nrInode × List UInt8

/-- Look the name `c` up in `d`, and give `d` back if it is found. -/
def descend (d : Fin nrInode) (c : List UInt8) : P n (Option (Fin nrInode)) := do
  match ← retainInodeByName d (nameOf c) c.length with
  | (_, none) => pure none
  | (d', some e) => do
    putInode (some d')
    pure (some e)

/-- The walk from `d` along the components: the lookups made, and the inode at the end.  An
inode that `enters` does not let through ends the walk. -/
def walkPath (enters : Sys n → Fin nrInode → Bool) :
    List (List UInt8) → Fin nrInode → P n (List Visit × Option (Fin nrInode))
  | [], d => pure ([], some d)
  | c :: cs, d => do
    let s ← Prog.read
    if !enters s d then
      pure ([], none)
    else do
      match ← descend d c with
      | none => pure ([(d, c)], none)
      | some e => do
        let (visits, found) ← walkPath enters cs e
        pure ((d, c) :: visits, found)

/-- Where the walk ends. -/
def walkEnd (enters : Sys n → Fin nrInode → Bool) (cs : List (List UInt8)) (d : Fin nrInode) :
    P n (Option (Fin nrInode)) := do
  let (_, found) ← walkPath enters cs d
  pure found

/-- The inode is a directory. -/
def isDirectory (s : Sys n) (d : Fin nrInode) : Bool := isDir (s.inode d).iMode

/-- The start of the walk is a directory; this is what `retain_inode_by_path` asks. -/
def startsIn (inode : Fin nrInode) (s : Sys n) (_ : Fin nrInode) : Bool := isDirectory s inode

section Runs

variable (enters : Sys n → Fin nrInode → Bool) {c : List UInt8} {cs : List (List UInt8)}
variable {d e : Fin nrInode} {t : Sys n}

theorem walkPath_barred (hin : enters s d = false) :
    walkPath enters (c :: cs) d env k s = .ok ([], none) s := by
  simp [walkPath, hin]

theorem walkPath_entered (hin : enters s d = true) :
    walkPath enters (c :: cs) d env k s =
      match descend d c env k s with
      | .stop why t => .stop why t
      | .ok none t => .ok ([(d, c)], none) t
      | .ok (some e) t =>
        match walkPath enters cs e env k t with
        | .stop why t => .stop why t
        | .ok (visits, found) t => .ok ((d, c) :: visits, found) t := by
  rw [walkPath, read_bind, ite_run, if_neg (by simp [hin]), bind_run]
  cases descend d c env k s with
  | stop why t => rfl
  | ok made t =>
      cases made with
      | none => rfl
      | some e =>
          dsimp only
          rw [bind_run]
          cases walkPath enters cs e env k t <;> rfl

theorem walkEnd_run (cs : List (List UInt8)) (d : Fin nrInode) :
    walkEnd enters cs d env k s =
      match walkPath enters cs d env k s with
      | .stop why t => .stop why t
      | .ok (_, found) t => .ok found t := by
  rw [walkEnd, bind_run]
  cases walkPath enters cs d env k s <;> rfl

theorem walkEnd_barred (hin : enters s d = false) :
    walkEnd enters (c :: cs) d env k s = .ok none s := by
  rw [walkEnd_run, walkPath_barred enters hin]

theorem walkEnd_entered (hin : enters s d = true) :
    walkEnd enters (c :: cs) d env k s =
      match descend d c env k s with
      | .stop why t => .stop why t
      | .ok none t => .ok none t
      | .ok (some e) t => walkEnd enters cs e env k t := by
  rw [walkEnd_run, walkPath_entered enters hin]
  cases descend d c env k s with
  | stop why t => rfl
  | ok made t =>
      cases made with
      | none => rfl
      | some e =>
          dsimp only
          rw [walkEnd_run]
          cases walkPath enters cs e env k t <;> rfl

end Runs

/-! ## The loop is the walk -/

section Loop

variable {inode : Fin nrInode} {pathname : ℕ → UInt8} {path : List UInt8}

/-- The loop of `retain_inode_by_path` has the component `c` behind it and the string `p` in
front of it. -/
theorem pathLoop_walk (p : List UInt8) : ∀ (c : List UInt8) (res : Fin nrInode)
    (thisname pos j : ℕ) (s : Sys n), p.length < j → thisname + c.length = pos →
    (∀ i < c.length, pathname (thisname + i) = nameOf c i) →
    IsString (fun i => pathname (pos + i)) p →
    rounds (fun x => pathRound inode pathname x.1 x.2.1 x.2.2.1 x.2.2.2) j
      (res, thisname, c.length, pos) env k s =
    walkEnd (startsIn inode) (componentsFrom c p) res env k s := by
  -- on the rest of the path; `c` is what has been read of the component
  induction p with
  | nil =>
      intro c res thisname pos j s hj _ _ hrest
      obtain ⟨j, rfl⟩ : ∃ i, j = i + 1 := ⟨j - 1, by simp at hj; omega⟩
      have hend : pathname pos = 0 := hrest.zero
      rw [rounds, bind_run]
      simp [pathRound, hend, componentsFrom, walkEnd, walkPath]
  | cons b p ih =>
      intro c res thisname pos j s hj hpos hname hrest
      obtain ⟨j, rfl⟩ : ∃ i, j = i + 1 := ⟨j - 1, by simp at hj; omega⟩
      have hj : p.length < j := by simpa using hj
      have hbyte : pathname pos = b := hrest.bytes 0 (by simp)
      have hb : b ≠ 0 := fun h => hrest.nonzero (by simp [h])
      have htail : IsString (fun i => pathname (pos + 1 + i)) p := by
        refine ⟨fun i hi => ?_, ?_, fun h => hrest.nonzero (by simp [h])⟩
        · have hnext := hrest.bytes (i + 1) (by simpa using hi)
          rw [show pos + 1 + i = pos + (i + 1) by omega]
          simpa using hnext
        · have hend := hrest.zero
          rw [show pos + 1 + p.length = pos + (p.length + 1) by omega]
          simpa using hend
      have hround : pathRound inode pathname res thisname c.length pos env k s =
          (if b ≠ 0x2F then pure (.inl (res, thisname, c.length + 1, pos + 1))
          else do
            let s ← Prog.read
            if !isDir (s.inode inode).iMode then
              pure (.inr none)
            else do
              match ← retainInodeByName res (nameOf c) c.length with
              | (_, none) => pure (.inr none)
              | (resInode, some tmp) => do
                putInode (some resInode)
                pure (.inl (tmp, pos + 1, 0, pos + 1)) :
            P n ((Fin nrInode × ℕ × ℕ × ℕ) ⊕ Option (Fin nrInode))) env k s := by
        unfold pathRound
        rewrite [hbyte, if_neg hb, retainInodeByName_congr res hname]
        rfl
      rw [rounds, bind_run]
      dsimp only
      rw [hround]
      -- a slash ends the component, any other byte makes it longer
      by_cases hslash : b = 0x2F
      · have hnext := fun e t => ih [] e (pos + 1) (pos + 1) j t hj rfl (by simp) htail
        rw [componentsFrom, if_pos hslash]
        simp only [hslash, ne_eq, not_true_eq_false, ↓reduceIte, read_bind]
        by_cases hdir : isDirectory s inode = true
        · have hdir' : isDir (s.inode inode).iMode = true := hdir
          rw [walkEnd_entered (startsIn inode) hdir, descend, bind_run]
          simp only [hdir', Bool.not_true, Bool.false_eq_true, ↓reduceIte, bind_run]
          -- both sides do the same calls from here on, so only what comes back is split
          cases retainInodeByName res (nameOf c) c.length env k s with
          | stop why t => rfl
          | ok x t =>
              obtain ⟨res', made⟩ := x
              cases made with
              | none => rfl
              | some e =>
                  simp only [bind_run]
                  cases putInode (some res') env k t with
                  | stop why t' => rfl
                  | ok u t' => exact hnext e t'
        · have hdir : isDirectory s inode = false := by simpa using hdir
          have hdir' : isDir (s.inode inode).iMode = false := hdir
          rw [walkEnd_barred (startsIn inode) hdir]
          simp [hdir']
      · rw [componentsFrom, if_neg hslash]
        simp only [ne_eq, hslash, not_false_eq_true, ↓reduceIte, pure_run]
        have hlen : c.length + 1 = (c ++ [b]).length := by simp
        rw [hlen]
        refine ih (c ++ [b]) res thisname (pos + 1) j s hj (by simp; omega) (fun i hi => ?_) htail
        rcases Nat.lt_or_ge i c.length with hlt | hge
        · rw [hname i hlt]
          simp [nameOf, List.getElem?_append_left hlt]
        · obtain rfl : i = c.length := by simp at hi; omega
          rw [hpos, hbyte]
          simp [nameOf]

/-- **The walk of the code.** -/
theorem retainInodeByPath_walk (hstring : IsString pathname path) (hne : path ≠ [])
    (hfuel : path.length < k) :
    retainInodeByPath inode pathname env k s =
      walkEnd (startsIn inode) (components path) inode env k (s.inodeUp inode) := by
  obtain ⟨b, p, rfl⟩ := List.exists_cons_of_ne_nil hne
  have hbyte : pathname 0 = b := hstring.bytes 0 (by simp)
  have hb : b ≠ 0 := fun h => hstring.nonzero (by simp [h])
  rw [components_eq]
  have hloop : ∀ start (q : List UInt8), q.length < k → IsString (fun i => pathname (start + i)) q →
      _ = walkEnd (startsIn inode) (componentsFrom [] q) inode env k (s.inodeUp inode) :=
    fun start q hj hrest => pathLoop_walk q [] inode start start k _ hj rfl (by simp) hrest
  unfold retainInodeByPath
  rw [hbyte, if_neg hb, update_bind]
  by_cases hslash : b = 0x2F
  · simp only [hslash, ↓reduceIte, List.head?_cons, List.tail_cons]
    refine hloop 1 p (by simp at hfuel; omega) ⟨fun i hi => ?_, ?_, fun h => ?_⟩
    · have hnext := hstring.bytes (i + 1) (by simpa using hi)
      rw [Nat.add_comm 1 i]
      simpa using hnext
    · have hend := hstring.zero
      rw [Nat.add_comm 1]
      simpa using hend
    · exact hstring.nonzero (by simp [h])
  · simp only [hslash, ↓reduceIte, List.head?_cons, Option.some.injEq]
    refine hloop 0 (b :: p) hfuel ⟨fun i hi => ?_, ?_, hstring.nonzero⟩
    · rw [Nat.zero_add]
      exact hstring.bytes i hi
    · rw [Nat.zero_add]
      exact hstring.zero

end Loop

/-! ## Two tests -/

/-- Wherever the walk comes with a component left, the inode is a directory if and only if
the start of the walk is. -/
def KindsAgree (env : Env n) (k : ℕ) (inode : Fin nrInode) :
    List (List UInt8) → Fin nrInode → Sys n → Prop
  | [], _, _ => True
  | c :: cs, d, s => isDirectory s d = isDirectory s inode ∧
      (isDirectory s d = true → ∀ e t, descend d c env k s = .ok (some e) t →
        KindsAgree env k inode cs e t)

section Agree

variable {inode : Fin nrInode}

/-- An inode that is entered is looked into. -/
theorem walkPath_visits (enters : Sys n → Fin nrInode → Bool) {c : List UInt8}
    {cs : List (List UInt8)} {d : Fin nrInode} (hin : enters s d = true) :
    walkPath enters (c :: cs) d env k s ≠ .ok ([], none) s := by
  rw [walkPath_entered enters hin]
  cases descend d c env k s with
  | stop why t => simp
  | ok made t =>
      cases made with
      | none => simp
      | some e =>
          dsimp only
          cases walkPath enters cs e env k t <;> simp

/-- The two walks are the same exactly if the tests agree on the way. -/
theorem walkPath_agree (cs : List (List UInt8)) : ∀ (d : Fin nrInode) (s : Sys n),
    walkPath (startsIn inode) cs d env k s = walkPath isDirectory cs d env k s ↔
      KindsAgree env k inode cs d s := by
  induction cs with
  | nil => exact fun d s => iff_of_true rfl trivial
  | cons c cs ih =>
      intro d s
      rw [KindsAgree]
      cases hstart : isDirectory s inode with
      | false =>
          rw [walkPath_barred (startsIn inode) hstart]
          cases hhere : isDirectory s d with
          | false => simp [walkPath_barred isDirectory hhere]
          | true => simpa using (walkPath_visits isDirectory hhere).symm
      | true =>
          have hin : startsIn inode s d = true := hstart
          cases hhere : isDirectory s d with
          | false =>
              simpa [walkPath_barred isDirectory hhere] using walkPath_visits (startsIn inode) hin
          | true =>
              rw [walkPath_entered (startsIn inode) hin, walkPath_entered isDirectory hhere]
              simp only [true_and, forall_const]
              cases descend d c env k s with
              | stop why t => simp
              | ok made t =>
                  cases made with
                  | none => simp
                  | some e =>
                      simp only [Res.ok.injEq, Option.some.injEq, and_imp, forall_apply_eq_imp_iff,
                        forall_eq']
                      rw [← ih e t]
                      cases walkPath (startsIn inode) cs e env k t <;>
                        cases walkPath isDirectory cs e env k t <;> simp [Prod.ext_iff]

end Agree

/-- **Walking along a path.**  `retain_inode_by_path` is the walk that asks whether its start
is a directory.  Its lookups and its result are those of the walk through directories exactly
if every inode it comes to with a component left is a directory if and only if the start is. -/
theorem path_walk {inode : Fin nrInode} {pathname : ℕ → UInt8} {path : List UInt8}
    (hstring : IsString pathname path) (hne : path ≠ []) (hfuel : path.length < k) :
    retainInodeByPath inode pathname env k s =
        walkEnd (startsIn inode) (components path) inode env k (s.inodeUp inode) ∧
      (walkPath (startsIn inode) (components path) inode env k (s.inodeUp inode) =
          walkPath isDirectory (components path) inode env k (s.inodeUp inode) ↔
        KindsAgree env k inode (components path) inode (s.inodeUp inode)) :=
  ⟨retainInodeByPath_walk hstring hne hfuel, walkPath_agree (components path) inode _⟩

/-! ## A file on the way -/

/-- A sector with one directory entry, of one letter. -/
def entrySector (num letter : UInt8) : Sector := fun i =>
  if i = 0 then num else if i = 2 then letter else 0

/-- Block 2 of the disk has the entry `a`, for inode 6, and block 3 the entry `b`, for
inode 7. -/
def twoEntries : Disk := fun _ lba =>
  if lba = 4 then entrySector 6 0x61 else if lba = 6 then entrySector 7 0x62 else fun _ => 0

/-- Inode `num` of device `0x300`, with one entry in block `zone`. -/
def entryInode (num : ℕ) (mode zone : UInt16) (x : MInode) : MInode :=
  { x with
    iMode := mode, iSize := 32, iNlinks := 1, iZone := fun z => if z = 0 then zone else 0
    iDev := 0x300, iNum := num, iCount := 1 }

/-- A directory whose entry `a` is a file, which contains what looks like an entry `b`. -/
def fileInside : Sys 1 :=
  ((({ initBuff oneHeader with disk := twoEntries }.setInode 0 (entryInode 5 0x41ED 2)).setInode 1
    (entryInode 6 0x81A4 3)).setInode 2 (entryInode 7 0x81A4 0))

/-- The path `a/b/`. -/
def nestedPath : List UInt8 := [0x61, 0x2F, 0x62, 0x2F]

theorem nestedPath_string : IsString (nameOf nestedPath) nestedPath where
  bytes i h := by simp [nameOf, h]
  zero := rfl
  nonzero := by decide

theorem path_walk_nested :
    retainInodeByPath 0 (nameOf nestedPath) (Env.diligent 0x50) 40 fileInside =
        walkEnd (startsIn 0) (components nestedPath) 0 (Env.diligent 0x50) 40
          (fileInside.inodeUp 0) ∧
      (walkPath (startsIn 0) (components nestedPath) 0 (Env.diligent 0x50) 40
          (fileInside.inodeUp 0) =
          walkPath isDirectory (components nestedPath) 0 (Env.diligent 0x50) 40
            (fileInside.inodeUp 0) ↔
        KindsAgree (Env.diligent 0x50) 40 0 (components nestedPath) 0 (fileInside.inodeUp 0)) :=
  path_walk nestedPath_string (by decide) (by decide)

/-- The name `b` is looked up in the file, and found. -/
theorem path_walk_into_file :
    ¬ ∀ (env : Env 1) (k : ℕ) (s : Sys 1) (inode : Fin nrInode) (pathname : ℕ → UInt8)
      (path : List UInt8), IsString pathname path → path ≠ [] → path.length < k →
      retainInodeByPath inode pathname env k s =
        walkEnd isDirectory (components path) inode env k (s.inodeUp inode) := by
  intro h
  have hsame := h (Env.diligent 0x50) 40 fileInside 0 _ _ nestedPath_string (by decide) (by decide)
  have hcode : (retainInodeByPath 0 (nameOf nestedPath) (Env.diligent 0x50) 40 fileInside).value? =
      some (some 2) := by decide +kernel
  have hwalk : (walkEnd isDirectory (components nestedPath) 0 (Env.diligent 0x50) 40
      (fileInside.inodeUp 0)).value? = some none := by decide +kernel
  rw [hsame, hwalk] at hcode
  exact absurd hcode (by decide)

end EgGS
