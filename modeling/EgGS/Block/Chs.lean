import EgGS.Block.Partition

/-!
# Cylinders, heads and sectors

`do_hd_request` divides the address of a request by the sectors per track and the quotient
by the number of heads, and `hd_out` writes the results to the controller, eight bits a
port.  `Ports` are the bytes on the ports, and `Ports.Denotes` says where on the disk the
controller goes when it reads them.

* `chs_addressing`: for a request that lies inside its partition, and a partition that lies
  inside its disk, no division is by zero, and the bytes of every read or write command
  denote the address of the request.
-/

namespace EgGS

open Lib Prog

variable {n : ℕ} {env : Env n} {k : ℕ} {s s' : Sys n} {r : Fin nrRequest}

/-! ## The ports of the controller -/

/-- The command bytes of `hdreg.h`. -/
def Win.code : Win → ℕ
  | .restore => 0x10
  | .read => 0x20
  | .write => 0x30
  | .specify => 0x91

/-- The bytes at the ports `HD_NSECTOR` to `HD_COMMAND`. -/
structure Ports where
  nsector : UInt8
  sector : UInt8
  lcyl : UInt8
  hcyl : UInt8
  current : UInt8
  command : UInt8
  deriving DecidableEq, Repr

/-- What `hd_out` writes: `outb` takes the low eight bits of its value. -/
def Command.ports (c : Command) : Ports where
  nsector := UInt8.ofNat c.nsect
  sector := UInt8.ofNat c.sec
  lcyl := UInt8.ofNat c.cyl
  hcyl := UInt8.ofNat (c.cyl >>> 8)
  current := UInt8.ofNat (0xA0 ||| (c.drive <<< 4) ||| c.head)
  command := UInt8.ofNat c.cmd.code

namespace Ports

/-- The cylinder the controller reads. -/
def cylinder (p : Ports) : ℕ := p.lcyl.toNat + 256 * p.hcyl.toNat

/-- The head, the low four bits of `HD_CURRENT` (`101dhhhh`). -/
def head (p : Ports) : ℕ := p.current.toNat % 16

/-- The drive, the bit above. -/
def drive (p : Ports) : ℕ := p.current.toNat / 16 % 2

/-- The ports name a place of a disk with the geometry `info`, and that is its sector `lba`. -/
structure Denotes (p : Ports) (info : HdInfo) (lba : ℕ) : Prop where
  cylinder : p.cylinder < info.cyl
  head : p.head < info.head
  first : 1 ≤ p.sector.toNat
  last : p.sector.toNat ≤ info.sect
  lba : (p.cylinder * info.head + p.head) * info.sect + (p.sector.toNat - 1) = lba

end Ports

/-- The head and the drive share a port. -/
theorem current_toNat {drive head : ℕ} (hdrive : drive ≤ 1) (hhead : head ≤ 15) :
    (UInt8.ofNat (0xA0 ||| (drive <<< 4) ||| head)).toNat = 160 + 16 * drive + head := by
  have hall : ∀ d : Fin 2, ∀ h : Fin 16,
      (UInt8.ofNat (0xA0 ||| (d.val <<< 4) ||| h.val)).toNat = 160 + 16 * d.val + h.val := by
    decide
  exact hall ⟨drive, by omega⟩ ⟨head, by omega⟩

section Command

variable {c : Command}

theorem Command.ports_cylinder : c.ports.cylinder = c.cyl % 65536 := by
  simp only [Ports.cylinder, Command.ports, UInt8.toNat_ofNat', Nat.shiftRight_eq_div_pow]
  omega

theorem Command.ports_sector (h : c.sec < 256) : c.ports.sector.toNat = c.sec := by
  simp only [Command.ports, UInt8.toNat_ofNat']
  omega

theorem Command.ports_head (hdrive : c.drive ≤ 1) (hhead : c.head ≤ 15) :
    c.ports.head = c.head := by
  simp only [Ports.head, Command.ports, current_toNat hdrive hhead]
  omega

theorem Command.ports_drive (hdrive : c.drive ≤ 1) (hhead : c.head ≤ 15) :
    c.ports.drive = c.drive := by
  simp only [Ports.drive, Command.ports, current_toNat hdrive hhead]
  omega

/-- The place that the ports name is where `Command.reached` says that the controller goes. -/
theorem Command.ports_reached (info : HdInfo) (hdrive : c.drive ≤ 1) (hhead : c.head ≤ 15)
    (hsec : c.sec < 256) :
    (c.ports.cylinder * info.head + c.ports.head) * info.sect + (c.ports.sector.toNat - 1) =
      c.reached info := by
  rw [Command.ports_cylinder, Command.ports_head hdrive hhead, Command.ports_sector hsec,
    Command.reached]

end Command

/-! ## Geometries -/

/-- The number of sectors of a disk. -/
def HdInfo.size (info : HdInfo) : ℕ := info.cyl * info.head * info.sect

/-- The geometry has the widths of the fields that `init_hd_info` reads it from. -/
structure HdInfo.Narrow (info : HdInfo) : Prop where
  cyl : info.cyl < 65536
  head : info.head < 256
  sect : info.sect < 256

/-- The addresses of a disk are 32-bit words. -/
theorem HdInfo.Narrow.size_lt {info : HdInfo} (h : info.Narrow) : info.size < 4294967296 := by
  have hcyl := h.cyl
  have hhead := h.head
  have hsect := h.sect
  calc info.cyl * info.head * info.sect ≤ 65535 * 255 * 255 :=
        Nat.mul_le_mul (Nat.mul_le_mul (by omega) (by omega)) (by omega)
    _ < 4294967296 := by decide

/-- The two divisions, and back. -/
theorem chsCommand_denotes {info : HdInfo} {drive lba nsect : ℕ} {cmd : Win} (h : info.Narrow)
    (hlba : lba < info.size) (hdrive : drive ≤ 1)
    (hhead : (chsCommand info drive lba nsect cmd).head ≤ 15) :
    (chsCommand info drive lba nsect cmd).ports.Denotes info lba := by
  have hsect : 0 < info.sect := by
    apply Nat.pos_of_ne_zero
    intro hzero
    simp [HdInfo.size, hzero] at hlba
  have hheads : 0 < info.head := by
    apply Nat.pos_of_ne_zero
    intro hzero
    simp [HdInfo.size, hzero] at hlba
  have hcyl : lba / info.sect / info.head < info.cyl := by
    rw [Nat.div_lt_iff_lt_mul hheads, Nat.div_lt_iff_lt_mul hsect]
    exact hlba
  have hrem : lba % info.sect < info.sect := Nat.mod_lt _ hsect
  have hnarrow := h.cyl
  have hnarrow' := h.sect
  have hfits : lba / info.sect / info.head < 65536 := by omega
  have hports : (chsCommand info drive lba nsect cmd).ports.cylinder =
    lba / info.sect / info.head :=
    Command.ports_cylinder.trans (Nat.mod_eq_of_lt hfits)
  have hshort : (chsCommand info drive lba nsect cmd).sec < 256 := by
    change lba % info.sect + 1 < 256
    omega
  have hsec : (chsCommand info drive lba nsect cmd).ports.sector.toNat = lba % info.sect + 1 :=
    Command.ports_sector hshort
  have hhd : (chsCommand info drive lba nsect cmd).ports.head = lba / info.sect % info.head :=
    Command.ports_head (c := chsCommand info drive lba nsect cmd) hdrive hhead
  constructor
  · rw [hports]
    exact hcyl
  · rw [hhd]
    exact Nat.mod_lt _ hheads
  · omega
  · omega
  · exact (Command.ports_reached info hdrive hhead hshort).trans (HdInfo.reached_eq hfits)

/-! ## What a pass sends -/

/-- Something happened, but no command was sent. -/
def Silent (s s' : Sys n) : Prop := ∃ es, s'.log = es ++ s.log ∧ ∀ c, .command c ∉ es

theorem Silent.of_log (h : s'.log = s.log) : Silent s s' := ⟨[], h, by simp⟩

theorem endRequest_silent (ok : Bool) (s : Sys n) : Silent s (endRequest ok s) := by
  unfold endRequest
  split
  · exact ⟨[.nullAccess], rfl, by simp⟩
  · split
    · exact .of_log rfl
    · exact ⟨[_], rfl, by simp⟩

theorem portWrite_silent (ptr : Option (BufPtr n)) (s : Sys n) : Silent s (portWrite ptr s) := by
  cases ptr with
  | none => exact .of_log rfl
  | some p => exact ⟨[.dataPhase p], rfl, by simp⟩

theorem Failed.silent (hf : Failed s s') : Silent s s' := by
  cases hf with
  | null _ => exact ⟨_, rfl, by simp⟩
  | retry _ _ _ => exact .of_log rfl
  | @giveUp r reset j _ _ _ =>
      obtain ⟨es, hlog, hes⟩ := endRequest_silent false (addError r s)
      refine ⟨List.replicate j .nullAccess ++ es, ?_, by simp [hes]⟩
      rw [List.append_assoc]
      exact congrArg (List.replicate j .nullAccess ++ ·) hlog

/-- The run from `s`, whether it returns or stops, adds to the history, and the commands it
sends are of the kind `which`. -/
def Sends {α : Type} (which : Command → Prop) (m : P n α) (env : Env n) (s : Sys n) : Prop :=
  ∀ k, ∃ es, (m env k s).state.log = es ++ s.log ∧ ∀ c, .command c ∈ es → which c

section Sends

variable {α β : Type} {which : Command → Prop} {m m' : P n α} {f : α → P n β}

theorem Sends.of_log (h : ∀ k, (m env k s).state.log = s.log) : Sends which m env s :=
  fun k => ⟨[], by rw [h k, List.nil_append], by simp⟩

theorem Sends.pure (a : α) : Sends which (pure a) env s := .of_log fun _ => rfl

theorem Sends.halt (why : Stop) : Sends which (Prog.halt why : P n α) env s := .of_log fun _ => rfl

theorem Sends.update {g : Sys n → Sys n} (h : Silent s (g s)) :
    Sends which (Prog.update g) env s := by
  obtain ⟨es, hlog, hes⟩ := h
  exact fun _ => ⟨es, hlog, fun c hc => absurd hc (hes c)⟩

theorem Sends.bind (hm : Sends which m env s)
    (hf : ∀ k a t, m env k s = .ok a t → Sends which (f a) env t) :
    Sends which (m >>= f) env s := by
  intro k
  obtain ⟨es, hlog, hes⟩ := hm k
  rw [bind_run]
  cases hrun : m env k s with
  | stop why t =>
      rw [hrun] at hlog
      exact ⟨es, hlog, hes⟩
  | ok a t =>
      rw [hrun] at hlog
      obtain ⟨es', hlog', hes'⟩ := hf k a t hrun k
      refine ⟨es' ++ es, ?_, fun c hc => ?_⟩
      · rw [hlog', List.append_assoc]
        exact congrArg _ hlog
      · rcases List.mem_append.mp hc with hc | hc
        · exact hes' c hc
        · exact hes c hc

theorem Sends.bind_read {f : Sys n → P n β} (hf : Sends which (f s) env s) :
    Sends which (Prog.read >>= f) env s := hf

theorem Sends.bind_ask {g : Env n → Sys n → α} (hf : Sends which (f (g env s)) env s) :
    Sends which (Prog.ask g >>= f) env s := hf

theorem Sends.ite {c : Prop} [Decidable c] (h : c → Sends which m env s)
    (h' : ¬ c → Sends which m' env s) : Sends which (if c then m else m') env s := by
  by_cases hc : c
  · rw [if_pos hc]
    exact h hc
  · rw [if_neg hc]
    exact h' hc

end Sends

theorem hdOut_sends {which : Command → Prop} {c : Command} (handler : Handler)
    (h : c.drive ≤ 1 → c.head ≤ 15 → which c) : Sends which (hdOut c handler) env s := by
  refine .ite (fun _ => .halt _) fun hcheck => .bind_ask (.ite (fun _ => ?_) fun _ => .halt _)
  intro k
  refine ⟨[.command c], rfl, fun c' hc' => ?_⟩
  obtain rfl : c' = c := by simpa using hc'
  exact h (by omega) (by omega)

/-- A pass sends the request in service, if `hd_out` lets it through, or resets the drive. -/
theorem hdRequestPass_sends {which : Command → Prop}
    (hother : ∀ c, c.cmd = .specify ∨ c.cmd = .restore → which c)
    (h : ∀ r cmd, Served s r → (s.transferCommand r cmd).drive ≤ 1 →
      (s.transferCommand r cmd).head ≤ 15 → which (s.transferCommand r cmd)) :
    Sends which hdRequestPass env s := by
  refine .bind_read ?_
  cases hcur : s.current with
  | none => exact .pure _
  | some r =>
      refine .ite (fun _ => .halt _) fun hmajor => .ite (fun _ => .halt _) fun _ =>
        .ite (fun _ => .bind (.update (endRequest_silent false s)) fun _ _ _ _ => .pure _)
          fun hout => .ite (fun _ => .halt _) fun _ => ?_
      have hserved : Served s r := ⟨hcur, not_not.mp hmajor, by simpa using hout⟩
      refine .ite (fun _ => ?reset) fun _ => .ite (fun _ => ?recalibrate) fun _ =>
        .ite (fun _ => ?write) fun _ => .ite (fun _ => ?read) fun _ => .halt _
      case reset =>
        refine .bind (.update (.of_log rfl)) fun _ _ t _ =>
          .bind (.bind_read ?_) fun _ _ _ _ => .pure _
        exact hdOut_sends _ fun _ _ => hother _ (.inl rfl)
      case recalibrate =>
        refine .bind (.update (.of_log rfl)) fun _ _ t _ => .bind ?_ fun _ _ _ _ => .pure _
        exact hdOut_sends _ fun _ _ => hother _ (.inr rfl)
      case write =>
        refine .bind (hdOut_sends _ (h r .write hserved)) fun _ _ t _ => .bind_ask
          (.ite (fun _ => .bind (.update (portWrite_silent _ t)) fun _ _ _ _ => .pure _) fun _ =>
          ?_)
        refine .bind (.update (.of_log rfl)) fun _ _ u _ => .bind ?_ fun _ _ _ _ => .pure _
        exact .bind_ask (.update (failed_cases env u).silent)
      case read => exact .bind (hdOut_sends _ (h r .read hserved)) fun _ _ _ _ => .pure _

/-! ## The address of a request -/

/-- The partition lies inside its disk, whose geometry is as wide as the fields it is read
from. -/
structure Geometry.OnDisk (geo : Geometry) (partition : ℕ) : Prop where
  narrow : (geo.hdInfo (partition / 5)).Narrow
  inside : (geo.partitionInfo partition).startSect + (geo.partitionInfo partition).nrSects ≤
    (geo.hdInfo (partition / 5)).size

/-- The partition of the request in slot `r`. -/
def Sys.partition (s : Sys n) (r : Fin nrRequest) : ℕ := minor (unsigned (s.request r).dev)

/-- The request in slot `r` fits into its partition. -/
def Sys.FitsPartition (s : Sys n) (r : Fin nrRequest) : Prop :=
  (s.request r).sector + 2 ≤ (s.geo.partitionInfo (s.partition r)).nrSects

/-- The sector of the disk at which the request in slot `r` starts, as a natural number. -/
def Sys.firstSector (s : Sys n) (r : Fin nrRequest) : ℕ :=
  (s.geo.partitionInfo (s.partition r)).startSect + (s.request r).sector

/-- The bytes of the command denote the address of the request in slot `r`, on its drive. -/
def Sys.Addressed (s : Sys n) (r : Fin nrRequest) (c : Command) : Prop :=
  c.ports.drive = s.partition r / 5 ∧
    c.ports.Denotes (s.geo.hdInfo (s.partition r / 5)) (s.firstSector r)

section Request

variable (hinside : s.geo.OnDisk (s.partition r)) (hfits : s.FitsPartition r)
include hinside hfits

theorem firstSector_lt : s.firstSector r < (s.geo.hdInfo (s.partition r / 5)).size := by
  have h := hinside.inside
  rw [Sys.FitsPartition] at hfits
  rw [Sys.firstSector]
  omega

/-- The disk has a sector, so it has tracks and heads. -/
theorem divisors_ne_zero : (s.geo.hdInfo (s.partition r / 5)).sect ≠ 0 ∧
    (s.geo.hdInfo (s.partition r / 5)).head ≠ 0 := by
  have hlt := firstSector_lt hinside hfits
  constructor <;> intro hzero <;> simp [HdInfo.size, hzero] at hlt

/-- The address does not wrap. -/
theorem lba_eq_firstSector :
    s.geo.lba (unsigned (s.request r).dev) (s.request r).sector = s.firstSector r := by
  have hlt := (firstSector_lt hinside hfits).trans hinside.narrow.size_lt
  rw [Geometry.lba, Nat.add_comm]
  exact Nat.mod_eq_of_lt hlt

theorem transferCommand_addressed {cmd : Win} (hdrive : (s.transferCommand r cmd).drive ≤ 1)
    (hhead : (s.transferCommand r cmd).head ≤ 15) : s.Addressed r (s.transferCommand r cmd) := by
  have hlba := lba_eq_firstSector hinside hfits
  refine ⟨Command.ports_drive hdrive hhead, ?_⟩
  rw [Sys.transferCommand, hlba] at hhead ⊢
  exact chsCommand_denotes hinside.narrow (firstSector_lt hinside hfits) hdrive hhead

theorem hdRequestPass_divides (hcur : s.current = some r) :
    Avoids (· = .fault "division by zero") hdRequestPass env s := by
  obtain ⟨hsect, hhead⟩ := divisors_ne_zero hinside hfits
  have hpanic : ∀ {α : Type} message (t : Sys n),
      Avoids (· = .fault "division by zero") (panic message : P n α) env t :=
    fun _ _ => .halt (by simp)
  have hout : ∀ c h (t : Sys n), Avoids (· = .fault "division by zero") (hdOut c h) env t :=
    fun c h t => .ite (fun _ => hpanic _ t) fun _ => .bind (.ask _) fun _ _ u _ =>
      .ite (fun _ => .update _ ) fun _ => hpanic _ u
  refine .bind_read ?_
  simp only [hcur]
  refine .ite (fun _ => hpanic _ s) fun _ => .ite (fun _ => hpanic _ s) fun _ =>
    .ite (fun _ => .bind (.update _) fun _ _ _ _ => .pure _) fun _ =>
      .ite (fun hzero => (hzero.elim hsect hhead).elim) fun _ =>
        .ite (fun _ => ?_) fun _ => .ite (fun _ => ?_) fun _ => .ite (fun _ => ?_) fun _ =>
          .ite (fun _ => .bind (hout _ _ s) fun _ _ _ _ => .pure _) fun _ => hpanic _ s
  · exact .bind (.update _) fun _ _ t _ => .bind (.bind_read (hout _ _ t)) fun _ _ _ _ => .pure _
  · exact .bind (.update _) fun _ _ t _ => .bind (hout _ _ t) fun _ _ _ _ => .pure _
  · refine .bind (hout _ _ s) fun _ _ t _ => .bind (.ask _) fun _ _ _ _ =>
      .ite (fun _ => .bind (.update _) fun _ _ _ _ => .pure _) fun _ => ?_
    exact .bind (.update _) fun _ _ _ _ =>
      .bind (.bind (.ask _) fun _ _ _ _ => .update _) fun _ _ _ _ => .pure _

end Request

/-- **Addressing.**  If the partition of the request in service lies inside its disk and the
request fits into the partition, then `do_hd_request` does not divide by zero, and whenever
`hd_out` lets a read or write command through, the bytes it writes to the ports denote a
cylinder, a head and a sector of the disk, and these are the first sector of the request. -/
theorem chs_addressing (env : Env n) (hcur : s.current = some r)
    (hinside : s.geo.OnDisk (s.partition r)) (hfits : s.FitsPartition r) :
    Avoids (· = .fault "division by zero") hdRequestPass env s ∧
      Sends (fun c => c.cmd = .read ∨ c.cmd = .write → s.Addressed r c) hdRequestPass env s := by
  refine ⟨hdRequestPass_divides hinside hfits hcur, hdRequestPass_sends ?_ ?_⟩
  · intro c hother hcmd
    rcases hother with h | h <;> rcases hcmd with h' | h' <;> exact absurd (h.symm.trans h')
      (by decide)
  · intro r' cmd hserved hdrive hhead _
    obtain rfl : r = r' := Option.some.inj (hcur.symm.trans hserved.current)
    exact transferCommand_addressed hinside hfits hdrive hhead

/-- A read of the last block of a disk of 100 cylinders, 2 heads and 8 sectors a track. -/
def lastBlockCalled : Sys 1 :=
  { oneBuffer with
    current := some 0
    reset := false
    recalibrate := false
    request := fun _ =>
      { dev := 0x300, cmd := .read, errors := 0, sector := 1598, nrSectors := 2
        buffer := some ⟨0, 0⟩, bh := some 0, next := none } }

theorem chs_addressing_last :
    Avoids (· = .fault "division by zero") hdRequestPass (Env.diligent 0x50) lastBlockCalled ∧
      Sends (fun c => c.cmd = .read ∨ c.cmd = .write → lastBlockCalled.Addressed 0 c)
        hdRequestPass (Env.diligent 0x50) lastBlockCalled :=
  chs_addressing _ rfl ⟨⟨by decide, by decide, by decide⟩, by decide⟩
    (by unfold Sys.FitsPartition; decide)

example : (lastBlockCalled.transferCommand 0 .read).ports = ⟨2, 7, 99, 0, 0xA1, 0x20⟩ := by decide

end EgGS
