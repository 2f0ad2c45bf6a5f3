import EgGS.Irq.Dispatch

/-!
# The clock (`timer.c`)

Along every run each request of a line is accounted for: it is served once, or it is still pending
in the end, unless it was made while one was pending (`Lines.accounted`).  With `timer_handler`
installed for line 0, `timer_ticks` therefore counts the ticks of the clock, but for those that come
before the interrupt of the last one was taken (`clock_counts`), and `timer_wait` waits for as many
(`timer_waits`).
-/

namespace EgGS

variable {ρ : Type}

/-! ## Every request is accounted for -/

namespace Lines

/-- The event is a request of line `k`. -/
def asks (k : Fin 16) : IrqEvent ρ → Bool
  | .raise line => line = k
  | _ => false

/-- The requests of line `k` in a run that find none pending. -/
def requests (k : Fin 16) (a : Lines ρ) : List (IrqEvent ρ) → ℕ
  | [] => 0
  | e :: es => (if asks k e ∧ k ∉ a.pending then 1 else 0) + requests k (a.event e).2 es

/-- The number of pending requests of line `k`: there is at most one. -/
def waiting (k : Fin 16) (a : Lines ρ) : ℕ := if k ∈ a.pending then 1 else 0

theorem accounted_event (k : Fin 16) (a : Lines ρ) (e : IrqEvent ρ) :
    (a.event e).1.countP (·.1 = k) + waiting k (a.event e).2 =
      waiting k a + if asks k e ∧ k ∉ a.pending then 1 else 0 := by
  cases e with
  | raise line =>
      by_cases hline : line = k
      · by_cases hk : k ∈ a.pending <;> simp [event, waiting, asks, hline, hk]
      · have hne : k ≠ line := fun h => hline h.symm
        simp [event, waiting, asks, hline, hne]
  | install irq handler => exact Nat.zero_add _
  | uninstall irq => exact Nat.zero_add _
  | interrupt =>
      cases hnext : a.next with
      | none => simp [event, hnext, asks]
      | some line =>
          have hmem : line ∈ a.pending := by simpa using List.find?_some hnext
          by_cases hline : line = k
          · subst hline
            simp [event, hnext, waiting, asks, hmem]
          · have hne : k ≠ line := fun h => hline h.symm
            simp [event, hnext, waiting, asks, hline, hne]

/-- **Every request is accounted for**: it is served once or pending in the end. -/
theorem accounted (k : Fin 16) (es : List (IrqEvent ρ)) : ∀ a : Lines ρ,
    (a.run es).1.countP (·.1 = k) + waiting k (a.run es).2 = waiting k a + requests k a es := by
  induction es with
  | nil =>
      intro a
      simp [run, requests]
  | cons e es ih =>
      intro a
      have hevent := accounted_event k a e
      have hrest := ih (a.event e).2
      simp only [run, requests, List.countP_append]
      omega

/-- The interrupts with the number of a line are those in which it is served. -/
theorem countP_number (k : Fin 16) (served : List (Fin 16 × Option ρ)) :
    (served.map number).countP (·.1 = 32 + k.val) = served.countP (·.1 = k) := by
  rw [List.countP_map]
  refine List.countP_congr fun r _ => ?_
  simp [number, Fin.ext_iff]

/-! ## The routine of the clock -/

/-- Line 0, and no other, has the routine. -/
def Owns (timer : ρ) (a : Lines ρ) : Prop := ∀ k, a.routine k = some timer ↔ k = 0

/-- The event leaves the routine of line 0 alone. -/
def Keeps (timer : ρ) : IrqEvent ρ → Prop
  | .install irq handler => irq ≠ 0 ∧ handler ≠ timer
  | .uninstall irq => irq ≠ 0
  | _ => True

theorem Owns.event {timer : ρ} {a : Lines ρ} {e : IrqEvent ρ} (h : Owns timer a)
    (he : Keeps timer e) : Owns timer (a.event e).2 := by
  cases e with
  | raise line => exact h
  | install irq handler =>
      obtain ⟨hirq, hhandler⟩ := he
      intro k
      by_cases hk : k = irq
      · subst hk
        simp [Lines.event, hirq, hhandler]
      · simpa [Lines.event, hk] using h k
  | uninstall irq =>
      intro k
      by_cases hk : k = irq
      · subst hk
        simpa [Lines.event, Keeps] using he
      · simpa [Lines.event, hk] using h k
  | interrupt =>
      cases hnext : a.next with
      | none => simpa only [Lines.event, hnext] using h
      | some line =>
          intro k
          simpa only [Lines.event, hnext] using h k

/-- What is served comes with the routine that its line has. -/
theorem Owns.served {timer : ρ} {a : Lines ρ} {e : IrqEvent ρ} (h : Owns timer a) :
    ∀ r ∈ (a.event e).1, r.2 = some timer ↔ r.1 = 0 := by
  cases e with
  | interrupt =>
      cases hnext : a.next with
      | none => simp [Lines.event, hnext]
      | some line => simpa [Lines.event, hnext] using h line
  | _ => simp [Lines.event]

theorem Owns.run {timer : ρ} (es : List (IrqEvent ρ)) : ∀ a : Lines ρ, Owns timer a →
    (∀ e ∈ es, Keeps timer e) → ∀ r ∈ (a.run es).1, r.2 = some timer ↔ r.1 = 0 := by
  induction es with
  | nil =>
      intro a _ _ r hr
      exact absurd hr List.not_mem_nil
  | cons e es ih =>
      intro a h hes r hr
      obtain hr | hr := List.mem_append.mp hr
      · exact h.served r hr
      · have hnext := h.event (hes e List.mem_cons_self)
        exact ih _ hnext (fun e' he' => hes e' (List.mem_cons_of_mem e he')) r hr

end Lines

/-- The handler runs once for each interrupt of line 0. -/
theorem timerTicks_served [DecidableEq ρ] {timer : ρ} (served : List (Fin 16 × Option ρ))
    (hserved : ∀ r ∈ served, r.2 = some timer ↔ r.1 = 0) (ticks : BitVec 32) :
    timerTicks timer ticks (served.map Lines.number) =
      ticks + BitVec.ofNat 32 (served.countP (·.1 = 0)) := by
  induction served generalizing ticks with
  | nil => simp [timerTicks]
  | cons r served ih =>
      have hrest := ih fun r' hr' => hserved r' (List.mem_cons_of_mem r hr')
      have hhead := hserved r List.mem_cons_self
      by_cases hzero : r.1 = 0
      · have hstep : timerTicks timer ticks ((r :: served).map Lines.number) =
            timerTicks timer (ticks + 1) (served.map Lines.number) := by
          simp [timerTicks, Lines.number, hhead.mpr hzero, timerHandler]
        rw [hstep, hrest, List.countP_cons_of_pos (by simpa using hzero)]
        bv_omega
      · have hother : ¬ r.2 = some timer := fun h => hzero (hhead.mp h)
        have hstep : timerTicks timer ticks ((r :: served).map Lines.number) =
            timerTicks timer ticks (served.map Lines.number) := by
          simp [timerTicks, Lines.number, hother]
        rw [hstep, hrest, List.countP_cons_of_neg (by simpa using hzero)]

/-- **The clock.**  From `irq_remap` and `timer_install` on, as long as nobody else is installed for
line 0 and `timer_handler` for no other line, `timer_ticks` is ahead by the ticks of the clock that
found no tick pending, but for one that is still pending; and each other line that devices use is
served as often as it asked, in the same sense. -/
theorem clock_counts [DecidableEq ρ] (timer : ρ) (s : IrqState ρ) (hmaster : s.master.isr = ∅)
    (hslave : s.slave.isr = ∅) (hroutines : ∀ k, s.routines k ≠ some timer) (es : List (IrqEvent ρ))
    (hes : ∀ e ∈ es, Lines.Keeps timer e) (htwo : .raise 2 ∉ es) (ticks : BitVec 32) :
    let a : Lines ρ := ⟨∅, Function.update s.routines 0 (some timer)⟩
    ∃ taken b, (timerInstall timer (irqRemap s)).run es = some (taken, Lines.state b) ∧
      timerTicks timer ticks taken + BitVec.ofNat 32 (b.waiting 0) =
        ticks + BitVec.ofNat 32 (a.requests 0 es) ∧
      ∀ k : Fin 16, taken.countP (·.1 = 32 + k.val) + b.waiting k = a.requests k es := by
  intro a
  have hinstall : timerInstall timer (irqRemap s) = a.state := by
    rw [Lines.irqRemap_state s hmaster hslave]
    rfl
  have howns : Lines.Owns timer a := by
    intro k
    by_cases hk : k = 0
    · simp [a, hk]
    · simp [a, hk, hroutines k]
  have hserved := Lines.Owns.run es a howns hes
  have hidle : ∀ k, a.waiting k = 0 := fun k => if_neg (Finset.notMem_empty k)
  refine ⟨(a.run es).1.map Lines.number, (a.run es).2, ?_, ?_, fun k => ?_⟩
  · rw [hinstall]
    exact Lines.run_state es a (Finset.notMem_empty 2) htwo
  · have haccounted := Lines.accounted 0 es a
    rw [hidle, Nat.zero_add] at haccounted
    rw [timerTicks_served _ hserved, BitVec.add_assoc, ← BitVec.ofNat_add, haccounted]
  · rw [Lines.countP_number k, Lines.accounted k es a, hidle, Nat.zero_add]

/-- Two ticks before an interrupt are one. -/
theorem clock_counts_twice : ∃ taken b,
    (timerInstall "timer_handler" (irqRemap ⟨.reset, .reset, fun _ => none⟩)).run
      [.raise 0, .raise 0, .raise 14, .interrupt, .raise 0, .interrupt] =
        some (taken, Lines.state b) ∧
    timerTicks "timer_handler" 7 taken + BitVec.ofNat 32 (b.waiting 0) = 9 := by
  obtain ⟨taken, b, hrun, hticks, -⟩ :=
    clock_counts "timer_handler" ⟨.reset, .reset, fun _ => none⟩ rfl rfl (by simp)
      [.raise 0, .raise 0, .raise 14, .interrupt, .raise 0, .interrupt] (by simp [Lines.Keeps])
      (by simp) 7
  exact ⟨taken, b, hrun, hticks.trans (by decide)⟩

/-! ## Waiting -/

/-- Where the sum overflows, the loop ends at once. -/
theorem wait_test {now : BitVec 32} {n : ℕ} (ticks : BitVec 32) (hn : now.toNat + n < 4294967296) :
    (!(now + BitVec.ofNat 32 n < now + ticks)) =
      decide (4294967296 ≤ now.toNat + ticks.toNat ∨ ticks.toNat ≤ n) := by
  rw [Bool.eq_iff_iff]
  simp only [Bool.not_eq_true', decide_eq_false_iff_not, decide_eq_true_eq]
  rw [BitVec.lt_def, BitVec.toNat_add, BitVec.toNat_add, BitVec.toNat_ofNat]
  omega

/-- The test that ends the loop, by the ticks since the call. -/
theorem timerWait_counts (now ticks : BitVec 32) (counts : List ℕ)
    (hcounts : ∀ n ∈ counts, now.toNat + n < 4294967296) :
    timerWait now ticks (counts.map fun n => now + BitVec.ofNat 32 n) =
      counts.findIdx? fun n => 4294967296 ≤ now.toNat + ticks.toNat ∨ ticks.toNat ≤ n := by
  unfold timerWait
  induction counts with
  | nil => rfl
  | cons n counts ih =>
      have hrest := ih fun n' hn' => hcounts n' (List.mem_cons_of_mem n hn')
      have htest := wait_test ticks (hcounts n List.mem_cons_self)
      rw [List.map_cons, List.findIdx?_cons, List.findIdx?_cons, htest, hrest]

/-- The interrupts that are taken in a run. -/
def IrqState.taken (s : IrqState ρ) (es : List (IrqEvent ρ)) : List (ℕ × Option ρ) :=
  ((s.run es).map (·.1)).getD []

/-- **Waiting.**  In every state of the code, whatever happens up to each test of its loop as long
as `timer_ticks` does not overflow meanwhile, `timer_wait` returns at the first test by which
`ticks` interrupts of the clock have been taken; but if `timer_ticks` would have to overflow for
that, it returns at its first test. -/
theorem timer_waits [DecidableEq ρ] {timer : ρ} {a : Lines ρ} (howns : Lines.Owns timer a)
    (htwo : 2 ∉ a.pending) (now ticks : BitVec 32) (tests : List (List (IrqEvent ρ)))
    (hkeeps : ∀ es ∈ tests, (∀ e ∈ es, Lines.Keeps timer e) ∧ .raise 2 ∉ es)
    (hroom : ∀ es ∈ tests, now.toNat + (a.state.taken es).countP (·.1 = 32) < 4294967296) :
    timerWait now ticks (tests.map fun es => timerTicks timer now (a.state.taken es)) =
      tests.findIdx? fun es => 4294967296 ≤ now.toNat + ticks.toNat ∨
        ticks.toNat ≤ (a.state.taken es).countP (·.1 = 32) := by
  have hseen : ∀ es ∈ tests, timerTicks timer now (a.state.taken es) =
      now + BitVec.ofNat 32 ((a.state.taken es).countP (·.1 = 32)) := by
    intro es hes
    obtain ⟨hkeep, hother⟩ := hkeeps es hes
    have htaken : a.state.taken es = (a.run es).1.map Lines.number := by
      rw [IrqState.taken, Lines.run_state es a htwo hother]
      rfl
    rw [htaken, timerTicks_served _ (Lines.Owns.run es a howns hkeep), ← Lines.countP_number 0]
    rfl
  have hmap : (tests.map fun es => timerTicks timer now (a.state.taken es)) =
      (tests.map fun es => (a.state.taken es).countP (·.1 = 32)).map
        fun n => now + BitVec.ofNat 32 n := by
    rw [List.map_map]
    exact List.map_congr_left hseen
  have hcounts : ∀ n ∈ tests.map fun es => (a.state.taken es).countP (·.1 = 32),
      now.toNat + n < 4294967296 := by
    intro n hn
    obtain ⟨es, hes, rfl⟩ := List.mem_map.mp hn
    exact hroom es hes
  rw [hmap, timerWait_counts now ticks _ hcounts, List.findIdx?_map]
  rfl

/-- A clock that ticks before every second test. -/
theorem timer_waits_two :
    let a : Lines String := ⟨∅, Function.update (fun _ => none) 0 (some "timer_handler")⟩
    timerWait 5 2 (([[], [.raise 0, .interrupt], [.raise 0, .interrupt, .raise 0, .interrupt]]).map
      fun es => timerTicks "timer_handler" 5 (a.state.taken es)) = some 2 := by
  intro a
  have howns : Lines.Owns "timer_handler" a := by
    intro k
    by_cases hk : k = 0 <;> simp [a, hk]
  refine (timer_waits howns (Finset.notMem_empty 2) 5 2
    [[], [.raise 0, .interrupt], [.raise 0, .interrupt, .raise 0, .interrupt]] ?_ ?_).trans ?_
  · simp [Lines.Keeps]
  · decide
  · decide

end EgGS
