import EgGS.Block.Progress
import EgGS.Cache.Links

/-!
# Reading what is cached

While the controller is silent, the buffer cache is deterministic.  In a warm cache, whose
headers are up to date and unlocked, `read_buff` of a block that has a header returns it.
-/

namespace EgGS

open Lib Prog

variable {n : ℕ} {env : Env n} {k : ℕ} {s s' : Sys n} {b : Fin n} {dev block : ℕ}

/-- The lists are well formed, and every header is up to date and unlocked. -/
structure Warm (s : Sys n) : Prop where
  links : Links s
  uptodate : ∀ b, (s.buf b).bUptodate = true
  lock : ∀ b, (s.buf b).bLock = false

/-- The header `b` is handed out, after time has passed. -/
def Sys.hit (s : Sys n) (b : Fin n) : Sys n := (s.tick.setIntr false).countUp b

theorem Warm.congr (h : Warm s) (hlinks : Links s')
    (hcore : ∀ b, (s'.buf b).bUptodate = (s.buf b).bUptodate ∧ (s'.buf b).bLock = (s.buf b).bLock) :
    Warm s' :=
  ⟨hlinks, fun b => (hcore b).1.trans (h.uptodate b), fun b => (hcore b).2.trans (h.lock b)⟩

theorem Warm.hit (h : Warm s) (b : Fin n) : Warm (s.hit b) := by
  have hbase : Links (s.tick.setIntr false) := h.links.congr ⟨fun _ => rfl, rfl, rfl⟩
  have hup : Links (s.hit b) := by
    unfold Sys.hit Sys.countUp
    exact hbase.congr (.setBuf fun _ => rfl)
  refine h.congr hup fun c => ?_
  by_cases hc : c = b <;> simp [Sys.hit, Sys.countUp, hc]

theorem Sys.hit_keyed (s : Sys n) (b c : Fin n) :
    (s.hit b).Keyed c dev block ↔ s.Keyed c dev block := by
  by_cases hc : c = b <;> simp [Sys.hit, Sys.countUp, Sys.Keyed, hc]

/-! ## A silent controller -/

/-- No interrupt arrives. -/
theorem poll_silent (k : ℕ) (s : Sys n) : poll env.silent k s = .ok () s.tick := by
  have hnone : ∀ j (t : Sys n), interrupts j env.silent k t = .ok () t := by
    intro j t
    cases j <;> rfl
  unfold poll
  rw [update_bind, read_bind, ite_run]
  split
  · exact hnone _ s.tick
  · rfl

theorem waitOnBuff_evals (hclear : (s.buf b).bLock = false) :
    Evals (waitOnBuff b) env s () (s.setIntr false) :=
  (Evals.of_eq fun _ => rfl).bind <| LoopEnds.evals <| .done <| .of_eq fun _ => by
    simp [hclear]

theorem putBuff_evals (hclear : (s.buf b).bLock = false) (hcount : (s.buf b).bCount ≠ 0) :
    Evals (putBuff (some b)) env s () ((s.setIntr false).countDown b) :=
  (waitOnBuff_evals hclear).bind <| .of_eq fun _ => by simp [hcount]

/-! ## Hits -/

theorem findBuff_evals (h : Links s) (hdev : dev ≠ 0) (hb : s.Keyed b dev block) :
    Evals (findBuff dev block) env s (some b) s :=
  ⟨n + 1, fun _ hk => (h.findBuff_exact hdev (by omega)).1 b hb⟩

theorem retainBuff_evals (h : Warm s) (hdev : dev ≠ 0) (hb : s.Keyed b dev block) :
    Evals (retainBuff dev block) env.silent s (some b) (s.hit b) := by
  have htick : Links s.tick := h.links.congr ⟨fun _ => rfl, rfl, rfl⟩
  refine LoopEnds.evals (.done ?_)
  refine (Evals.of_eq fun k => poll_silent k s).bind ?_
  refine (findBuff_evals htick hdev hb).bind ?_
  refine (waitOnBuff_evals (s := s.tick) (h.lock b)).bind (.of_eq fun _ => ?_)
  have hkey : ¬ ((s.buf b).bDev ≠ dev ∨ (s.buf b).bBlocknr ≠ block) := by
    simp [hb.1, hb.2]
  simp only [read_bind, ite_run]
  exact if_neg hkey

theorem getBuff_evals (h : Warm s) (hdev : dev ≠ 0) (hb : s.Keyed b dev block) :
    Evals (getBuff dev block) env.silent s b (s.hit b) :=
  LoopEnds.evals <| .done <| (retainBuff_evals h hdev hb).bind <| .of_eq fun _ => rfl

theorem readBuff_evals (h : Warm s) (hdev : dev ≠ 0) (hb : s.Keyed b dev block) :
    Evals (readBuff dev block) env.silent s (some b) (s.hit b) :=
  (getBuff_evals h hdev hb).bind <| .of_eq fun _ => by
    simp [(h.hit b).uptodate b]

end EgGS
