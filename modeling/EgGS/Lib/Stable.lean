import EgGS.Lib.Does

/-!
# More fuel changes nothing

A run that returns has not used up its fuel, so with more fuel it returns the same.  The
combinators have this property because they hand their fuel on unchanged; it makes every
run that returns a total-correctness statement.
-/

namespace EgGS.Lib

variable {ε σ α β : Type}

namespace Prog

/-- A run of `m` that returns is the same with more fuel. -/
def Stable (m : Prog ε σ α) : Prop :=
  ∀ e k s a s', m e k s = .ok a s' → ∀ k' ≥ k, m e k' s = .ok a s'

namespace Stable

variable {m m' : Prog ε σ α} {e : ε} {k : ℕ} {s s' : σ} {a : α}

theorem evals (h : Stable m) (hrun : m e k s = .ok a s') : Evals m e s a s' :=
  ⟨k, h e k s a s' hrun⟩

/-- A run that returns does what the program does. -/
theorem ensures {Q : α → σ → Prop} (h : Stable m) (hdoes : Does m e s Q) : Ensures m e s Q := by
  intro k a s' hrun
  obtain ⟨b, t, heval, hQ⟩ := hdoes
  obtain ⟨rfl, rfl⟩ := (h.evals hrun).unique heval
  exact hQ

/-- What a sequence does is what its second half does after the first. -/
theorem does_bind {f : α → Prog ε σ β} {Q : β → σ → Prop} (h : Stable m) :
    Does (m >>= f) e s Q ↔ Does m e s fun a t => Does (f a) e t Q := by
  refine ⟨fun hdoes => ?_, fun hdoes => hdoes.bind fun _ _ => id⟩
  obtain ⟨b, s'', ⟨N, hN⟩, hQ⟩ := hdoes
  obtain ⟨a, t, hrun, -⟩ := bind_eq_ok.mp (hN N le_rfl)
  have heval := h.evals hrun
  refine heval.does ⟨b, s'', ⟨N, fun k hk => ?_⟩, hQ⟩
  obtain ⟨a', t', hrun', hrest⟩ := bind_eq_ok.mp (hN k hk)
  obtain ⟨rfl, rfl⟩ := heval.unique (h.evals hrun')
  exact hrest

theorem of_const (h : ∀ e k k' s, m e k s = m e k' s) : Stable m := by
  intro e k s a s' hrun k' _
  rw [h e k' k]
  exact hrun

theorem pure (a : α) : Stable (pure a : Prog ε σ α) := of_const fun _ _ _ _ => rfl

theorem read : Stable (Prog.read : Prog ε σ σ) := of_const fun _ _ _ _ => rfl

theorem update (f : σ → σ) : Stable (Prog.update f : Prog ε σ Unit) := of_const fun _ _ _ _ => rfl

theorem ask (f : ε → σ → α) : Stable (Prog.ask f) := of_const fun _ _ _ _ => rfl

theorem halt (why : Stop) : Stable (Prog.halt why : Prog ε σ α) := of_const fun _ _ _ _ => rfl

theorem bind {f : α → Prog ε σ β} (hm : Stable m) (hf : ∀ a, Stable (f a)) : Stable (m >>= f) := by
  intro e k s b s'' hrun k' hk
  obtain ⟨a, s', hfirst, hrest⟩ := bind_eq_ok.mp hrun
  exact bind_eq_ok.mpr ⟨a, s', hm e k s a s' hfirst k' hk, hf a e k s' b s'' hrest k' hk⟩

theorem bind_read {f : σ → Prog ε σ β} (hf : ∀ s, Stable (f s)) : Stable (Prog.read >>= f) :=
  read.bind hf

theorem bind_update {g : σ → σ} {f : Unit → Prog ε σ β} (hf : Stable (f ())) :
    Stable (Prog.update g >>= f) := (update g).bind fun _ => hf

theorem ite {c : Prop} [Decidable c] (h : c → Stable m) (h' : ¬ c → Stable m') :
    Stable (if c then m else m') := by
  by_cases hc : c
  · rw [if_pos hc]
    exact h hc
  · rw [if_neg hc]
    exact h' hc

theorem dite {c : Prop} [Decidable c] {f : c → Prog ε σ α} {g : ¬ c → Prog ε σ α}
    (h : ∀ hc, Stable (f hc)) (h' : ∀ hc, Stable (g hc)) :
    Stable (if hc : c then f hc else g hc) := by
  by_cases hc : c
  · rw [dif_pos hc]
    exact h hc
  · rw [dif_neg hc]
    exact h' hc

/-- A loop gets its fuel as a bound on its rounds as well. -/
theorem iterate {body : β → Prog ε σ (β ⊕ α)} (hbody : ∀ b, Stable (body b)) (b : β) :
    Stable (iterate body b) := by
  have hrounds : ∀ fuel fuel' b e k s a s', fuel ≤ fuel' → rounds body fuel b e k s = .ok a s' →
      ∀ k' ≥ k, rounds body fuel' b e k' s = .ok a s' := by
    intro fuel
    induction fuel with
    | zero => intro fuel' b e k s a s' _ hrun; simp [rounds] at hrun
    | succ fuel ih =>
        intro fuel' b e k s a s' hle hrun k' hk
        obtain ⟨fuel', rfl⟩ : ∃ j, fuel' = j + 1 := ⟨fuel' - 1, by omega⟩
        simp only [rounds, bind_eq_ok] at hrun ⊢
        obtain ⟨x, t, hfirst, hrest⟩ := hrun
        refine ⟨x, t, hbody b e k s x t hfirst k' hk, ?_⟩
        cases x with
        | inl b' => exact ih fuel' b' e k t a s' (by omega) hrest k' hk
        | inr a' => exact hrest
  intro e k s a s' hrun k' hk
  exact hrounds k k' b e k s a s' hk hrun k' hk

theorem forEach {body : β → Prog ε σ Unit} (hbody : ∀ b, Stable (body b)) :
    ∀ bs : List β, Stable (forEach bs body)
  | [] => .pure ()
  | b :: bs => (hbody b).bind fun _ => forEach hbody bs

end Stable

end Prog

end EgGS.Lib
