import Mathlib.Data.Nat.Notation
import Mathlib.Data.Set.Basic
import Mathlib.Logic.Function.Basic

/-!
# Write-back caches

A table has a record for every key.  The records are kept in a store, and some of them in the
entries of a cache, where they are changed.  A dirty entry has a record that the store may not have
yet.

`WriteBack` says that nothing of the table is lost: an entry has the record of its key, and the
store has the records of all keys but those of dirty entries.  The entries are loaded, changed,
written back and reused.
-/

namespace EgGS.Lib

variable {ι κ α : Type}

/-- An entry of a cache. -/
structure Entry (κ α : Type) where
  key : Option κ
  value : α
  dirty : Bool

/-- The entries cache records of the table, and the store has the others. -/
structure WriteBack (keys : Set κ) (entry : ι → Entry κ α) (store table : κ → α) : Prop where
  inside : ∀ i, ∀ k ∈ (entry i).key, k ∈ keys
  unique : ∀ i j, ∀ k ∈ (entry i).key, k ∈ (entry j).key → i = j
  cached : ∀ i, ∀ k ∈ (entry i).key, (entry i).value = table k
  stored : ∀ k ∈ keys, (∀ i, k ∈ (entry i).key → (entry i).dirty = false) → store k = table k

/-- The table after records were assigned, the last first. -/
def assigned [DecidableEq κ] (table : κ → α) (changes : List (κ × α)) : κ → α :=
  changes.foldr (fun c f => Function.update f c.1 c.2) table

namespace WriteBack

variable {keys : Set κ} {entry entry' : ι → Entry κ α} {store store' table : κ → α} {i j : ι}
  {k : κ} {a : α}

/-- The record of a clean entry is in the store. -/
theorem clean (h : WriteBack keys entry store table) (hi : k ∈ (entry i).key)
    (hclean : (entry i).dirty = false) : store k = (entry i).value := by
  rw [h.cached i k hi]
  refine h.stored k (h.inside i k hi) fun j hj => ?_
  rwa [h.unique j i k hj hi]

/-- The record of a key without an entry is in the store. -/
theorem missing (h : WriteBack keys entry store table) (hk : k ∈ keys)
    (hnone : ∀ i, k ∉ (entry i).key) :
    store k = table k := h.stored k hk fun i hi => absurd hi (hnone i)

/-- The entries have the same keys and records, and no more of them are dirty. -/
theorem congr (h : WriteBack keys entry store table) (hkey : ∀ i, (entry' i).key = (entry i).key)
    (hvalue : ∀ i, ∀ k ∈ (entry i).key, (entry' i).value = (entry i).value)
    (hdirty : ∀ i, ∀ k ∈ (entry i).key, (entry' i).dirty = false → (entry i).dirty = false)
    (hstore : ∀ k ∈ keys, store' k = store k) : WriteBack keys entry' store' table where
  inside i k hk := h.inside i k (hkey i ▸ hk)
  unique i j k hi hj := h.unique i j k (hkey i ▸ hi) (hkey j ▸ hj)
  cached i k hk := by
    rw [hkey] at hk
    rw [hvalue i k hk]
    exact h.cached i k hk
  stored k hk hclean := by
    rw [hstore k hk]
    refine h.stored k hk fun i hi => hdirty i k hi (hclean i ?_)
    rwa [hkey]

section Update

variable [DecidableEq ι]

/-- **An entry is written back.** -/
theorem flush (h : WriteBack keys entry store table) (hi : k ∈ (entry i).key)
    (hstore : store' k = (entry i).value) (hother : ∀ k' ∈ keys, k' ≠ k → store' k' = store k') :
    WriteBack keys (Function.update entry i { entry i with dirty := false }) store' table := by
  have hkey (j : ι) : (Function.update entry i { entry i with dirty := false } j).key =
    (entry j).key := by
    by_cases hj : j = i
    · subst hj
      rw [Function.update_self]
    · rw [Function.update_of_ne hj]
  refine ⟨fun j k' hk => ?_, fun j j' k' hj hj' => ?_, fun j k' hk => ?_, fun k' hk hclean => ?_⟩
  · exact h.inside j k' (hkey j ▸ hk)
  · exact h.unique j j' k' (hkey j ▸ hj) (hkey j' ▸ hj')
  · rw [hkey] at hk
    by_cases hj : j = i
    · subst hj
      rw [Function.update_self]
      exact h.cached j k' hk
    · rw [Function.update_of_ne hj]
      exact h.cached j k' hk
  · by_cases hkk : k' = k
    · subst hkk
      rw [hstore, h.cached i k' hi]
    · rw [hother k' hk hkk]
      refine h.stored k' hk fun j hj => ?_
      have hji : j ≠ i := by
        rintro rfl
        exact hkk (Option.mem_unique hj hi)
      have hcj := hclean j (by rwa [hkey])
      rwa [Function.update_of_ne hji] at hcj

/-- **A clean entry is given to another key**, whose record is in the store. -/
theorem load (h : WriteBack keys entry store table) (hi : (entry i).dirty = false) (hk : k ∈ keys)
    (hnone : ∀ j, k ∉ (entry j).key) :
    WriteBack keys (Function.update entry i ⟨some k, store k, false⟩) store table := by
  have hkey (j : ι) (k' : κ) : k' ∈ (Function.update entry i ⟨some k, store k, false⟩ j).key ↔
      j = i ∧ k' = k ∨ j ≠ i ∧ k' ∈ (entry j).key := by
    by_cases hj : j = i
    · subst hj
      rw [Function.update_self]
      simp [eq_comm]
    · rw [Function.update_of_ne hj]
      simp [hj]
  refine ⟨fun j k' hk' => ?_, fun j j' k' hj hj' => ?_, fun j k' hk' => ?_, fun k' hk' hclean => ?_⟩
  · rcases (hkey j k').mp hk' with ⟨-, rfl⟩ | ⟨-, hin⟩
    · exact hk
    · exact h.inside j k' hin
  · rcases (hkey j k').mp hj with ⟨rfl, rfl⟩ | ⟨-, hin⟩
    · rcases (hkey j' _).mp hj' with ⟨rfl, -⟩ | ⟨-, hin'⟩
      · rfl
      · exact absurd hin' (hnone j')
    · rcases (hkey j' _).mp hj' with ⟨-, rfl⟩ | ⟨-, hin'⟩
      · exact absurd hin (hnone j)
      · exact h.unique j j' k' hin hin'
  · rcases (hkey j k').mp hk' with ⟨rfl, rfl⟩ | ⟨hne, hin⟩
    · rw [Function.update_self]
      exact h.missing hk hnone
    · rw [Function.update_of_ne hne]
      exact h.cached j k' hin
  · refine h.stored k' hk' fun j hj => ?_
    by_cases hji : j = i
    · rwa [hji]
    · have hcj := hclean j ((hkey j k').mpr (.inr ⟨hji, hj⟩))
      rwa [Function.update_of_ne hji] at hcj

/-- **The record of an entry is changed**, and the entry is dirty. -/
theorem assign [DecidableEq κ] (h : WriteBack keys entry store table) (hi : k ∈ (entry i).key)
    (a : α) :
    WriteBack keys (Function.update entry i ⟨some k, a, true⟩) store
      (Function.update table k a) := by
  have hkey (j : ι) : (Function.update entry i ⟨some k, a, true⟩ j).key = (entry j).key := by
    by_cases hj : j = i
    · subst hj
      rw [Function.update_self]
      exact hi.symm
    · rw [Function.update_of_ne hj]
  refine ⟨fun j k' hk' => ?_, fun j j' k' hj hj' => ?_, fun j k' hk' => ?_, fun k' hk' hclean => ?_⟩
  · exact h.inside j k' (hkey j ▸ hk')
  · exact h.unique j j' k' (hkey j ▸ hj) (hkey j' ▸ hj')
  · rw [hkey] at hk'
    by_cases hj : j = i
    · subst hj
      obtain rfl := Option.mem_unique hi hk'
      rw [Function.update_self, Function.update_self]
    · have hkk : k' ≠ k := by
        rintro rfl
        exact hj (h.unique j i k' hk' hi)
      rw [Function.update_of_ne hj, Function.update_of_ne hkk]
      exact h.cached j k' hk'
  · have hkk : k' ≠ k := by
      rintro rfl
      have hci := hclean i (by rw [hkey]; exact hi)
      rw [Function.update_self] at hci
      cases hci
    rw [Function.update_of_ne hkk]
    refine h.stored k' hk' fun j hj => ?_
    have hji : j ≠ i := by
      rintro rfl
      exact hkk (Option.mem_unique hj hi)
    have hcj := hclean j (by rwa [hkey])
    rwa [Function.update_of_ne hji] at hcj

end Update

end WriteBack

end EgGS.Lib
