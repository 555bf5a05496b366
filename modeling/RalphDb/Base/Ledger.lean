import RalphDb.Base.Call
import Mathlib.Algebra.BigOperators.Fin
import Mathlib.Data.Finset.Union

/-!
# RalphDb.Base.Ledger

The books of clients that remove keys of a shared map.

Each client owes the removal of some keys and counts what its removals took
away; from time to time it answers its count and starts anew.  The answers, the
counts and the keys still present add up to the keys present at first
(`Ledger.count`), through a removal (`Ledger.remove`) and an answer
(`Ledger.settle`).
-/

namespace Base

open Function

variable {ι κ ε : Type} {named : Finset κ} {m shared : SharedMap κ ε}

/-- The named keys that have an entry. -/
def present (named : Finset κ) (m : SharedMap κ ε) : Finset κ :=
  named.filter fun key => (m key).isSome

/-- Removing a named key takes it away from those present. -/
theorem card_present_remove [DecidableEq κ] {key : κ} (h : key ∈ named) (m : SharedMap κ ε) :
    (present named (update m key none)).card + (if (m key).isSome then 1 else 0) =
      (present named m).card := by
  have herase : present named (update m key none) = (present named m).erase key := by
    ext key'
    by_cases hkey : key' = key <;> simp [present, hkey, update_of_ne]
  rw [herase]
  by_cases hsome : (m key).isSome
  · have hmem : key ∈ present named m := by simp [present, h, hsome]
    rw [if_pos hsome, Finset.card_erase_add_one hmem]
  · have hmem : key ∉ present named m := by simp [present, hsome]
    rw [if_neg hsome, Finset.erase_eq_of_notMem hmem, Nat.add_zero]

variable [Fintype ι] {owed : ι → List κ} {counted : ι → Nat} {total : Int}

/-- The books of clients that remove the named keys of `m`: the keys each still
owes a removal, what it has counted, and what has been answered in total. -/
structure Ledger (named : Finset κ) (m : SharedMap κ ε) (owed : ι → List κ) (counted : ι → Nat)
    (total : Int) (shared : SharedMap κ ε) : Prop where
  entries : ∀ key, shared key = m key ∨ key ∈ named ∧ shared key = none
  owedNamed : ∀ i, ∀ key ∈ owed i, key ∈ named
  handled : ∀ key ∈ named, shared key = none ∨ ∃ i, key ∈ owed i
  count : total + ∑ i, (counted i : Int) + (present named shared).card = (present named m).card

variable [DecidableEq ι]

/-- One term of a sum is changed. -/
theorem sum_counted_update (counted : ι → Nat) (i : ι) (n : Nat) :
    ∑ j, (update counted i n j : Int) + counted i = ∑ j, (counted j : Int) + n := by
  have hrest : ∑ j ∈ Finset.univ.erase i, (update counted i n j : Int) =
      ∑ j ∈ Finset.univ.erase i, (counted j : Int) :=
    Finset.sum_congr rfl fun j hj => by rw [update_of_ne (Finset.ne_of_mem_erase hj)]
  rw [← Finset.add_sum_erase _ _ (Finset.mem_univ i), hrest, update_self,
    ← Finset.add_sum_erase _ (fun j => (counted j : Int)) (Finset.mem_univ i)]
  omega

/-- A client removes a key it owes and counts what it took away. -/
theorem Ledger.remove [DecidableEq κ] (h : Ledger named m owed counted total shared) {i : ι}
    {key : κ} {rest : List κ} (howed : owed i = key :: rest) :
    Ledger named m (update owed i rest)
      (update counted i (counted i + if (shared key).isSome then 1 else 0)) total
      (update shared key none) := by
  have hnamed : key ∈ named := h.owedNamed i key (by simp [howed])
  refine ⟨fun key' => ?_, fun j key' hkey' => ?_, fun key' hkey' => ?_, ?_⟩
  · by_cases hkey : key' = key
    · simp [hkey, hnamed]
    · simpa [update_of_ne hkey] using h.entries key'
  · by_cases hj : j = i
    · subst hj
      refine h.owedNamed j key' ?_
      rw [update_self] at hkey'
      simp [howed, hkey']
    · rw [update_of_ne hj] at hkey'
      exact h.owedNamed j key' hkey'
  · by_cases hkey : key' = key
    · simp [hkey]
    · rw [update_of_ne hkey]
      obtain hnone | ⟨j, hj⟩ := h.handled key' hkey'
      · exact .inl hnone
      · refine .inr ⟨j, ?_⟩
        by_cases hij : j = i
        · subst hij
          simpa [howed, hkey] using hj
        · rwa [update_of_ne hij]
  · have hsum := sum_counted_update counted i (counted i + if (shared key).isSome then 1 else 0)
    have hcard := card_present_remove hnamed shared
    have hcount := h.count
    cases hsome : (shared key).isSome <;> simp [hsome] at hsum hcard ⊢ <;> omega

/-- A client answers what it has counted. -/
theorem Ledger.settle (h : Ledger named m owed counted total shared) (i : ι) :
    Ledger named m owed (update counted i 0) (total + counted i) shared := by
  refine ⟨h.entries, h.owedNamed, h.handled, ?_⟩
  have hsum := sum_counted_update counted i 0
  have hcount := h.count
  omega

end Base
