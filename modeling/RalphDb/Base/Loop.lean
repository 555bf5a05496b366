import Mathlib.Data.Nat.Init

/-!
# RalphDb.Base.Loop

Loops, as runs of their rounds.

`Rounds next n s t` says that `n` rounds of the loop `next` lead from `s` to
`t`.  What a round preserves a run preserves (`Rounds.preserves`).  A measure
that every round lowers bounds the number of rounds (`Rounds.add_le`), and then
the loop comes to a state from which it does not go on (`exists_last`).
-/

namespace Base

variable {σ : Type} {next : σ → σ → Prop} {I : σ → Prop} {rank : σ → Nat}

/-- `n` rounds lead from one state to another. -/
inductive Rounds (next : σ → σ → Prop) : Nat → σ → σ → Prop
  | refl (s : σ) : Rounds next 0 s s
  | head {n : Nat} {s t u : σ} (round : next s t) (rest : Rounds next n t u) :
      Rounds next (n + 1) s u

/-- The invariant rule. -/
theorem Rounds.preserves {n : Nat} {s t : σ} (h : Rounds next n s t)
    (hround : ∀ s t, I s → next s t → I t) (hs : I s) : I t := by
  induction h with
  | refl s => exact hs
  | head round rest ih => exact ih (hround _ _ hs round)

/-- Every round lowers the measure, so there are at most as many as it counts
at first. -/
theorem Rounds.add_le {n : Nat} {s t : σ} (h : Rounds next n s t)
    (hround : ∀ s t, I s → next s t → I t) (hrank : ∀ s t, I s → next s t → rank t < rank s)
    (hs : I s) : n + rank t ≤ rank s := by
  induction h with
  | refl s => omega
  | head round rest ih =>
      have hlt := hrank _ _ hs round
      have hle := ih (hround _ _ hs round)
      omega

/-- The loop comes to a last state. -/
theorem exists_last (next : σ → σ → Prop) (rank : σ → Nat)
    (hround : ∀ s t, I s → next s t → I t)
    (hrank : ∀ s t, I s → next s t → rank t < rank s) (s : σ) (hs : I s) :
    ∃ n t, Rounds next n s t ∧ ∀ u, ¬ next t u := by
  induction hmeasure : rank s using Nat.strong_induction_on generalizing s with
  | _ m ih =>
    by_cases hgoes : ∃ t, next s t
    · obtain ⟨t, hround'⟩ := hgoes
      have hlt := hrank s t hs hround'
      obtain ⟨n, u, hrun, hlast⟩ := ih _ (hmeasure ▸ hlt) t (hround s t hs hround') rfl
      exact ⟨n + 1, u, .head hround' hrun, hlast⟩
    · exact ⟨0, s, .refl s, fun u hu => hgoes ⟨u, hu⟩⟩

end Base
