import Mathlib.Data.List.Forall2
import Mathlib.Data.List.Infix

/-!
# RalphDb.Base.Wildcard

Wildcard patterns over any alphabet.

One letter, the *star*, stands for any text, the empty one included; every
other letter stands for itself.  `Wild star pattern text` says that the text
can be cut into one part for each letter of the pattern.

A matcher that goes through the text from left to right need only remember the
last star it has passed.  Between two stars a pattern is *solid*: it spells the
text it matches.  So the text after the first occurrence of a solid segment
contains the text after any later one, and the next star skips what the first
leaves over (`wild_next_star`).  The other moves of such a matcher are past a
letter, past a mismatch and to the end of the text.
-/

namespace Base

variable {α : Type} {star a b : α} {p segment text part : List α}

/-- The text is the parts that the letters of the pattern stand for: a star for
any part, another letter for itself. -/
def Wild (star : α) (pattern text : List α) : Prop :=
  ∃ parts : List (List α), parts.flatten = text ∧
    List.Forall₂ (fun a part => a = star ∨ part = [a]) pattern parts

/-! ## Letter by letter -/

@[simp] theorem wild_nil : Wild star [] text ↔ text = [] := by
  constructor
  · rintro ⟨_, rfl, hparts⟩
    cases hparts
    rfl
  · rintro rfl
    exact ⟨[], rfl, .nil⟩

theorem wild_star :
    Wild star (star :: p) text ↔ ∃ part rest, text = part ++ rest ∧ Wild star p rest := by
  constructor
  · rintro ⟨_, rfl, hparts⟩
    cases hparts with
    | cons hpart hrest => exact ⟨_, _, rfl, _, rfl, hrest⟩
  · rintro ⟨part, _, rfl, parts, rfl, hparts⟩
    exact ⟨part :: parts, rfl, .cons (.inl rfl) hparts⟩

theorem wild_letter (h : a ≠ star) :
    Wild star (a :: p) text ↔ ∃ rest, text = a :: rest ∧ Wild star p rest := by
  constructor
  · rintro ⟨_, rfl, hparts⟩
    cases hparts with
    | cons hpart hrest =>
        obtain rfl := hpart.resolve_left h
        exact ⟨_, rfl, _, rfl, hrest⟩
  · rintro ⟨_, rfl, parts, rfl, hparts⟩
    exact ⟨[a] :: parts, rfl, .cons (.inr rfl) hparts⟩

theorem wild_letter_cons (h : a ≠ star) :
    Wild star (a :: p) (b :: text) ↔ a = b ∧ Wild star p text := by
  simp [wild_letter h, @eq_comm _ a]

def wildDecidable [DecidableEq α] (star : α) :
    (pattern text : List α) → Decidable (Wild star pattern text)
  | [], text => decidable_of_iff (text = []) wild_nil.symm
  | a :: p, text =>
      have : DecidablePred (Wild star p) := fun rest => wildDecidable star p rest
      if h : a = star then
        decidable_of_iff (∃ rest ∈ text.tails, Wild star p rest) (by
          subst h
          simp only [wild_star, List.mem_tails]
          grind [List.IsSuffix])
      else
        match text with
        | [] => isFalse (by simp [wild_letter h])
        | b :: rest => decidable_of_iff (a = b ∧ Wild star p rest) (wild_letter_cons h).symm

instance [DecidableEq α] (pattern text : List α) : Decidable (Wild star pattern text) :=
  wildDecidable star pattern text

/-- Nothing but stars matches the empty text. -/
theorem wild_to_nil : Wild star p [] ↔ ∀ a ∈ p, a = star := by
  induction p with
  | nil => simp
  | cons a p ih =>
      by_cases h : a = star
      · subst h
        simp [wild_star, ih]
      · simp [wild_letter h, h]

/-! ## Solid segments -/

/-- A segment without a star spells the text it matches. -/
theorem wild_segment (h : star ∉ segment) :
    Wild star (segment ++ p) text ↔ ∃ rest, text = segment ++ rest ∧ Wild star p rest := by
  induction segment generalizing text with
  | nil => simp
  | cons a segment ih =>
      obtain ⟨ha, hsegment⟩ : star ≠ a ∧ star ∉ segment := by simpa using h
      simp only [List.cons_append, wild_letter ha.symm, ih hsegment]
      grind

/-- A star skips a part more. -/
theorem Wild.skip (part : List α) (h : Wild star (star :: p) text) :
    Wild star (star :: p) (part ++ text) := by
  obtain ⟨first, rest, rfl, hrest⟩ := wild_star.mp h
  exact wild_star.mpr ⟨part ++ first, rest, by simp, hrest⟩

/-- **The last star is enough**: a solid segment after a star may as well match
where it occurs first. -/
theorem wild_next_star (h : star ∉ segment) :
    Wild star (star :: (segment ++ star :: p)) (segment ++ text) ↔ Wild star (star :: p) text := by
  constructor
  · intro hwild
    obtain ⟨part, later, hcut, hlater⟩ := wild_star.mp hwild
    obtain ⟨rest, rfl, hrest⟩ := (wild_segment h).mp hlater
    -- a later occurrence leaves a suffix of what the first one leaves
    have hlater' : rest <:+ segment ++ text := ⟨part ++ segment, by rw [hcut, List.append_assoc]⟩
    have hfirst : text <:+ segment ++ text := List.suffix_append segment text
    have hlength := congrArg List.length hcut
    simp only [List.length_append] at hlength
    have hsuffix := List.suffix_of_suffix_length_le hlater' hfirst (by omega)
    obtain ⟨skipped, rfl⟩ := hsuffix
    exact hrest.skip skipped
  · intro hwild
    exact wild_star.mpr ⟨[], _, rfl, (wild_segment h).mpr ⟨text, rfl, hwild⟩⟩

/-- At the end of the text the segment has no other place. -/
theorem wild_last (h : star ∉ segment) :
    Wild star (star :: (segment ++ p)) segment ↔ Wild star p [] := by
  constructor
  · intro hwild
    obtain ⟨part, later, hcut, hlater⟩ := wild_star.mp hwild
    obtain ⟨rest, rfl, hrest⟩ := (wild_segment h).mp hlater
    have hlength := congrArg List.length hcut
    simp only [List.length_append] at hlength
    obtain rfl : rest = [] := List.eq_nil_of_length_eq_zero (by omega)
    exact hrest
  · intro hwild
    exact wild_star.mpr ⟨[], segment, rfl, (wild_segment h).mpr ⟨[], by simp, hwild⟩⟩

/-- Where the pattern stops to match after a segment, the star skips a letter. -/
theorem wild_retry (h : star ∉ segment) (hstops : ¬ Wild star p text) {rest : List α}
    (htext : segment ++ text = b :: rest) :
    Wild star (star :: (segment ++ p)) (segment ++ text) ↔
      Wild star (star :: (segment ++ p)) rest := by
  constructor
  · intro hwild
    obtain ⟨part, later, hcut, hlater⟩ := wild_star.mp hwild
    cases part with
    | nil =>
        obtain ⟨_, hlater', hrest⟩ := (wild_segment h).mp hlater
        obtain rfl := List.append_cancel_left (hcut.trans hlater')
        exact absurd hrest hstops
    | cons _ part =>
        obtain ⟨rfl, rfl⟩ := List.cons.inj (htext.symm.trans hcut)
        exact wild_star.mpr ⟨part, later, rfl, hlater⟩
  · intro hwild
    rw [htext]
    exact hwild.skip [b]

end Base
