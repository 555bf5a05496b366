import RalphDb.Base.Interleave

/-!
# RalphDb.Base.Rely

Rely and guarantee, with one relation for both.

`R` relates the shared map to the maps that it may become.  A call *obeys* `R`
from a map `m` when, wherever the others have moved the map along `R`, its next
access moves it along `R` too; so every call may rely on what every call
guarantees (`Call.Obeys`).  What the call answers may be said of the map that
its last access left.  `obeys_reaches` is the rule for whole worlds: if every
command obeys `R`, the map only ever moves along `R`, whatever the schedule.

The instants at which the accesses may happen are those in `T`; the clock must be
in it from the first world to the one that is reached.
-/

namespace Base

open Function

namespace Call

variable {κ ε τ α β : Type} [DecidableEq κ] {T : τ → Prop}
  {R : SharedMap κ ε → SharedMap κ ε → Prop} {P : α → SharedMap κ ε → Prop}
  {Q : β → SharedMap κ ε → Prop} {m : SharedMap κ ε}

/-- As long as others move the map along `R`, so does the call, and its answer
stands in `P` to the map it leaves. -/
def Obeys (T : τ → Prop) (R : SharedMap κ ε → SharedMap κ ε → Prop)
    (P : α → SharedMap κ ε → Prop) : Call κ ε τ α → SharedMap κ ε → Prop
  | done a, m => P a m
  | now next, m => ∀ t, T t → (next t).Obeys T R P m
  | access key act next, m => ∀ m' t, R m m' → T t →
      R m' (update m' key (act t (m' key))) ∧
        (next t (m' key)).Obeys T R P (update m' key (act t (m' key)))

theorem obeys_pure {a : α} (h : P a m) : (pure a : Call κ ε τ α).Obeys T R P m := h

theorem obeys_atomic {key : κ} {f : τ → Option ε → α × Option ε}
    (h : ∀ m' t, R m m' → T t → R m' (update m' key (f t (m' key)).2) ∧
      P (f t (m' key)).1 (update m' key (f t (m' key)).2)) : (atomic key f).Obeys T R P m := h

/-- An access that only reads. -/
theorem obeys_atomic_read (hrefl : ∀ m, R m m) {key : κ} {f : τ → Option ε → α × Option ε}
    (hread : ∀ t entry, (f t entry).2 = entry)
    (h : ∀ m' t, R m m' → T t → P (f t (m' key)).1 m') : (atomic key f).Obeys T R P m := by
  intro m' t hm ht
  have hsame : update m' key (f t (m' key)).2 = m' := by rw [hread, update_eq_self]
  exact ⟨by rw [hsame]; exact hrefl m', by rw [hsame]; exact h m' t hm ht⟩

theorem obeys_bind (hrefl : ∀ m, R m m) (htrans : ∀ a b c, R a b → R b c → R a c)
    {x : Call κ ε τ α} {f : α → Call κ ε τ β} (hx : x.Obeys T R P m)
    (hf : ∀ a m', R m m' → P a m' → (f a).Obeys T R Q m') : (x >>= f).Obeys T R Q m := by
  show (x.bind f).Obeys T R Q m
  induction x generalizing m with
  | done a => exact hf a m (hrefl m) hx
  | now next ih => exact fun t ht => ih t (hx t ht) hf
  | access key act next ih =>
      intro m' t hm ht
      obtain ⟨hstep, hnext⟩ := hx m' t hm ht
      have hmoved := htrans _ _ _ hm hstep
      exact ⟨hstep, ih t (m' key) hnext fun a m'' hm'' => hf a m'' (htrans _ _ _ hmoved hm'')⟩

theorem Obeys.imp {x : Call κ ε τ α} {P' : α → SharedMap κ ε → Prop} (h : x.Obeys T R P m)
    (hP : ∀ a m', P a m' → P' a m') : x.Obeys T R P' m := by
  induction x generalizing m with
  | done a => exact hP a m h
  | now next ih => exact fun t ht => ih t (h t ht)
  | access key act next ih =>
      exact fun m' t hm ht => ⟨(h m' t hm ht).1, ih t (m' key) (h m' t hm ht).2⟩

/-- Moving the map along `R` does not matter to the call. -/
theorem Obeys.mono (htrans : ∀ a b c, R a b → R b c → R a c) {m' : SharedMap κ ε}
    {P : α → Prop} {x : Call κ ε τ α} (h : x.Obeys T R (fun a _ => P a) m) (hm : R m m') :
    x.Obeys T R (fun a _ => P a) m' := by
  induction x with
  | done a => exact h
  | now next ih => exact fun t ht => ih t (h t ht)
  | access key act next ih => exact fun m'' t hm' ht => h m'' t (htrans _ _ _ hm hm') ht

theorem obeys_advance (hrefl : ∀ m, R m m) {x : Call κ ε τ α} (h : x.Obeys T R P m) {t : τ}
    (ht : T t) : R m (x.advance t m).2 ∧ (x.advance t m).1.Obeys T R P (x.advance t m).2 := by
  cases x with
  | done a => exact ⟨hrefl m, h⟩
  | now next => exact ⟨hrefl m, h t ht⟩
  | access key act next => exact h m t (hrefl m) ht

/-- A call that keeps sound entries sound relies on no more than that the others do. -/
theorem obeys_of_upholds {V : ε → Prop} {P : α → Prop} {x : Call κ ε τ α} (h : x.Upholds V P)
    (hm : ∀ key, Sound V (m key)) :
    x.Obeys T (fun m m' => (∀ key, Sound V (m key)) → ∀ key, Sound V (m' key)) (fun a _ => P a)
      m := by
  induction x generalizing m with
  | done a => exact h
  | now next ih => exact fun t _ => ih t (h t) hm
  | access key act next ih =>
      intro m' t hmoved _
      have hm' := hmoved hm
      obtain ⟨hact, hnext⟩ := h t (m' key) (hm' key)
      have hleft : ∀ key', Sound V (update m' key (act t (m' key)) key') :=
        (forall_update_iff m' _).mpr ⟨hact, fun key' _ => hm' key'⟩
      exact ⟨fun _ => hleft, ih t (m' key) hnext hleft⟩

end Call

namespace World

variable {ι κ ε τ ω ρ : Type} [DecidableEq ι] [DecidableEq κ] {T : τ → Prop}
  {R : SharedMap κ ε → SharedMap κ ε → Prop} {P : ω → ρ → Prop} {call : ω → Call κ ε τ ρ}
  {m₀ : SharedMap κ ε} {w : World ι κ ε τ ω ρ}

/-- The map has moved along `R`, the calls under way obey it, and the replies
are in `P`. -/
structure RelyInv (T : τ → Prop) (R : SharedMap κ ε → SharedMap κ ε → Prop) (P : ω → ρ → Prop)
    (call : ω → Call κ ε τ ρ) (m₀ : SharedMap κ ε) (w : World ι κ ε τ ω ρ) : Prop where
  clock : T w.clock
  moved : R m₀ w.shared
  todo : ∀ i, ∀ c ∈ (w.clients i).todo, ∀ m, R m₀ m → (call c).Obeys T R (fun a _ => P c a) m
  running : ∀ i r, (w.clients i).running = some r →
    r.rest.Obeys T R (fun a _ => P r.command a) w.shared
  replies : ∀ r ∈ w.replies, P r.command r.result

theorem RelyInv.turn (hrefl : ∀ m, R m m) (htrans : ∀ a b c, R a b → R b c → R a c)
    (h : RelyInv T R P call m₀ w) (i : ι) : RelyInv T R P call m₀ (w.turn call i) := by
  refine turn_preserves h (fun c todo hclient => ?_) (fun todo r hclient => ?_)
    fun w todo c began result h hclient => ?_
  · refine ⟨h.clock, h.moved, todo_update h.todo (by simp [hclient]),
      running_update (fun r hr => ?_) fun j r _ => h.running j r, h.replies⟩
    obtain rfl := Option.some.inj hr
    exact h.todo i c (by simp [hclient]) _ h.moved
  · obtain ⟨hstep, hrest⟩ := Call.obeys_advance hrefl (h.running i r (by rw [hclient])) h.clock
    refine ⟨h.clock, htrans _ _ _ h.moved hstep, todo_update h.todo (by simp [hclient]),
      running_update (fun r' hr => ?_) fun j r _ hr => (h.running j r hr).mono htrans hstep,
      h.replies⟩
    obtain rfl := Option.some.inj hr
    exact hrest
  · refine ⟨h.clock, h.moved, todo_update h.todo (by simp [hclient]),
      running_update (fun _ hr => by contradiction) fun j r _ => h.running j r, fun r hr => ?_⟩
    rw [List.mem_append, List.mem_singleton] at hr
    obtain hr | rfl := hr
    · exact h.replies r hr
    · exact h.running i _ (by rw [hclient])

section Reaches

variable [Preorder τ] [DecidableLE τ] {t last : τ} {program : ι → List ω}

/-- The invariant, as long as the clock has not passed `last`. -/
def RelyUpTo (last : τ) (T : τ → Prop) (R : SharedMap κ ε → SharedMap κ ε → Prop)
    (P : ω → ρ → Prop) (call : ω → Call κ ε τ ρ) (m₀ : SharedMap κ ε) (t : τ)
    (w : World ι κ ε τ ω ρ) : Prop :=
  t ≤ w.clock ∧ (w.clock ≤ last → RelyInv T R P call m₀ w)

theorem RelyUpTo.step (hrefl : ∀ m, R m m) (htrans : ∀ a b c, R a b → R b c → R a c)
    (hT : ∀ t', t ≤ t' → t' ≤ last → T t') (h : RelyUpTo last T R P call m₀ t w) (a : Action ι τ) :
    RelyUpTo last T R P call m₀ t (w.step call a) := by
  obtain ⟨hclock, hinv⟩ := h
  cases a with
  | tick t' =>
      rw [World.step]
      split
      · next hle =>
          refine ⟨le_trans hclock hle, fun hlast => ?_⟩
          have hbefore := hinv (le_trans hle hlast)
          exact { hbefore with clock := hT t' (le_trans hclock hle) hlast }
      · exact ⟨hclock, hinv⟩
  | turn i =>
      rw [World.step, RelyUpTo, clock_turn]
      exact ⟨hclock, fun hlast => (hinv hlast).turn hrefl htrans i⟩

/-- **Rely and guarantee.**  Where every command obeys `R` at the instants up to
the clock, the map has moved along `R`, and every reply is in `P`. -/
theorem obeys_reaches (hrefl : ∀ m, R m m) (htrans : ∀ a b c, R a b → R b c → R a c)
    (hT : ∀ t', t ≤ t' → t' ≤ w.clock → T t')
    (hprogram : ∀ i, ∀ c ∈ program i, ∀ m, R m₀ m → (call c).Obeys T R (fun a _ => P c a) m)
    (hw : (World.start m₀ t program).Reaches call w) :
    R m₀ w.shared ∧ ∀ r ∈ w.replies, P r.command r.result := by
  suffices hupTo : RelyUpTo w.clock T R P call m₀ t w by
    have hinv := hupTo.2 (le_refl _)
    exact ⟨hinv.moved, hinv.replies⟩
  have hle : t ≤ w.clock := hw.clock_le
  refine hw.invariant (?_ : RelyUpTo _ T R P call m₀ t _) fun v a h => h.step hrefl htrans hT a
  refine ⟨le_refl _, fun _ => ⟨hT t (le_refl _) hle, hrefl m₀, hprogram, ?_, ?_⟩⟩
  · exact fun _ _ hr => by contradiction
  · exact fun _ hr => by contradiction

/-- **Sound entries stay sound**, whatever the schedule, and every reply is as the
calls promise. -/
theorem upholds_reaches {V : ε → Prop} (hm : ∀ key, Call.Sound V (m₀ key))
    (hprogram : ∀ i, ∀ c ∈ program i, (call c).Upholds V (P c))
    (hw : (World.start m₀ t program).Reaches call w) :
    (∀ key, Call.Sound V (w.shared key)) ∧ ∀ r ∈ w.replies, P r.command r.result := by
  obtain ⟨hmoved, hreplies⟩ := obeys_reaches (T := fun _ => True)
    (R := fun m m' => (∀ key, Call.Sound V (m key)) → ∀ key, Call.Sound V (m' key)) (fun _ h => h)
    (fun _ _ _ h h' hm => h' (h hm)) (fun _ _ _ => trivial)
    (fun i c hc m' hm' => Call.obeys_of_upholds (hprogram i c hc) (hm' hm)) hw
  exact ⟨hmoved hm, hreplies⟩

end Reaches

end World

end Base
