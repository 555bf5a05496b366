/-!
# RalphDb.Base.Fallible

Computations over a state that may fail, and recursion of such computations
on a measure of the state.

A failing computation keeps the state it failed in: what a failed read has
already taken from its input stays taken.  `Fallible σ ε` is therefore
`σ → Except ε α × σ`, with the state outside the `Except`.

* **rules** — `bind_run_ok` / `bind_run_error` step through a sequence,
  `bind_eq_ok` takes a successful one apart;
* **measure** — `Shrinks μ x`: running `x` never raises `μ`;
* **recursion** — `fix μ body stop` unfolds `body` as often as the measure
  allows.  For a `Guarded` body, which lowers the measure before it recurs,
  `fix_eq` is the plain recursive equation and `stop` is never seen.
-/

namespace Base

/-- A computation over a state `σ` that answers `α` or fails with `ε`. -/
structure Fallible (σ ε α : Type) where
  run : σ → Except ε α × σ

namespace Fallible

variable {σ ε α β : Type}

theorem ext_run {x y : Fallible σ ε α} (h : ∀ s, x.run s = y.run s) : x = y := by
  cases x; cases y
  exact congrArg mk (funext h)

/-- Fail with `e`, in the state reached. -/
def fail (e : ε) : Fallible σ ε α := ⟨fun s => (.error e, s)⟩

/-- Answer an `Except` without touching the state. -/
def ofExcept (r : Except ε α) : Fallible σ ε α := ⟨fun s => (r, s)⟩

instance : Monad (Fallible σ ε) where
  pure a := ⟨fun s => (.ok a, s)⟩
  bind x f := ⟨fun s => match x.run s with
    | (.ok a, s') => (f a).run s'
    | (.error e, s') => (.error e, s')⟩

/-! ## Running a sequence -/

@[simp] theorem pure_run (a : α) (s : σ) : (pure a : Fallible σ ε α).run s = (.ok a, s) := rfl

@[simp] theorem fail_run (e : ε) (s : σ) : (fail e : Fallible σ ε α).run s = (.error e, s) := rfl

@[simp] theorem ofExcept_run (r : Except ε α) (s : σ) : (ofExcept r).run s = (r, s) := rfl

theorem bind_run (x : Fallible σ ε α) (f : α → Fallible σ ε β) (s : σ) :
    (x >>= f).run s = match x.run s with
      | (.ok a, s') => (f a).run s'
      | (.error e, s') => (.error e, s') := rfl

/-- A first step that succeeds hands its answer and its state to the rest. -/
theorem bind_run_ok {x : Fallible σ ε α} {s s' : σ} {a : α} (h : x.run s = (.ok a, s'))
    (f : α → Fallible σ ε β) : (x >>= f).run s = (f a).run s' := by
  rw [bind_run, h]

/-- A first step that fails is the failure of the sequence. -/
theorem bind_run_error {x : Fallible σ ε α} {s s' : σ} {e : ε} (h : x.run s = (.error e, s'))
    (f : α → Fallible σ ε β) : (x >>= f).run s = (.error e, s') := by
  rw [bind_run, h]

/-- A sequence succeeds exactly when its first step does and the rest does
from there. -/
theorem bind_eq_ok {x : Fallible σ ε α} {f : α → Fallible σ ε β} {s s'' : σ} {b : β} :
    (x >>= f).run s = (.ok b, s'') ↔
      ∃ a s', x.run s = (.ok a, s') ∧ (f a).run s' = (.ok b, s'') := by
  rw [bind_run]
  rcases x.run s with ⟨e | a, s'⟩
  · constructor
    · intro h
      simp at h
    · rintro ⟨_, _, h, _⟩
      simp at h
  · constructor
    · exact fun h => ⟨a, s', rfl, h⟩
    · rintro ⟨a', s₁, h, hf⟩
      obtain ⟨rfl, rfl⟩ : a = a' ∧ s' = s₁ := by simpa using h
      exact hf

theorem ofExcept_eq_ok {r : Except ε α} {s s' : σ} {a : α} :
    (ofExcept r).run s = (.ok a, s') ↔ r = .ok a ∧ s = s' := by
  rw [ofExcept_run, Prod.mk.injEq]

theorem bind_assoc {γ : Type} (x : Fallible σ ε α) (f : α → Fallible σ ε β)
    (g : β → Fallible σ ε γ) : x >>= f >>= g = x >>= fun a => f a >>= g := by
  apply ext_run
  intro s
  simp only [bind_run]
  rcases x.run s with ⟨e | a, s'⟩ <;> rfl

/-! ## Repetition -/

/-- Run `x` `n` times and collect the answers. -/
def times : Nat → Fallible σ ε α → Fallible σ ε (List α)
  | 0, _ => pure []
  | n + 1, x => do
      let a ← x
      let as ← times n x
      pure (a :: as)

/-- A successful repetition answers one value a round. -/
theorem length_of_times_run {n : Nat} {x : Fallible σ ε α} {s s' : σ} {as : List α}
    (h : (times n x).run s = (.ok as, s')) : as.length = n := by
  induction n generalizing s as with
  | zero =>
      simp only [times, pure_run, Prod.mk.injEq, Except.ok.injEq] at h
      rw [← h.1]
      rfl
  | succ n ih =>
      simp only [times, bind_eq_ok, pure_run, Prod.mk.injEq, Except.ok.injEq] at h
      obtain ⟨a, s₁, _, as', s₂, h₂, has, rfl⟩ := h
      rw [← has, List.length_cons, ih h₂]

/-- A successful repetition has run a shorter one, then one more round. -/
theorem times_run_split {n k : Nat} {x : Fallible σ ε α} {s s' : σ} {as : List α}
    (h : (times n x).run s = (.ok as, s')) (hk : k < n) :
    ∃ a s₁ s₂, (times k x).run s = (.ok (as.take k), s₁) ∧ x.run s₁ = (.ok a, s₂) ∧
      as[k]? = some a := by
  induction n generalizing k s as with
  | zero => exact absurd hk (Nat.not_lt_zero k)
  | succ n ih =>
      simp only [times, bind_eq_ok, pure_run, Prod.mk.injEq, Except.ok.injEq] at h
      obtain ⟨a, s₁, hx, as', s₂, htail, rfl, rfl⟩ := h
      cases k with
      | zero => exact ⟨a, s, s₁, rfl, hx, rfl⟩
      | succ k =>
          obtain ⟨a', s₃, s₄, htimes, hround, hget⟩ := ih htail (Nat.lt_of_succ_lt_succ hk)
          refine ⟨a', s₃, s₄, ?_, hround, by simpa using hget⟩
          rw [times, bind_run_ok hx, bind_run_ok htimes]
          rfl

/-- A repetition fails in its first round that fails. -/
theorem times_run_error {n k : Nat} {x : Fallible σ ε α} {s s' s'' : σ} {as : List α} {e : ε}
    (h : (times k x).run s = (.ok as, s')) (hx : x.run s' = (.error e, s'')) (hk : k < n) :
    (times n x).run s = (.error e, s'') := by
  induction n generalizing k s as with
  | zero => exact absurd hk (Nat.not_lt_zero k)
  | succ n ih =>
      cases k with
      | zero =>
          obtain ⟨_, rfl⟩ : [] = as ∧ s = s' := by simpa [times] using h
          exact bind_run_error hx _
      | succ k =>
          simp only [times, bind_eq_ok, pure_run, Prod.mk.injEq, Except.ok.injEq] at h
          obtain ⟨a, s₁, hround, as', s₂, hrest, _, rfl⟩ := h
          rw [times, bind_run_ok hround, bind_run_error (ih hrest (Nat.lt_of_succ_lt_succ hk))]

/-! ## Computations that never raise a measure -/

section Measure

variable {μ : σ → Nat}

/-- Running `x` never raises the measure, whether it succeeds or fails. -/
def Shrinks (μ : σ → Nat) (x : Fallible σ ε α) : Prop := ∀ s, μ (x.run s).2 ≤ μ s

theorem shrinks_pure (a : α) : Shrinks μ (pure a : Fallible σ ε α) := fun _ => Nat.le_refl _

theorem shrinks_fail (e : ε) : Shrinks μ (fail e : Fallible σ ε α) := fun _ => Nat.le_refl _

theorem shrinks_ofExcept (r : Except ε α) : Shrinks μ (ofExcept r : Fallible σ ε α) :=
  fun _ => Nat.le_refl _

theorem shrinks_bind {x : Fallible σ ε α} {f : α → Fallible σ ε β} (hx : Shrinks μ x)
    (hf : ∀ a, Shrinks μ (f a)) : Shrinks μ (x >>= f) := by
  intro s
  have hs := hx s
  rw [bind_run]
  rcases h : x.run s with ⟨e | a, s'⟩
  · rw [h] at hs
    exact hs
  · rw [h] at hs
    exact Nat.le_trans (hf a s') hs

theorem shrinks_times {x : Fallible σ ε α} (hx : Shrinks μ x) (n : Nat) :
    Shrinks μ (times n x) := by
  induction n with
  | zero => exact shrinks_pure _
  | succ n ih => exact shrinks_bind hx fun _ => shrinks_bind ih fun _ => shrinks_pure _

/-! ## Computations that agree on small states -/

/-- `x` and `y` behave the same on every state of measure below `n`. -/
def Agree (μ : σ → Nat) (n : Nat) (x y : Fallible σ ε α) : Prop :=
  ∀ s, μ s < n → x.run s = y.run s

theorem agree_refl (n : Nat) (x : Fallible σ ε α) : Agree μ n x x := fun _ _ => rfl

theorem agree_bind {n : Nat} {x y : Fallible σ ε α} {f g : α → Fallible σ ε β}
    (hx : Shrinks μ x) (hxy : Agree μ n x y) (hfg : ∀ a, Agree μ n (f a) (g a)) :
    Agree μ n (x >>= f) (y >>= g) := by
  intro s hs
  have hle := hx s
  rw [bind_run, bind_run, ← hxy s hs]
  rcases h : x.run s with ⟨e | a, s'⟩
  · rfl
  · rw [h] at hle
    exact hfg a s' (Nat.lt_of_le_of_lt hle hs)

theorem agree_times {n : Nat} {x y : Fallible σ ε α} (hx : Shrinks μ x) (hxy : Agree μ n x y)
    (k : Nat) : Agree μ n (times k x) (times k y) := by
  induction k with
  | zero => exact agree_refl _ _
  | succ k ih =>
      exact agree_bind hx hxy fun _ =>
        agree_bind (shrinks_times hx k) ih fun _ => agree_refl _ _

/-! ## Recursion on the measure -/

/-- `n` unfoldings of a recursive body; below them it stops. -/
def unfold (body : Fallible σ ε α → Fallible σ ε α) (stop : ε) : Nat → Fallible σ ε α
  | 0 => fail stop
  | n + 1 => body (unfold body stop n)

/-- The recursion `x = body x`, unfolded once more than the measure of the
state it starts in. -/
def fix (μ : σ → Nat) (body : Fallible σ ε α → Fallible σ ε α) (stop : ε) : Fallible σ ε α :=
  ⟨fun s => (unfold body stop (μ s + 1)).run s⟩

/-- A body that lowers the measure before it recurs: it sends computations
that agree below `n` to computations that agree below `n + 1`. -/
structure Guarded (μ : σ → Nat) (body : Fallible σ ε α → Fallible σ ε α) : Prop where
  shrinks : ∀ x, Shrinks μ x → Shrinks μ (body x)
  agree : ∀ n x y, Shrinks μ x → Agree μ n x y → Agree μ (n + 1) (body x) (body y)

variable {body : Fallible σ ε α → Fallible σ ε α} {stop : ε}

theorem shrinks_unfold (hshrinks : ∀ x, Shrinks μ x → Shrinks μ (body x)) (n : Nat) :
    Shrinks μ (unfold body stop n) := by
  induction n with
  | zero => exact shrinks_fail _
  | succ n ih => exact hshrinks _ ih

theorem shrinks_fix {ν : σ → Nat} (hshrinks : ∀ x, Shrinks μ x → Shrinks μ (body x)) :
    Shrinks μ (fix ν body stop) :=
  fun s => shrinks_unfold hshrinks (ν s + 1) s

/-- Unfoldings of a body that lowers the measure by `k` before it recurs agree
as far as the shallower one reaches. -/
theorem agree_unfold {k : Nat} (hshrinks : ∀ x, Shrinks μ x → Shrinks μ (body x))
    (hstep : ∀ n x y, Shrinks μ x → Agree μ n x y → Agree μ (n + k) (body x) (body y)) {n m : Nat}
    (h : n ≤ m) : Agree μ (k * n) (unfold body stop n) (unfold body stop m) := by
  induction n generalizing m with
  | zero => exact fun s hs => absurd hs (Nat.not_lt_zero _)
  | succ n ih =>
      obtain ⟨m, rfl⟩ : ∃ k, m = k + 1 := ⟨m - 1, by omega⟩
      exact hstep (k * n) _ _ (shrinks_unfold hshrinks n) (ih (by omega))

/-- Unfoldings beyond the measure change nothing. -/
theorem unfold_run_eq_fix_run (hb : Guarded μ body) {n : Nat} {s : σ} (h : μ s < n) :
    (unfold body stop n).run s = (fix μ body stop).run s := by
  have hag : Agree μ (1 * (μ s + 1)) (unfold body stop (μ s + 1)) (unfold body stop n) :=
    agree_unfold hb.shrinks hb.agree h
  exact (hag s (by omega)).symm

/-- **The recursive equation** of a guarded body. -/
theorem fix_eq (hb : Guarded μ body) : fix μ body stop = body (fix μ body stop) := by
  apply ext_run
  intro s
  have hag : Agree μ (μ s) (unfold body stop (μ s)) (fix μ body stop) :=
    fun s' hs' => unfold_run_eq_fix_run hb hs'
  exact hb.agree _ _ _ (shrinks_unfold hb.shrinks (μ s)) hag s (Nat.lt_succ_self _)

end Measure

end Fallible

end Base
