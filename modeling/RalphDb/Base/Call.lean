import Mathlib.Logic.Function.Basic

/-!
# RalphDb.Base.Call

Calls on a shared map, as trees of atomic steps.

A concurrent map locks what it stores under one key for the length of one
operation.  A call is then a sequence of *accesses*: each reads the entry of
one key, may replace it, and decides from what it read how to go on.  Between
two accesses other calls may run.  The clock is read under the lock of an
access, or on its own.

* **sequential run** — `runAt t` runs a call without interruption at one
  instant, `runOn clock` with a clock reading for each access;
* **frames** — `Keeps k J P`: while the entry of `k` satisfies `J`, the call
  leaves it alone, and it ends in an answer satisfying `P`.  Nothing is assumed
  of the entries of other keys, so the rule holds under any interleaving;
* **pending changes** — `Touches k`: the next access may change the entry of
  `k`.  A `Wary` call keeps the key from every point at which it is not about
  to touch it;
* **stored values** — `Upholds V P`: the call leaves entries satisfying `V` if
  it finds such entries, and it ends in an answer satisfying `P`;
* **ghost states** — `Follows V R P`: every access moves a ghost state along
  `R`, and the answer satisfies `P` of the last.  An `Observes` call changes no
  entry.
-/

namespace Base

/-- A shared map, as the entry it holds for each key. -/
abbrev SharedMap (κ ε : Type) : Type := κ → Option ε

/-- A call on a map from `κ` to `ε` with a clock of type `τ`. -/
inductive Call (κ ε τ α : Type) where
  | done (a : α)
  | now (next : τ → Call κ ε τ α)
  | access (key : κ) (act : τ → Option ε → Option ε) (next : τ → Option ε → Call κ ε τ α)

namespace Call

variable {κ ε τ α β : Type}

def bind : Call κ ε τ α → (α → Call κ ε τ β) → Call κ ε τ β
  | done a, f => f a
  | now next, f => now fun t => (next t).bind f
  | access key act next, f => access key act fun t entry => (next t entry).bind f

instance : Monad (Call κ ε τ) where
  pure := done
  bind := bind

theorem bind_assoc {γ : Type} (x : Call κ ε τ α) (f : α → Call κ ε τ β) (g : β → Call κ ε τ γ) :
    (x >>= f) >>= g = x >>= fun a => f a >>= g := by
  show (x.bind f).bind g = x.bind fun a => (f a).bind g
  induction x with
  | done a => rfl
  | now next ih => exact congrArg now (funext ih)
  | access key act next ih =>
      exact congrArg (access key act) (funext fun t => funext fun entry => ih t entry)

/-- Read the clock. -/
def readClock : Call κ ε τ τ := now done

/-- One access: an answer and the entry to leave behind, from the clock and
the entry found. -/
def atomic (key : κ) (f : τ → Option ε → α × Option ε) : Call κ ε τ α :=
  access key (fun t entry => (f t entry).2) fun t entry => done (f t entry).1

/-! ## Sequential runs -/

section Runs

variable [DecidableEq κ]

/-- Run a call without interruption at the instant `t`. -/
def runAt (t : τ) : Call κ ε τ α → SharedMap κ ε → α × SharedMap κ ε
  | done a, m => (a, m)
  | now next, m => (next t).runAt t m
  | access key act next, m =>
      (next t (m key)).runAt t (Function.update m key (act t (m key)))

@[simp] theorem runAt_pure (t : τ) (a : α) (m : SharedMap κ ε) :
    (pure a : Call κ ε τ α).runAt t m = (a, m) := rfl

@[simp] theorem runAt_readClock (t : τ) (m : SharedMap κ ε) :
    (readClock : Call κ ε τ τ).runAt t m = (t, m) := rfl

@[simp] theorem runAt_atomic (t : τ) (key : κ) (f : τ → Option ε → α × Option ε)
    (m : SharedMap κ ε) :
    (atomic key f).runAt t m = ((f t (m key)).1, Function.update m key (f t (m key)).2) := rfl

@[simp] theorem runAt_bind (t : τ) (x : Call κ ε τ α) (f : α → Call κ ε τ β)
    (m : SharedMap κ ε) :
    (x >>= f).runAt t m = (f (x.runAt t m).1).runAt t (x.runAt t m).2 := by
  show (x.bind f).runAt t m = _
  induction x generalizing m with
  | done a => rfl
  | now next ih => exact ih t m
  | access key act next ih => exact ih t (m key) _

/-- Run a call without interruption.  `clock n` is the reading that access `n`
takes, counted from the accesses `n` made before. -/
def runOn (clock : Nat → τ) : Call κ ε τ α → Nat → SharedMap κ ε → α × Nat × SharedMap κ ε
  | done a, n, m => (a, n, m)
  | now next, n, m => (next (clock n)).runOn clock (n + 1) m
  | access key act next, n, m =>
      (next (clock n) (m key)).runOn clock (n + 1)
        (Function.update m key (act (clock n) (m key)))

@[simp] theorem runOn_pure (clock : Nat → τ) (a : α) (n : Nat) (m : SharedMap κ ε) :
    (pure a : Call κ ε τ α).runOn clock n m = (a, n, m) := rfl

@[simp] theorem runOn_bind (clock : Nat → τ) (x : Call κ ε τ α) (f : α → Call κ ε τ β) (n : Nat)
    (m : SharedMap κ ε) :
    (x >>= f).runOn clock n m =
      (f (x.runOn clock n m).1).runOn clock (x.runOn clock n m).2.1 (x.runOn clock n m).2.2 := by
  show (x.bind f).runOn clock n m = _
  induction x generalizing n m with
  | done a => rfl
  | now next ih => exact ih (clock n) (n + 1) m
  | access key act next ih => exact ih (clock n) (m key) (n + 1) _

end Runs

/-! ## Frames -/

section Frames

variable {k : κ} {J : Option ε → Prop} {P : α → Prop} {Q : β → Prop}

/-- While the entry of `k` satisfies `J`, the call leaves it alone; its answer
satisfies `P`. -/
def Keeps (k : κ) (J : Option ε → Prop) (P : α → Prop) : Call κ ε τ α → Prop
  | done a => P a
  | now next => ∀ t, (next t).Keeps k J P
  | access key act next => ∀ t entry, (key = k → J entry) →
      (key = k → act t entry = entry) ∧ (next t entry).Keeps k J P

theorem keeps_pure {a : α} (h : P a) : (pure a : Call κ ε τ α).Keeps k J P := h

theorem keeps_bind {x : Call κ ε τ α} {f : α → Call κ ε τ β} (hx : x.Keeps k J P)
    (hf : ∀ a, P a → (f a).Keeps k J Q) : (x >>= f).Keeps k J Q := by
  show (x.bind f).Keeps k J Q
  induction x with
  | done a => exact hf a hx
  | now next ih => exact fun t => ih t (hx t)
  | access key act next ih =>
      exact fun t entry hJ => ⟨(hx t entry hJ).1, ih t entry (hx t entry hJ).2⟩

/-- An access of another key. -/
theorem keeps_atomic_ne {key : κ} {f : τ → Option ε → α × Option ε} (h : key ≠ k)
    (hP : ∀ t entry, P (f t entry).1) : (atomic key f).Keeps k J P :=
  fun t entry _ => ⟨fun heq => absurd heq h, hP t entry⟩

/-- An access that only reads, whatever its key. -/
theorem keeps_atomic_read {key : κ} {f : τ → Option ε → α × Option ε}
    (hread : ∀ t entry, (f t entry).2 = entry)
    (hP : ∀ t entry, (key = k → J entry) → P (f t entry).1) : (atomic key f).Keeps k J P :=
  fun t entry hJ => ⟨fun _ => hread t entry, hP t entry hJ⟩

theorem Keeps.imp {x : Call κ ε τ α} {P' : α → Prop} (h : x.Keeps k J P) (hP : ∀ a, P a → P' a) :
    x.Keeps k J P' := by
  induction x with
  | done a => exact hP a h
  | now next ih => exact fun t => ih t (h t)
  | access key act next ih =>
      exact fun t entry hJ => ⟨(h t entry hJ).1, ih t entry (h t entry hJ).2⟩

end Frames

/-! ## Stored values -/

section Values

variable {V : ε → Prop} {P : α → Prop} {Q : β → Prop}

/-- The entry, if there is one, satisfies `V`. -/
def Sound (V : ε → Prop) (found : Option ε) : Prop := ∀ entry ∈ found, V entry

/-- The call leaves sound entries if it finds sound entries, and its answer
then satisfies `P`. -/
def Upholds (V : ε → Prop) (P : α → Prop) : Call κ ε τ α → Prop
  | done a => P a
  | now next => ∀ t, (next t).Upholds V P
  | access _ act next => ∀ t entry, Sound V entry →
      Sound V (act t entry) ∧ (next t entry).Upholds V P

theorem upholds_pure {a : α} (h : P a) : (pure a : Call κ ε τ α).Upholds V P := h

theorem upholds_bind {x : Call κ ε τ α} {f : α → Call κ ε τ β} (hx : x.Upholds V P)
    (hf : ∀ a, P a → (f a).Upholds V Q) : (x >>= f).Upholds V Q := by
  show (x.bind f).Upholds V Q
  induction x with
  | done a => exact hf a hx
  | now next ih => exact fun t => ih t (hx t)
  | access key act next ih =>
      exact fun t entry hsound => ⟨(hx t entry hsound).1, ih t entry (hx t entry hsound).2⟩

theorem upholds_atomic {key : κ} {f : τ → Option ε → α × Option ε}
    (h : ∀ t entry, Sound V entry → Sound V (f t entry).2 ∧ P (f t entry).1) :
    (atomic key f).Upholds V P := h

theorem Upholds.imp {x : Call κ ε τ α} {P' : α → Prop} (h : x.Upholds V P)
    (hP : ∀ a, P a → P' a) : x.Upholds V P' := by
  induction x with
  | done a => exact hP a h
  | now next ih => exact fun t => ih t (h t)
  | access key act next ih =>
      exact fun t entry hsound => ⟨(h t entry hsound).1, ih t entry (h t entry hsound).2⟩

/-- A sequential run of such a call on a sound map. -/
theorem upholds_runOn [DecidableEq κ] {x : Call κ ε τ α} {m : SharedMap κ ε}
    (h : x.Upholds V P) (hm : ∀ key, Sound V (m key)) (clock : Nat → τ) (n : Nat) :
    P (x.runOn clock n m).1 ∧ ∀ key, Sound V ((x.runOn clock n m).2.2 key) := by
  induction x generalizing n m with
  | done a => exact ⟨h, hm⟩
  | now next ih => exact ih (clock n) (h (clock n)) hm (n + 1)
  | access key act next ih =>
      obtain ⟨hact, hnext⟩ := h (clock n) (m key) (hm key)
      refine ih (clock n) (m key) hnext ?_ (n + 1)
      exact (Function.forall_update_iff m _).mpr ⟨hact, fun key' _ => hm key'⟩

/-- Of the entries alone nothing is asked. -/
theorem upholds_any (x : Call κ ε τ α) : x.Upholds (fun _ => True) fun _ => True := by
  induction x with
  | done a => exact trivial
  | now next ih => exact fun t => ih t
  | access key act next ih => exact fun t entry _ => ⟨fun _ _ => trivial, ih t entry⟩

end Values

/-! ## Failures -/

section Failures

variable {E : α → Prop}

/-- Every access leaves its entry alone, or from there on the answer is not in
`E`. -/
def Spares (E : α → Prop) : Call κ ε τ α → Prop
  | done _ => True
  | now next => ∀ t, (next t).Spares E
  | access _ act next => ∀ t entry, (act t entry = entry ∧ (next t entry).Spares E) ∨
      (next t entry).Upholds (fun _ => True) fun a => ¬ E a

theorem spares_pure (a : α) : (pure a : Call κ ε τ α).Spares E := trivial

/-- A call that never answers in `E`. -/
theorem spares_of_upholds {x : Call κ ε τ α} (h : x.Upholds (fun _ => True) fun a => ¬ E a) :
    x.Spares E := by
  induction x with
  | done a => exact trivial
  | now next ih => exact fun t => ih t (h t)
  | access key act next ih => exact fun t entry => .inr (h t entry fun _ _ => trivial).2

/-- **Where the answer is in `E`, the run has changed nothing.** -/
theorem spares_runOn [DecidableEq κ] {x : Call κ ε τ α} (h : x.Spares E) (clock : Nat → τ)
    (n : Nat) (m : SharedMap κ ε) (hE : E (x.runOn clock n m).1) :
    (x.runOn clock n m).2.2 = m := by
  induction x generalizing n with
  | done a => rfl
  | now next ih => exact ih (clock n) (h (clock n)) (n + 1) hE
  | access key act next ih =>
      rw [runOn] at hE ⊢
      obtain ⟨hact, hnext⟩ | havoid := h (clock n) (m key)
      · rw [hact, Function.update_eq_self] at hE ⊢
        exact ih (clock n) (m key) hnext (n + 1) hE
      · exact absurd hE (upholds_runOn havoid (fun _ _ _ => trivial) clock (n + 1)).1

end Failures

/-! ## Ghost states -/

section Ghost

variable {σ : Type} {V : κ → Option ε → Prop} {R : σ → κ → Option ε → Option ε → σ → Prop}
  {P : σ → α → Prop} {Q : σ → β → Prop} {s : σ}

/-- Given entries satisfying `V`, every access moves a ghost state along `R`,
which relates it to the entry found and the entry left; the answer satisfies
`P` of the last ghost state. -/
def Follows (V : κ → Option ε → Prop) (R : σ → κ → Option ε → Option ε → σ → Prop)
    (P : σ → α → Prop) : Call κ ε τ α → σ → Prop
  | done a, s => P s a
  | now next, s => ∀ t, (next t).Follows V R P s
  | access key act next, s => ∀ t entry, V key entry →
      ∃ s', R s key entry (act t entry) s' ∧ (next t entry).Follows V R P s'

theorem follows_pure {a : α} (h : P s a) : (pure a : Call κ ε τ α).Follows V R P s := h

theorem follows_bind {x : Call κ ε τ α} {f : α → Call κ ε τ β} (hx : x.Follows V R P s)
    (hf : ∀ s a, P s a → (f a).Follows V R Q s) : (x >>= f).Follows V R Q s := by
  show (x.bind f).Follows V R Q s
  induction x generalizing s with
  | done a => exact hf s a hx
  | now next ih => exact fun t => ih t (hx t)
  | access key act next ih =>
      intro t entry hV
      obtain ⟨s', hR, hnext⟩ := hx t entry hV
      exact ⟨s', hR, ih t entry hnext⟩

theorem follows_atomic {key : κ} {f : τ → Option ε → α × Option ε}
    (h : ∀ t entry, V key entry → ∃ s', R s key entry (f t entry).2 s' ∧ P s' (f t entry).1) :
    (atomic key f).Follows V R P s := h

theorem Follows.imp {x : Call κ ε τ α} {P' : σ → α → Prop} (h : x.Follows V R P s)
    (hP : ∀ s a, P s a → P' s a) : x.Follows V R P' s := by
  induction x generalizing s with
  | done a => exact hP s a h
  | now next ih => exact fun t => ih t (h t)
  | access key act next ih =>
      intro t entry hV
      obtain ⟨s', hR, hnext⟩ := h t entry hV
      exact ⟨s', hR, ih t entry hnext⟩

/-- Given entries satisfying `V`, the call changes nothing, and its answer
satisfies `P`. -/
def Observes (V : κ → Option ε → Prop) (P : α → Prop) (x : Call κ ε τ α) : Prop :=
  x.Follows V (fun _ _ found left _ => left = found) (fun _ a => P a) ()

variable {O : α → Prop} {O' : β → Prop}

theorem observes_pure {a : α} (h : O a) : (pure a : Call κ ε τ α).Observes V O := h

theorem observes_bind {x : Call κ ε τ α} {f : α → Call κ ε τ β} (hx : x.Observes V O)
    (hf : ∀ a, O a → (f a).Observes V O') : (x >>= f).Observes V O' :=
  follows_bind hx fun _ => hf

theorem Observes.imp {x : Call κ ε τ α} {O' : α → Prop} (h : x.Observes V O)
    (hO : ∀ a, O a → O' a) : x.Observes V O' :=
  Follows.imp h fun _ => hO

/-- An access that only reads. -/
theorem observes_atomic {key : κ} {f : τ → Option ε → α × Option ε}
    (hread : ∀ t entry, (f t entry).2 = entry) (hO : ∀ t entry, V key entry → O (f t entry).1) :
    (atomic key f).Observes V O :=
  follows_atomic fun t entry hV => ⟨(), hread t entry, hO t entry hV⟩

/-- An observer follows whatever lets an unchanged entry pass. -/
theorem Observes.follows {x : Call κ ε τ α} (h : x.Observes V O)
    (hR : ∀ key entry, R s key entry entry s) : x.Follows V R (fun s' a => s' = s ∧ O a) s := by
  induction x with
  | done a => exact ⟨rfl, h⟩
  | now next ih => exact fun t => ih t (h t)
  | access key act next ih =>
      intro t entry hV
      obtain ⟨_, hsame, hnext⟩ := h t entry hV
      exact ⟨s, by rw [hsame]; exact hR key entry, ih t entry hnext⟩

end Ghost

/-! ## Single steps -/

/-- One access, or one reading of the clock. -/
def advance [DecidableEq κ] (t : τ) :
    Call κ ε τ α → SharedMap κ ε → Call κ ε τ α × SharedMap κ ε
  | done a, m => (done a, m)
  | now next, m => (next t, m)
  | access key act next, m => (next t (m key), Function.update m key (act t (m key)))

theorem advance_atomic_bind [DecidableEq κ] (t : τ) (key : κ) (f : τ → Option ε → α × Option ε)
    (g : α → Call κ ε τ β) (m : SharedMap κ ε) :
    (atomic key f >>= g).advance t m =
      (g (f t (m key)).1, Function.update m key (f t (m key)).2) := rfl

/-- A step of a call that leaves `k` alone leaves it alone, and so does what is
left of the call. -/
theorem keeps_advance [DecidableEq κ] {k : κ} {J : Option ε → Prop} {P : α → Prop}
    {x : Call κ ε τ α} {m : SharedMap κ ε} (h : x.Keeps k J P) (hJ : J (m k)) (t : τ) :
    (x.advance t m).2 k = m k ∧ (x.advance t m).1.Keeps k J P := by
  cases x with
  | done a => exact ⟨rfl, h⟩
  | now next => exact ⟨rfl, h t⟩
  | access key act next =>
      obtain ⟨hact, hnext⟩ := h t (m key) fun heq => by rw [heq]; exact hJ
      refine ⟨?_, hnext⟩
      by_cases hkey : k = key
      · subst hkey
        exact (Function.update_self k _ m).trans (hact rfl)
      · exact Function.update_of_ne hkey _ m

/-- A step of a call that follows `R` changes nothing, or is an access that
moves the ghost state along `R`. -/
theorem follows_advance [DecidableEq κ] {σ : Type} {V : κ → Option ε → Prop}
    {R : σ → κ → Option ε → Option ε → σ → Prop} {P : σ → α → Prop} {s : σ} {x : Call κ ε τ α}
    {m : SharedMap κ ε} (h : x.Follows V R P s) (hV : ∀ key, V key (m key)) (t : τ) :
    ((x.advance t m).2 = m ∧ (x.advance t m).1.Follows V R P s) ∨
      ∃ key left s', (x.advance t m).2 = Function.update m key left ∧ R s key (m key) left s' ∧
        (x.advance t m).1.Follows V R P s' := by
  cases x with
  | done a => exact .inl ⟨rfl, h⟩
  | now next => exact .inl ⟨rfl, h t⟩
  | access key act next =>
      obtain ⟨s', hR, hnext⟩ := h t (m key) (hV key)
      exact .inr ⟨key, act t (m key), s', rfl, hR, hnext⟩

/-- A step of an observer. -/
theorem observes_advance [DecidableEq κ] {V : κ → Option ε → Prop} {O : α → Prop}
    {x : Call κ ε τ α} {m : SharedMap κ ε} (h : x.Observes V O) (hV : ∀ key, V key (m key))
    (t : τ) : (x.advance t m).2 = m ∧ (x.advance t m).1.Observes V O := by
  obtain hsame | ⟨key, left, _, hm, hleft, hnext⟩ := follows_advance h hV t
  · exact hsame
  · exact ⟨by rw [hm, hleft, Function.update_eq_self], hnext⟩

/-! ## Pending changes -/

/-- The next access may change the entry of `k`. -/
def Touches (k : κ) : Call κ ε τ α → Prop
  | access key act _ => key = k ∧ ∃ t entry, act t entry ≠ entry
  | _ => False

/-- From every point at which it is not about to touch `k`, the call keeps it. -/
def Wary (k : κ) (J : Option ε → Prop) : Call κ ε τ α → Prop
  | done _ => True
  | now next => (now next).Keeps k J (fun _ => True) ∧ ∀ t, (next t).Wary k J
  | access key act next =>
      (¬ (access key act next).Touches k → (access key act next).Keeps k J fun _ => True) ∧
        ∀ t entry, (next t entry).Wary k J

section Pending

variable {k : κ} {J : Option ε → Prop}

theorem wary_pure (a : α) : (pure a : Call κ ε τ α).Wary k J := trivial

theorem Wary.keeps {x : Call κ ε τ α} (h : x.Wary k J) (hx : ¬ x.Touches k) :
    x.Keeps k J fun _ => True := by
  cases x with
  | done a => exact trivial
  | now next => exact h.1
  | access key act next => exact h.1 hx

theorem wary_advance [DecidableEq κ] {x : Call κ ε τ α} (h : x.Wary k J) (t : τ)
    (m : SharedMap κ ε) : (x.advance t m).1.Wary k J := by
  cases x with
  | done a => exact trivial
  | now next => exact h.2 t
  | access key act next => exact h.2 t (m key)

/-- A call followed by one that keeps the key. -/
theorem wary_bind {x : Call κ ε τ α} {f : α → Call κ ε τ β} (hx : x.Wary k J)
    (hkeeps : ∀ a, (f a).Keeps k J fun _ => True) (hf : ∀ a, (f a).Wary k J) :
    (x >>= f).Wary k J := by
  show (x.bind f).Wary k J
  induction x with
  | done a => exact hf a
  | now next ih => exact ⟨keeps_bind hx.1 fun a _ => hkeeps a, fun t => ih t (hx.2 t)⟩
  | access key act next ih =>
      refine ⟨fun htouch => ?_, fun t entry => ih t entry (hx.2 t entry)⟩
      exact keeps_bind (hx.1 htouch) fun a _ => hkeeps a

/-- An access followed by a wary call, where the access keeps the key unless it
touches it. -/
theorem wary_atomic_bind {key : κ} {f : τ → Option ε → α × Option ε} {g : α → Call κ ε τ β}
    (hkeeps : ¬ (atomic key f).Touches k → (atomic key f >>= g).Keeps k J fun _ => True)
    (hg : ∀ a, (g a).Wary k J) : (atomic key f >>= g).Wary k J :=
  ⟨hkeeps, fun t entry => hg (f t entry).1⟩

end Pending

end Call

end Base
