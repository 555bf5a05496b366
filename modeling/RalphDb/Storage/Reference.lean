import RalphDb.Storage.Storage
import Mathlib.Data.Finset.Card

/-!
# RalphDb.Storage.Reference

The store without leftovers, and that `Storage` refines it.

The reference is a plain map in which an entry is present exactly until its
deadline.  The contents of `Storage` show it through `visible now`, which drops
the expired entries.  `Refines now x f` says that the call `x`, run at `now`,
answers what `f` answers on the visible map and leaves `f`'s map visible; the
rule `refines_bind` composes it, so an operation made of smaller ones needs no
look inside them.
-/

namespace RalphDb

open Base
open Function

/-- A map whose entries are all present. -/
abbrev Reference : Type := SharedMap Key Entry

/-- The unexpired entries. -/
def visible (now : Instant) (m : DashMap) : Reference :=
  fun key => (m key).filter fun entry => !entry.expired now

/-! ## The visible map -/

@[simp] theorem visible_update (now : Instant) (m : DashMap) (key : Key) (entry : Option Entry) :
    visible now (update m key entry) =
      update (visible now m) key (entry.filter fun entry => !entry.expired now) := by
  funext k
  by_cases h : k = key
  · subst h
    simp [visible]
  · simp [visible, update_of_ne h]

/-- An expired entry stays expired. -/
theorem expired_mono {entry : Entry} {t now : Instant} (hle : t ≤ now)
    (h : entry.expired t = true) : entry.expired now = true := by
  unfold Entry.expired at h ⊢
  split at h
  · simp only [decide_eq_true_eq] at h ⊢
    exact Fin.le_trans h hle
  · contradiction

/-- Looking later shows what was visible before, less what has expired. -/
theorem visible_visible {t now : Instant} (hle : t ≤ now) (m : DashMap) :
    visible now (visible t m) = visible now m := by
  funext key
  cases hm : m key with
  | none => simp [visible, hm]
  | some entry =>
      cases ht : entry.expired t with
      | true => simp [visible, hm, Option.filter_some, ht, expired_mono hle ht]
      | false => simp [visible, hm, Option.filter_some, ht]

/-! ## The operations of the reference -/

namespace Reference

def value (key : Key) (ref : Reference) : Option (List UInt8) := (ref key).map Entry.value

/-- Store the pairs from left to right; each clears the deadline of its key. -/
def store (pairs : List (Key × List UInt8)) (ref : Reference) : Reference :=
  pairs.foldl (fun ref pair => update ref pair.1 (some (Entry.new pair.2))) ref

/-- Remove the keys. -/
def erase (keys : List Key) (ref : Reference) : Reference :=
  fun key => if key ∈ keys then none else ref key

/-- The number of distinct keys that are present. -/
def countDistinct (keys : List Key) (ref : Reference) : Nat :=
  (keys.toFinset.filter fun key => (ref key).isSome).card

/-- Add to a counter, keeping its deadline; an error changes nothing. -/
def adjust (key : Key) (delta : Int64) (ref : Reference) :
    Except StorageError Int64 × Reference :=
  match counterValue (ref key) with
  | none => (.error .invalidInteger, ref)
  | some n =>
      match checkedAdd n delta with
      | none => (.error .integerOutOfRange, ref)
      | some updated =>
          (.ok updated,
            update ref key (some ⟨utf8 (toString updated.toInt), (ref key).bind Entry.expiresAt⟩))

/-- Set the deadline of a present key, if the clock can name it. -/
def setDeadline (key : Key) (now : Instant) (secs : Nat) (ref : Reference) : Bool × Reference :=
  match ref key, Instant.checkedAdd now secs with
  | some entry, some deadline =>
      (true, update ref key (some { entry with expiresAt := some deadline }))
  | _, _ => (false, ref)

/-- The whole seconds to the deadline: `-1` without one, `-2` for an absent
key. -/
def remaining (key : Key) (now : Instant) (ref : Reference) : Int64 :=
  match ref key with
  | none => -2
  | some entry =>
      match entry.expiresAt with
      | none => -1
      | some deadline => Int64.ofNat (Instant.secondsUntil deadline now)

end Reference

/-! ## Refinement -/

/-- The call `x`, run at `now`, does to the visible map what `f` does. -/
def Refines {α : Type} (now : Instant) (x : StorageCall α) (f : Reference → α × Reference) : Prop :=
  ∀ m, ((x.runAt now m).1, visible now (x.runAt now m).2) = f (visible now m)

section Refines

variable {α β : Type} {now : Instant}

theorem refines_pure (a : α) : Refines now (pure a) fun ref => (a, ref) := fun _ => rfl

theorem Refines.congr {x : StorageCall α} {f g : Reference → α × Reference} (h : Refines now x f)
    (hfg : ∀ ref, f ref = g ref) : Refines now x g := fun m => (h m).trans (hfg _)

theorem refines_bind {x : StorageCall α} {f : Reference → α × Reference}
    {y : α → StorageCall β} {g : α → Reference → β × Reference} (hx : Refines now x f)
    (hy : ∀ a, Refines now (y a) (g a)) :
    Refines now (x >>= y) fun ref => g (f ref).1 (f ref).2 := by
  intro m
  rw [Call.runAt_bind, hy]
  show _ = g (f (visible now m)).1 (f (visible now m)).2
  rw [← hx m]

/-- A call followed by a function of its answer. -/
theorem refines_map {x : StorageCall α} {f : Reference → α × Reference} (g : α → β)
    (hx : Refines now x f) :
    Refines now (x >>= fun a => pure (g a)) fun ref => (g (f ref).1, (f ref).2) :=
  refines_bind hx fun a => refines_pure (g a)

end Refines

/-! ## The operations refine the reference -/

section Operations

variable {now : Instant}

theorem refines_set (key : Key) (value : List UInt8) :
    Refines now (Storage.set key value) fun ref => ((), Reference.store [(key, value)] ref) := by
  intro m
  have hfilter : (some (Entry.new value)).filter (fun entry => !entry.expired now) =
      some (Entry.new value) := rfl
  simp only [Storage.set, Storage.insert, Call.runAt_atomic, visible_update, hfilter]
  rfl

theorem runAt_look (now : Instant) (key : Key) (m : DashMap) :
    (Storage.look key).runAt now m = (.of now (m key), m) := by
  rw [Storage.look, Call.runAt_atomic, update_eq_self]

theorem runAt_remove (now : Instant) (key : Key) (m : DashMap) :
    (Storage.remove key).runAt now m = (m key, update m key none) := rfl

/-- What a look finds, in terms of the visible map. -/
theorem found_cases (now : Instant) (m : DashMap) (key : Key) :
    (Storage.Found.of now (m key) = .absent ∧ m key = none ∧ visible now m key = none) ∨
      (Storage.Found.of now (m key) = .expired ∧ visible now m key = none) ∨
      ∃ entry, Storage.Found.of now (m key) = .live entry now ∧ m key = some entry ∧
        visible now m key = some entry := by
  cases hm : m key with
  | none => simp [Storage.Found.of, visible, hm]
  | some entry =>
      cases hexp : entry.expired now with
      | true => simp [Storage.Found.of, visible, hm, Option.filter_some, hexp]
      | false => simp [Storage.Found.of, visible, hm, Option.filter_some, hexp]

theorem refines_get (key : Key) :
    Refines now (Storage.get key) fun ref => (Reference.value key ref, ref) := by
  intro m
  simp only [Storage.get, Call.runAt_bind, runAt_look]
  obtain ⟨hfound, _, hvis⟩ | ⟨hfound, hvis⟩ | ⟨entry, hfound, _, hvis⟩ := found_cases now m key
  · simp [hfound, Reference.value, hvis]
  · simp [hfound, runAt_remove, Reference.value, hvis]
  · simp [hfound, Reference.value, hvis]

theorem refines_existsKey (key : Key) :
    Refines now (Storage.existsKey key) fun ref => ((ref key).isSome, ref) := by
  intro m
  rw [Storage.existsKey, refines_map Option.isSome (refines_get key) m]
  simp [Reference.value]

theorem refines_delKey (key : Key) :
    Refines now (Storage.delKey key) fun ref =>
      (if (ref key).isSome then 1 else 0, update ref key none) := by
  intro m
  simp only [Storage.delKey, Call.runAt_bind, runAt_look]
  obtain ⟨hfound, hm, hvis⟩ | ⟨hfound, hvis⟩ | ⟨entry, hfound, hm, hvis⟩ := found_cases now m key
  · rw [hfound]
    simp [runAt_remove, hm, hvis]
  · rw [hfound]
    simp [runAt_remove, hvis]
  · rw [hfound]
    simp [runAt_remove, hm, hvis]

/-- Removing one key, then the others. -/
theorem erase_cons (key : Key) (keys : List Key) (ref : Reference) :
    Reference.erase (key :: keys) ref = Reference.erase keys (update ref key none) := by
  funext k
  by_cases hk : k = key
  · simp [Reference.erase, hk]
  · simp [Reference.erase, hk]

/-- A key counts once, where it is named first. -/
theorem countDistinct_cons (key : Key) (keys : List Key) (ref : Reference) :
    Reference.countDistinct (key :: keys) ref =
      (if (ref key).isSome then 1 else 0) +
        Reference.countDistinct keys (update ref key none) := by
  have hothers : keys.toFinset.filter (fun k => (update ref key none k).isSome) =
      (keys.toFinset.filter fun k => (ref k).isSome).erase key := by
    ext k
    by_cases hk : k = key
    · simp [hk]
    · simp [hk]
  rw [Reference.countDistinct, Reference.countDistinct, hothers, List.toFinset_cons,
    Finset.filter_insert]
  by_cases hp : (ref key).isSome
  · rw [if_pos hp, if_pos hp, ← Finset.card_erase_add_one (Finset.mem_insert_self key _),
      Finset.erase_insert_eq_erase, Nat.add_comm]
  · rw [if_neg hp, if_neg hp, Finset.erase_eq_of_notMem (by simp [hp]), Nat.zero_add]

theorem refines_del (keys : List Key) :
    Refines now (Storage.del keys) fun ref =>
      (Reference.countDistinct keys ref, Reference.erase keys ref) := by
  induction keys with
  | nil => exact refines_pure 0
  | cons key keys ih =>
      have hrun := refines_bind (refines_delKey key) fun counted => refines_map (counted + ·) ih
      exact hrun.congr fun ref => by rw [countDistinct_cons, erase_cons]

/-- A deadline in the future has not come. -/
theorem not_expired_of_checkedAdd {t deadline : Instant} {secs : Nat} (hsecs : 0 < secs)
    (h : Instant.checkedAdd t secs = some deadline) (value : List UInt8) :
    Entry.expired ⟨value, some deadline⟩ t = false := by
  have hpos : 0 < nanosPerSecond * secs := Nat.mul_pos (by decide) hsecs
  have hval : nanosPerSecond * secs + t.val = deadline.val := by
    unfold Instant.checkedAdd at h
    split at h
    · exact congrArg Fin.val (Option.some.inj h)
    · contradiction
  have hlt : ¬ deadline ≤ t := by
    rw [Fin.le_def, ← hval]
    omega
  simp [Entry.expired, hlt]

theorem refines_expire (key : Key) {secs : Nat} (hsecs : 0 < secs) :
    Refines now (Storage.expire key secs) (Reference.setDeadline key now secs) := by
  intro m
  simp only [Storage.expire, Call.runAt_bind, Call.runAt_readClock, Reference.setDeadline]
  cases hadd : Instant.checkedAdd now secs with
  | none => cases visible now m key <;> rfl
  | some deadline =>
      simp only [Call.runAt_bind, Call.runAt_atomic]
      cases hm : m key with
      | none => simp [Storage.expireEntry, visible, hm]
      | some entry =>
          cases hexp : entry.expired now with
          | true => simp [Storage.expireEntry, visible, hm, Option.filter_some, hexp, runAt_remove]
          | false =>
              have hlive := not_expired_of_checkedAdd hsecs hadd entry.value
              simp [Storage.expireEntry, visible, hm, Option.filter_some, hexp, hlive]

theorem refines_ttl (key : Key) :
    Refines now (Storage.ttl key) fun ref => (Reference.remaining key now ref, ref) := by
  intro m
  simp only [Storage.ttl, Call.runAt_bind, runAt_look]
  obtain ⟨hfound, _, hvis⟩ | ⟨hfound, hvis⟩ | ⟨entry, hfound, _, hvis⟩ := found_cases now m key
  · simp [hfound, Reference.remaining, hvis]
  · simp [hfound, runAt_remove, Reference.remaining, hvis]
  · rw [hfound]
    cases hexp : entry.expiresAt <;> simp [Reference.remaining, hvis, hexp]

/-- `incr_by` counts in the visible entry, or in a fresh one. -/
theorem counterEntry_eq (now : Instant) (m : DashMap) (key : Key) :
    Storage.counterEntry now (m key) = (visible now m key).getD (Entry.new (utf8 "0")) := by
  cases hm : m key with
  | none => simp [Storage.counterEntry, visible, hm, Entry.new, Entry.expired]
  | some entry =>
      cases hexp : entry.expired now <;>
        simp [Storage.counterEntry, visible, hm, Option.filter_some, hexp, Entry.new]

theorem refines_incrBy (key : Key) (delta : Int64) :
    Refines now (Storage.incrBy key delta) (Reference.adjust key delta) := by
  have hzero : parseI64 "0" = some 0 := by decide
  intro m
  simp only [Storage.incrBy, Call.runAt_atomic, visible_update, Storage.incrEntry,
    counterEntry_eq, Reference.adjust, counterValue]
  cases hvis : visible now m key with
  | none =>
      simp [Entry.new, hzero, checkedAdd_zero, Option.filter_some, Entry.expired]
  | some entry =>
      have hlive : entry.expired now = false := by
        have hm : (m key).filter (fun entry => !entry.expired now) = some entry := hvis
        simpa using (Option.filter_eq_some_iff.mp hm).2
      have hkeep : ∀ value, Entry.expired { entry with value := value } now = false :=
        fun _ => hlive
      have hsame : update (visible now m) key (some entry) = visible now m := by
        rw [← hvis, update_eq_self]
      cases hcur : (fromUtf8 entry.value).bind parseI64 with
      | none => simp [hcur, Option.filter_some, hlive, hsame]
      | some n =>
          cases hadd : checkedAdd n delta with
          | none => simp [hcur, hadd, Option.filter_some, hlive, hsame]
          | some updated => simp [hcur, hadd, Option.filter_some, hkeep]

theorem refines_mget (keys : List Key) :
    Refines now (Storage.mget keys) fun ref =>
      (keys.map fun key => Reference.value key ref, ref) := by
  induction keys with
  | nil => exact refines_pure []
  | cons key keys ih =>
      exact refines_bind (refines_get key) fun value => refines_map (value :: ·) ih

theorem refines_mset (pairs : List (Key × List UInt8)) :
    Refines now (Storage.mset pairs) fun ref => ((), Reference.store pairs ref) := by
  induction pairs with
  | nil => exact refines_pure ()
  | cons pair pairs ih => exact refines_bind (refines_set pair.1 pair.2) fun _ => ih

end Operations

end RalphDb
