import RalphDb.Command.StorageCommand
import RalphDb.Base.Interleave

/-!
# RalphDb.Concurrent.Keeps

Which calls leave a key alone, whatever runs between their accesses.

A command that does not name `k` never touches it.  A command that reads `k`
touches it only to remove an expired entry, so it leaves alone an entry without
a deadline.  Both are statements about the accesses of a call
(`Call.Keeps`), so they hold under any interleaving.

Where no entry has a deadline a command that reads changes nothing at all
(`observes_call_of_reads`), and an `MGET` answers for each key a value that the
key had at some point (`observes_mget`).
-/

namespace RalphDb

open Base
open Base.Call

variable {F : Type}

/-- Clients that run storage commands, their calls and their replies. -/
abbrev Clients (ι F : Type) : Type := World ι Key Entry Instant StorageCommand (CommandResult F)

abbrev StorageRunning (F : Type) : Type :=
  Running Key Entry Instant StorageCommand (CommandResult F)

abbrev StorageReply (ι F : Type) : Type := Reply ι StorageCommand (CommandResult F)

/-- The entry, if there is one, never expires. -/
def NoDeadline (found : Option Entry) : Prop := ∀ entry, found = some entry → entry.expiresAt = none

/-- The commands that only read: `GET`, `MGET`, `EXISTS` and `TTL`. -/
def StorageCommand.Reads : StorageCommand → Prop
  | .get _ => True
  | .mget _ => True
  | .existsKeys _ => True
  | .ttl _ => True
  | _ => False

/-- A look finds an entry that never expires as it is. -/
theorem found_of_noDeadline {found : Option Entry} (h : NoDeadline found) (now : Instant) :
    Storage.Found.of now found = match found with
      | none => .absent
      | some entry => .live entry now := by
  cases found with
  | none => rfl
  | some entry =>
      have hlive : entry.expired now = false := by simp [Entry.expired, h entry rfl]
      simp [Storage.Found.of, hlive]

section Keeps

variable {k : Key} {J : Option Entry → Prop}

/-! ## Accesses -/

theorem keeps_look (hJ : ∀ found, J found → NoDeadline found) (key : Key) :
    (Storage.look key).Keeps k J fun answer => key = k → ∃ found, J found ∧
      ((found = none ∧ answer = .absent) ∨
        ∃ entry now, found = some entry ∧ answer = .live entry now) := by
  refine keeps_atomic_read (fun _ _ => rfl) fun now found hfound hkey => ?_
  refine ⟨found, hfound hkey, ?_⟩
  rw [found_of_noDeadline (hJ found (hfound hkey))]
  cases found with
  | none => exact .inl ⟨rfl, rfl⟩
  | some entry => exact .inr ⟨entry, now, rfl, rfl⟩

theorem keeps_remove {key : Key} (h : key ≠ k) :
    (Storage.remove key).Keeps k J fun _ => True :=
  keeps_atomic_ne h fun _ _ => trivial

/-- A purge is never of a key whose entry does not expire. -/
theorem ne_of_look_expired {key : Key} (h : key = k → ∃ found, J found ∧
    ((found = none ∧ Storage.Found.expired = .absent) ∨
      ∃ entry now, found = some entry ∧ Storage.Found.expired = .live entry now)) : key ≠ k := by
  intro hkey
  obtain ⟨found, _, ⟨_, hno⟩ | ⟨entry, now, _, hno⟩⟩ := h hkey
  · contradiction
  · contradiction

/-! ## Reading operations -/

/-- `get` leaves the key alone and answers the value it has. -/
theorem keeps_get (hJ : ∀ found, J found → NoDeadline found) (key : Key) :
    (Storage.get key).Keeps k J fun value =>
      key = k → ∃ found, J found ∧ value = found.map Entry.value := by
  refine keeps_bind (keeps_look hJ key) fun answer hanswer => ?_
  cases answer with
  | expired =>
      have hne := ne_of_look_expired hanswer
      exact keeps_bind (keeps_remove hne) fun _ _ => keeps_pure fun hkey => absurd hkey hne
  | live entry now =>
      refine keeps_pure fun hkey => ?_
      obtain ⟨found, hfound, ⟨_, hno⟩ | ⟨entry', now', hentry, heq⟩⟩ := hanswer hkey
      · contradiction
      · obtain ⟨rfl, _⟩ := Storage.Found.live.inj heq
        exact ⟨found, hfound, by rw [hentry]; rfl⟩
  | absent =>
      refine keeps_pure fun hkey => ?_
      obtain ⟨found, hfound, ⟨hnone, _⟩ | ⟨entry', now', _, heq⟩⟩ := hanswer hkey
      · exact ⟨found, hfound, by rw [hnone]; rfl⟩
      · contradiction

theorem keeps_ttl (hJ : ∀ found, J found → NoDeadline found) (key : Key) :
    (Storage.ttl key).Keeps k J fun _ => True := by
  refine keeps_bind (keeps_look hJ key) fun answer hanswer => ?_
  cases answer with
  | expired =>
      exact keeps_bind (keeps_remove (ne_of_look_expired hanswer)) fun _ _ => keeps_pure trivial
  | live entry now => cases hexp : entry.expiresAt <;> simp only [hexp] <;> exact keeps_pure trivial
  | absent => exact keeps_pure trivial

theorem keeps_mget (hJ : ∀ found, J found → NoDeadline found) (keys : List Key) :
    (Storage.mget keys).Keeps k J fun _ => True := by
  induction keys with
  | nil => exact keeps_pure trivial
  | cons key keys ih =>
      exact keeps_bind (keeps_get hJ key) fun _ _ => keeps_bind ih fun _ _ => keeps_pure trivial

theorem keeps_countExists (hJ : ∀ found, J found → NoDeadline found) (keys : List Key) :
    (countExists keys).Keeps k J fun _ => True := by
  induction keys with
  | nil => exact keeps_pure trivial
  | cons key keys ih =>
      have hexists : (Storage.existsKey key).Keeps k J fun _ => True :=
        keeps_bind (keeps_get hJ key) fun _ _ => keeps_pure trivial
      exact keeps_bind hexists fun _ _ => keeps_bind ih fun _ _ => keeps_pure trivial

/-- **A reading command leaves alone an entry that never expires.** -/
theorem keeps_call_of_reads (hJ : ∀ found, J found → NoDeadline found) {c : StorageCommand}
    (h : c.Reads) : (c.call : StorageCall (CommandResult F)).Keeps k J fun _ => True := by
  cases c with
  | get key => exact keeps_bind (keeps_get hJ key) fun _ _ => keeps_pure trivial
  | mget keys =>
      cases keys with
      | nil => exact keeps_pure trivial
      | cons key keys =>
          exact keeps_bind (keeps_mget hJ (key :: keys)) fun _ _ => keeps_pure trivial
  | existsKeys keys =>
      cases keys with
      | nil => exact keeps_pure trivial
      | cons key keys =>
          exact keeps_bind (keeps_countExists hJ (key :: keys)) fun _ _ => keeps_pure trivial
  | ttl key => exact keeps_bind (keeps_ttl hJ key) fun _ _ => keeps_pure trivial
  | _ => exact h.elim

/-! ## Operations on other keys -/

theorem keeps_look_ne {key : Key} (h : key ≠ k) : (Storage.look key).Keeps k J fun _ => True :=
  keeps_atomic_ne h fun _ _ => trivial

theorem keeps_set_ne {key : Key} (h : key ≠ k) (value : List UInt8) :
    (Storage.set key value).Keeps k J fun _ => True :=
  keeps_atomic_ne h fun _ _ => trivial

theorem keeps_delKey_ne {key : Key} (h : key ≠ k) :
    (Storage.delKey key).Keeps k J fun _ => True := by
  refine keeps_bind (keeps_look_ne h) fun answer _ => ?_
  cases answer <;> exact keeps_bind (keeps_remove h) fun _ _ => keeps_pure trivial

theorem keeps_del_ne {keys : List Key} (h : k ∉ keys) :
    (Storage.del keys).Keeps k J fun _ => True := by
  induction keys with
  | nil => exact keeps_pure trivial
  | cons key keys ih =>
      obtain ⟨hkey, hkeys⟩ := List.ne_and_not_mem_of_not_mem_cons h
      exact keeps_bind (keeps_delKey_ne (Ne.symm hkey)) fun _ _ =>
        keeps_bind (ih hkeys) fun _ _ => keeps_pure trivial

theorem keeps_mset_ne {pairs : List (Key × List UInt8)} (h : k ∉ pairs.map Prod.fst) :
    (Storage.mset pairs).Keeps k J fun _ => True := by
  induction pairs with
  | nil => exact keeps_pure trivial
  | cons pair pairs ih =>
      obtain ⟨hkey, hkeys⟩ := List.ne_and_not_mem_of_not_mem_cons h
      exact keeps_bind (keeps_set_ne (Ne.symm hkey) pair.2) fun _ _ => ih hkeys

theorem keeps_expire_ne {key : Key} (h : key ≠ k) (secs : Nat) :
    (Storage.expire key secs).Keeps k J fun _ => True := by
  refine keeps_bind (P := fun _ => True) (fun _ => trivial) fun now _ => ?_
  split
  · exact keeps_pure trivial
  · next expiry hadd =>
      refine keeps_bind (keeps_atomic_ne (P := fun _ => True) h fun _ _ => trivial)
        fun answer _ => ?_
      cases answer with
      | some answer => exact keeps_pure trivial
      | none => exact keeps_bind (keeps_remove h) fun _ _ => keeps_pure trivial

theorem keeps_incrBy_ne {key : Key} (h : key ≠ k) (delta : Int64) :
    (Storage.incrBy key delta).Keeps k J fun _ => True :=
  keeps_atomic_ne h fun _ _ => trivial

theorem keeps_expireCommand_ne {key : Key} (h : key ≠ k) (text : List UInt8) :
    (RalphDb.expire [key, text] : StorageCall (CommandResult F)).Keeps k J fun _ => True := by
  have hdel : k ∉ [key] := by simpa using Ne.symm h
  rw [RalphDb.expire]
  split
  · exact keeps_pure trivial
  · split
    · exact keeps_bind (keeps_del_ne hdel) fun _ _ => keeps_pure trivial
    · exact keeps_bind (keeps_expire_ne h _) fun _ _ => keeps_pure trivial

/-- **A command that does not name a key leaves it alone.** -/
theorem keeps_call_of_not_mem (hJ : ∀ found, J found → NoDeadline found) {c : StorageCommand}
    (h : k ∉ c.keys) : (c.call : StorageCall (CommandResult F)).Keeps k J fun _ => True := by
  cases c with
  | set key value =>
      have hne : key ≠ k := fun heq => h (by rw [heq]; exact List.mem_singleton_self k)
      exact keeps_bind (keeps_set_ne hne value) fun _ _ => keeps_pure trivial
  | del keys =>
      cases keys with
      | nil => exact keeps_pure trivial
      | cons key keys => exact keeps_bind (keeps_del_ne h) fun _ _ => keeps_pure trivial
  | incr key =>
      have hne : key ≠ k := fun heq => h (by rw [heq]; exact List.mem_singleton_self k)
      exact keeps_bind (keeps_incrBy_ne hne 1) fun _ _ => keeps_pure trivial
  | decr key =>
      have hne : key ≠ k := fun heq => h (by rw [heq]; exact List.mem_singleton_self k)
      exact keeps_bind (keeps_incrBy_ne hne (-1)) fun _ _ => keeps_pure trivial
  | mset pairs =>
      cases pairs with
      | nil => exact keeps_pure trivial
      | cons pair pairs =>
          rw [StorageCommand.call_mset (List.cons_ne_nil pair pairs)]
          exact keeps_bind (keeps_mset_ne h) fun _ _ => keeps_pure trivial
  | expire key text =>
      have hne : key ≠ k := fun heq => h (by rw [heq]; exact List.mem_singleton_self k)
      exact keeps_expireCommand_ne hne text
  | get key => exact keeps_call_of_reads hJ trivial
  | existsKeys keys => exact keeps_call_of_reads hJ trivial
  | mget keys => exact keeps_call_of_reads hJ trivial
  | ttl key => exact keeps_call_of_reads hJ trivial

end Keeps

/-! ## Reading where nothing expires -/

section Observes

variable {V : Key → Option Entry → Prop}

/-- The value of some entry in `V`. -/
def ReadFrom (V : Key → Option Entry → Prop) (key : Key) (value : Option (List UInt8)) : Prop :=
  ∃ found, V key found ∧ value = found.map Entry.value

/-- The answer of a look that has found an entry in `V`. -/
def SeenIn (V : Key → Option Entry → Prop) (key : Key) : Storage.Found → Prop
  | .absent => V key none
  | .live entry _ => V key (some entry)
  | .expired => False

theorem observes_look (hV : ∀ key found, V key found → NoDeadline found) (key : Key) :
    (Storage.look key).Observes V (SeenIn V key) := by
  refine observes_atomic (fun _ _ => rfl) fun now found hfound => ?_
  rw [found_of_noDeadline (hV key found hfound)]
  cases found <;> exact hfound

theorem observes_get (hV : ∀ key found, V key found → NoDeadline found) (key : Key) :
    (Storage.get key).Observes V (ReadFrom V key) := by
  refine observes_bind (observes_look hV key) fun answer hanswer => ?_
  cases answer with
  | absent => exact observes_pure ⟨none, hanswer, rfl⟩
  | live entry now => exact observes_pure ⟨some entry, hanswer, rfl⟩
  | expired => exact hanswer.elim

theorem observes_ttl (hV : ∀ key found, V key found → NoDeadline found) (key : Key) :
    (Storage.ttl key).Observes V fun _ => True := by
  refine observes_bind (observes_look hV key) fun answer hanswer => ?_
  cases answer with
  | absent => exact observes_pure trivial
  | live entry now =>
      cases hexp : entry.expiresAt <;> simp only [hexp] <;> exact observes_pure trivial
  | expired => exact hanswer.elim

theorem observes_mget (hV : ∀ key found, V key found → NoDeadline found) (keys : List Key) :
    (Storage.mget keys).Observes V (List.Forall₂ (ReadFrom V) keys) := by
  induction keys with
  | nil => exact observes_pure .nil
  | cons key keys ih =>
      exact observes_bind (observes_get hV key) fun value hvalue =>
        observes_bind ih fun values hvalues => observes_pure (.cons hvalue hvalues)

theorem observes_countExists (hV : ∀ key found, V key found → NoDeadline found)
    (keys : List Key) : (countExists keys).Observes V fun _ => True := by
  induction keys with
  | nil => exact observes_pure trivial
  | cons key keys ih =>
      have hexists : (Storage.existsKey key).Observes V fun _ => True :=
        observes_bind (observes_get hV key) fun _ _ => observes_pure trivial
      exact observes_bind hexists fun _ _ => observes_bind ih fun _ _ => observes_pure trivial

/-- **A reading command changes nothing where nothing expires.** -/
theorem observes_call_of_reads (hV : ∀ key found, V key found → NoDeadline found)
    {c : StorageCommand} (h : c.Reads) :
    (c.call : StorageCall (CommandResult F)).Observes V fun _ => True := by
  cases c with
  | get key => exact observes_bind (observes_get hV key) fun _ _ => observes_pure trivial
  | mget keys =>
      cases keys with
      | nil => exact observes_pure trivial
      | cons key keys =>
          exact observes_bind (observes_mget hV (key :: keys)) fun _ _ => observes_pure trivial
  | existsKeys keys =>
      cases keys with
      | nil => exact observes_pure trivial
      | cons key keys =>
          exact observes_bind (observes_countExists hV (key :: keys)) fun _ _ =>
            observes_pure trivial
  | ttl key => exact observes_bind (observes_ttl hV key) fun _ _ => observes_pure trivial
  | _ => exact h.elim

end Observes

end RalphDb
