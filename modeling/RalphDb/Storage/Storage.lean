import RalphDb.Base.Call
import RalphDb.Base.Text
import RalphDb.Base.Decimal

/-!
# RalphDb.Storage.Storage

The key-value store.

Every operation of `Storage` is a call on the concurrent map, cut where the
source takes and drops its guards: what happens under one guard is one access,
and the removal of an expired entry is an access of its own, after the guard of
the look is gone.  Clock readings under one guard are one reading.
-/

namespace RalphDb

open Base

/-! ## Instants -/

/-- The clock counts nanoseconds, and its seconds are an `i64`. -/
def nanosPerSecond : Nat := 10 ^ 9
def instantLimit : Nat := 2 ^ 63 * nanosPerSecond

/-- A point of the monotonic clock, in nanoseconds. -/
abbrev Instant : Type := Fin instantLimit

/-- The instant the clock counts from. -/
def Instant.origin : Instant := ⟨0, by decide⟩

/-- `Instant::checked_add` of whole seconds. -/
def Instant.checkedAdd (t : Instant) (secs : Nat) : Option Instant :=
  if h : nanosPerSecond * secs + t.val < instantLimit then
    some ⟨nanosPerSecond * secs + t.val, h⟩
  else none

/-- The whole seconds of `saturating_duration_since`. -/
def Instant.secondsUntil (expiry now : Instant) : Nat := (expiry.val - now.val) / nanosPerSecond

/-! ## Entries -/

abbrev Key : Type := List UInt8

structure Entry where
  value : List UInt8
  expiresAt : Option Instant
  deriving DecidableEq

def Entry.new (value : List UInt8) : Entry := ⟨value, none⟩

def Entry.expired (entry : Entry) (now : Instant) : Bool :=
  match entry.expiresAt with
  | some expiry => expiry ≤ now
  | none => false

/-- The number a counter holds; an absent one holds 0. -/
def counterValue (found : Option Entry) : Option Int64 :=
  match found with
  | none => some 0
  | some entry => (fromUtf8 entry.value).bind parseI64

inductive StorageError
  | invalidInteger
  | integerOutOfRange
  deriving DecidableEq, Repr

/-- The contents of the store. -/
abbrev DashMap : Type := SharedMap Key Entry

/-- A call on the store. -/
abbrev StorageCall (α : Type) : Type := Call Key Entry Instant α

namespace Storage

/-! ## Accesses -/

/-- What a look at a key finds under its guard. -/
inductive Found
  | absent
  | expired
  | live (entry : Entry) (now : Instant)

def Found.of (now : Instant) : Option Entry → Found
  | none => .absent
  | some entry => if entry.expired now then .expired else .live entry now

/-- `get` of the map, and the test of `expired` before the guard is dropped. -/
def look (key : Key) : StorageCall Found := .atomic key fun now found => (.of now found, found)

def insert (key : Key) (entry : Entry) : StorageCall Unit :=
  .atomic key fun _ _ => ((), some entry)

/-- Remove a key, whatever it holds by now, and answer what it held. -/
def remove (key : Key) : StorageCall (Option Entry) :=
  .atomic key fun _ found => (found, none)

/-! ## Operations -/

def set (key : Key) (value : List UInt8) : StorageCall Unit := insert key (Entry.new value)

def get (key : Key) : StorageCall (Option (List UInt8)) := do
  match ← look key with
  | .expired => do
      let _ ← remove key
      pure none
  | .live entry _ => pure (some entry.value)
  | .absent => pure none

/-- One key of `del`: the number of keys it counts. -/
def delKey (key : Key) : StorageCall Nat := do
  match ← look key with
  | .expired => do
      let _ ← remove key
      pure 0
  | _ => do
      let removed ← remove key
      pure (if removed.isSome then 1 else 0)

def del : List Key → StorageCall Nat
  | [] => pure 0
  | key :: keys => do
      let counted ← delKey key
      let count ← del keys
      pure (counted + count)

/-- `exists`. -/
def existsKey (key : Key) : StorageCall Bool := do
  let found ← get key
  pure found.isSome

/-- The access of `expire`: `none` when the entry is expired. -/
def expireEntry (expiry now : Instant) (found : Option Entry) : Option Bool × Option Entry :=
  match found with
  | some entry =>
      if entry.expired now then (none, some entry)
      else (some true, some { entry with expiresAt := some expiry })
  | none => (some false, none)

def expire (key : Key) (secs : Nat) : StorageCall Bool := do
  let now ← .readClock
  match Instant.checkedAdd now secs with
  | none => pure false
  | some expiry => do
      let answer ← .atomic key (expireEntry expiry)
      match answer with
      | some answer => pure answer
      | none => do
          let _ ← remove key
          pure false

def ttl (key : Key) : StorageCall Int64 := do
  match ← look key with
  | .expired => do
      let _ ← remove key
      pure (-2)
  | .live entry now =>
      match entry.expiresAt with
      | some expiry => pure (Int64.ofNat (Instant.secondsUntil expiry now))
      | none => pure (-1)
  | .absent => pure (-2)

/-- The entry that `incr_by` counts in: a fresh one for an absent or an expired
key. -/
def counterEntry (now : Instant) (found : Option Entry) : Entry :=
  let entry := found.getD (Entry.new (utf8 "0"))
  if entry.expired now then { entry with value := utf8 "0", expiresAt := none } else entry

/-- The access of `incr_by`: its entry guard is held to the end. -/
def incrEntry (delta : Int64) (now : Instant) (found : Option Entry) :
    Except StorageError Int64 × Option Entry :=
  let entry := counterEntry now found
  match (fromUtf8 entry.value).bind parseI64 with
  | none => (.error .invalidInteger, some entry)
  | some current =>
      match checkedAdd current delta with
      | none => (.error .integerOutOfRange, some entry)
      | some updated => (.ok updated, some { entry with value := utf8 (toString updated.toInt) })

def incrBy (key : Key) (delta : Int64) : StorageCall (Except StorageError Int64) :=
  .atomic key (incrEntry delta)

def incr (key : Key) : StorageCall (Except StorageError Int64) := incrBy key 1

def decr (key : Key) : StorageCall (Except StorageError Int64) := incrBy key (-1)

def mget : List Key → StorageCall (List (Option (List UInt8)))
  | [] => pure []
  | key :: keys => do
      let value ← get key
      let values ← mget keys
      pure (value :: values)

def mset : List (Key × List UInt8) → StorageCall Unit
  | [] => pure ()
  | (key, value) :: pairs => do
      set key value
      mset pairs

end Storage

end RalphDb
