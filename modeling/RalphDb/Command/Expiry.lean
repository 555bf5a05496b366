import RalphDb.Command.StorageCommand
import RalphDb.Storage.Reference

/-!
# RalphDb.Command.Expiry

Lazy expiry is invisible.

Expired entries linger in the store until an operation meets them.  A client
cannot tell: over any run of storage commands with non-decreasing clock
readings, every reply is that of a reference store in which an entry is present
exactly until its deadline, and after every command the reference is the
unexpired part of the store (`storageRun_eq_referenceRun`).

Each command refines the reference at one reading (`refines_call`); the run
lemma carries `ref = visible now m` from one command to the next.
-/

namespace RalphDb

open Base

variable {F : Type}

/-! ## The reference semantics -/

namespace Reference

/-- Remove a key; the answer is 1 when it was present. -/
def expireNow (key : Key) (ref : Reference) : CommandResult F × Reference :=
  (.ok (.integer (if (ref key).isSome then 1 else 0)), erase [key] ref)

/-- The reply to a command at `now`, and the store after it.  A command that
takes keys asks for at least one. -/
def step (now : Instant) (c : StorageCommand) (ref : Reference) : CommandResult F × Reference :=
  match c with
  | .set key value => (.ok (.simpleString "OK"), store [(key, value)] ref)
  | .get key => (.ok (valueFrame (value key ref)), ref)
  | .del [] => (.error "ERR wrong number of arguments for 'del'", ref)
  | .del keys => (.ok (.integer (Int64.ofNat (countDistinct keys ref))), erase keys ref)
  | .existsKeys [] => (.error "ERR wrong number of arguments for 'exists'", ref)
  | .existsKeys keys =>
      (.ok (.integer (Int64.ofNat (keys.countP fun key => (ref key).isSome))), ref)
  | .incr key => (counterResult (adjust key 1 ref).1, (adjust key 1 ref).2)
  | .decr key => (counterResult (adjust key (-1) ref).1, (adjust key (-1) ref).2)
  | .mget [] => (.error "ERR wrong number of arguments for 'mget'", ref)
  | .mget keys => (.ok (.array (some (keys.map fun key => valueFrame (value key ref)))), ref)
  | .mset [] => (.error "ERR wrong number of arguments for 'mset'", ref)
  | .mset pairs => (.ok (.simpleString "OK"), store pairs ref)
  | .expire key text =>
      match (fromUtf8 text).bind parseI64 with
      | none => (.error "ERR value is not an integer or out of range", ref)
      | some seconds =>
          if seconds ≤ 0 then expireNow key ref
          else
            (.ok (.integer (if (setDeadline key now seconds.toNatClampNeg ref).1 then 1 else 0)),
              (setDeadline key now seconds.toNatClampNeg ref).2)
  | .ttl key => (.ok (.integer (remaining key now ref)), ref)

end Reference

/-! ## One command -/

section Commands

variable {now : Instant}

theorem refines_countExists (keys : List Key) :
    Refines now (countExists keys) fun ref => (keys.countP fun key => (ref key).isSome, ref) := by
  induction keys with
  | nil => exact refines_pure 0
  | cons key keys ih =>
      have hrun := refines_bind (refines_existsKey key) fun found =>
        refines_map ((if found then 1 else 0) + ·) ih
      refine hrun.congr fun ref => ?_
      rw [List.countP_cons, Nat.add_comm]

/-- Removing one key counts it or not. -/
theorem countDistinct_singleton (key : Key) (ref : Reference) :
    Reference.countDistinct [key] ref = if (ref key).isSome then 1 else 0 := by
  rw [countDistinct_cons]
  simp [Reference.countDistinct]

theorem refines_expireNow (key : Key) :
    Refines now
      (Storage.del [key] >>= fun deleted =>
        pure (CommandResult.ok (.integer (if deleted > 0 then 1 else 0)) : CommandResult F))
      (Reference.expireNow key) := by
  refine (refines_map (fun deleted => CommandResult.ok (.integer (if deleted > 0 then 1 else 0)))
    (refines_del [key])).congr fun ref => ?_
  rw [countDistinct_singleton]
  cases hsome : (ref key).isSome <;> simp [Reference.expireNow, hsome]

theorem refines_expireCommand (key : Key) (text : List UInt8) :
    Refines now (RalphDb.expire [key, text] : StorageCall (CommandResult F))
      (Reference.step now (.expire key text)) := by
  rw [RalphDb.expire]
  cases hparse : (fromUtf8 text).bind parseI64 with
  | none =>
      have hrun : Refines now (pure (CommandResult.error
          "ERR value is not an integer or out of range") : StorageCall (CommandResult F)) _ :=
        refines_pure _
      exact hrun.congr fun ref => by simp [Reference.step, hparse]
  | some seconds =>
      by_cases hle : seconds ≤ 0
      · simp only [if_pos hle]
        exact (refines_expireNow key).congr fun ref => by simp [Reference.step, hparse, hle]
      · have hpos : 0 < seconds.toNatClampNeg := by
          have hlt : 0 < seconds.toInt := by
            rw [Int64.le_iff_toInt_le, Int64.toInt_zero] at hle
            omega
          have hnat : seconds.toNatClampNeg = seconds.toInt.toNat := rfl
          omega
        simp only [if_neg hle]
        refine (refines_map (fun updated => CommandResult.ok (.integer (if updated then 1 else 0)))
          (refines_expire key hpos)).congr fun ref => ?_
        simp [Reference.step, hparse, hle]

/-- **Every command refines the reference**, at any clock reading. -/
theorem refines_call (c : StorageCommand) :
    Refines now (c.call : StorageCall (CommandResult F)) (Reference.step now c) := by
  cases c with
  | set key value =>
      exact refines_map (fun _ => CommandResult.ok (.simpleString "OK")) (refines_set key value)
  | get key =>
      exact refines_map (fun value => CommandResult.ok (valueFrame value)) (refines_get key)
  | del keys =>
      cases keys with
      | nil => exact refines_pure _
      | cons key keys =>
          exact refines_map (fun count => CommandResult.ok (.integer (Int64.ofNat count)))
            (refines_del (key :: keys))
  | existsKeys keys =>
      cases keys with
      | nil => exact refines_pure _
      | cons key keys =>
          exact refines_map (fun count => CommandResult.ok (.integer (Int64.ofNat count)))
            (refines_countExists (key :: keys))
  | incr key => exact refines_map counterResult (refines_incrBy key 1)
  | decr key => exact refines_map counterResult (refines_incrBy key (-1))
  | mget keys =>
      cases keys with
      | nil => exact refines_pure _
      | cons key keys =>
          refine (refines_map
            (fun values => CommandResult.ok (.array (some (values.map valueFrame))))
            (refines_mget (key :: keys))).congr fun ref => ?_
          simp [Reference.step, Function.comp_def]
  | mset pairs =>
      cases pairs with
      | nil => exact refines_pure _
      | cons pair pairs =>
          rw [StorageCommand.call_mset (List.cons_ne_nil pair pairs)]
          exact refines_map (fun _ => CommandResult.ok (.simpleString "OK"))
            (refines_mset (pair :: pairs))
  | expire key text => exact refines_expireCommand key text
  | ttl key => exact refines_map (fun value => CommandResult.ok (.integer value)) (refines_ttl key)

end Commands

/-! ## A run of commands -/

/-- Run the commands through `execute`, each at its own clock reading: the
results, and the unexpired entries after each command. -/
def storageRun (env : Environment) :
    List (Instant × StorageCommand) → ConnectionState → DashMap →
      List (CommandResult F × Reference)
  | [], _, _ => []
  | (now, c) :: run, state, m =>
      let ((result, state), m) := (execute env c.toCommand state).runAt now m
      (result, visible now m) :: storageRun env run state m

/-- The same on the reference: entries leave it at their deadline, then the
command runs. -/
def referenceRun : List (Instant × StorageCommand) → Reference → List (CommandResult F × Reference)
  | [], _ => []
  | (now, c) :: run, ref =>
      let (result, ref) := Reference.step now c (visible now ref)
      (result, ref) :: referenceRun run ref

/-- The run from any store, whose unexpired part at an earlier instant is the
reference. -/
theorem storageRun_eq (env : Environment) (run : List (Instant × StorageCommand))
    (state : ConnectionState) {t : Instant} (m : DashMap)
    (h : (t :: run.map Prod.fst).Pairwise (· ≤ ·)) :
    (storageRun env run state m : List (CommandResult F × Reference)) =
      referenceRun run (visible t m) := by
  induction run generalizing t m with
  | nil => rfl
  | cons entry run ih =>
      obtain ⟨now, c⟩ := entry
      obtain ⟨hle, htail⟩ := List.pairwise_cons.mp h
      have hnow : t ≤ now := hle now List.mem_cons_self
      have hcall : ((c.call.runAt now m).1, visible now (c.call.runAt now m).2) =
          (Reference.step now c (visible now m) : CommandResult F × Reference) := refines_call c m
      rw [referenceRun, visible_visible hnow, ← hcall, storageRun,
        StorageCommand.execute_toCommand, onStorage, Call.runAt_bind]
      exact congrArg _ (ih _ htail)

/-- **Lazy expiry is invisible.**  From an empty store, with non-decreasing
clock readings, every result is the reference's, and after every command the
reference is the unexpired part of the store. -/
theorem storageRun_eq_referenceRun (env : Environment) (state : ConnectionState)
    (run : List (Instant × StorageCommand)) (h : (run.map Prod.fst).Pairwise (· ≤ ·)) :
    (storageRun env run state (fun _ => none) : List (CommandResult F × Reference)) =
      referenceRun run (fun _ => none) := by
  have hzero : 0 < instantLimit := by decide
  have hall : ((⟨0, hzero⟩ : Instant) :: run.map Prod.fst).Pairwise (· ≤ ·) :=
    List.pairwise_cons.mpr ⟨fun t _ => Nat.zero_le t.val, h⟩
  exact storageRun_eq env run state (fun _ => none) hall

/-- A key that expires between two looks, and a deletion that names it twice. -/
def expiringRun : List (Instant × StorageCommand) :=
  [ (.origin, .set [0x6B] [0x35]),
    (⟨1, by decide⟩, .expire [0x6B] [0x31]),
    (⟨1, by decide⟩, .incr [0x6B]),
    (⟨10 ^ 9, by decide⟩, .ttl [0x6B]),
    (⟨10 ^ 9 + 1, by decide⟩, .del [[0x6B], [0x6B]]) ]

theorem storageRun_expiringRun :
    (storageRun ⟨none, none, none, none⟩ expiringRun (.fresh 1) (fun _ => none) :
      List (CommandResult WholeDouble × Reference)) =
      referenceRun expiringRun (fun _ => none) :=
  storageRun_eq_referenceRun _ _ expiringRun (by decide)

end RalphDb
