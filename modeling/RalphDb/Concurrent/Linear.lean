import RalphDb.Base.Linear
import RalphDb.Command.Expiry
import RalphDb.Concurrent.Keeps
import Mathlib.Order.Fin.Basic

/-!
# RalphDb.Concurrent.Linear

Commands on one key are linearizable.

As long as no deadline passes, a look finds what is stored, and a command on one
key takes effect at one access: at the look, where it only reads; at the
removal, for `DEL`; at its one access otherwise.  There it does what it does
alone and in one piece (`atomically_call`), and that is what the reference store
does (`refines_call`).

Commands on several keys are not atomic, and a passing deadline lets a reader
remove what was stored after its look; neither is promised here.
-/

namespace RalphDb

open Base
open Base.Call
open Function

variable {F ι : Type} {last : Instant}

/-- A command on at most one key that sets no deadline. -/
def StorageCommand.Atomic : StorageCommand → Prop
  | .set _ _ => True
  | .get _ => True
  | .del keys => keys.length ≤ 1
  | .existsKeys keys => keys.length ≤ 1
  | .incr _ => True
  | .decr _ => True
  | .mget keys => keys.length ≤ 1
  | .mset pairs => pairs.length ≤ 1
  | .expire _ text => ∀ seconds, (fromUtf8 text).bind parseI64 = some seconds → seconds ≤ 0
  | .ttl _ => True

/-- The entry, if there is one, does not expire up to the instant `last`. -/
def Lasting (last : Instant) (found : Option Entry) : Prop :=
  ∀ entry, found = some entry → entry.expired last = false

theorem lasting_none : Lasting last none := fun _ h => by contradiction

/-- What has not expired by `last` has not expired before. -/
theorem expired_of_le {entry : Entry} {now : Instant} (hle : now ≤ last)
    (h : entry.expired last = false) : entry.expired now = false := by
  cases hnow : entry.expired now with
  | false => rfl
  | true => rw [← h, expired_mono hle hnow]

/-- A look finds a lasting entry as it is. -/
theorem found_of_lasting {found : Option Entry} {now : Instant} (hle : now ≤ last)
    (h : Lasting last found) :
    (found = none ∧ Storage.Found.of now found = .absent) ∨
      ∃ entry, found = some entry ∧ Storage.Found.of now found = .live entry now := by
  cases found with
  | none => exact .inl ⟨rfl, rfl⟩
  | some entry =>
      have hlive : entry.expired now = false := expired_of_le hle (h entry rfl)
      exact .inr ⟨entry, rfl, by simp [Storage.Found.of, hlive]⟩

/-- A counter lasts as long as the entry it counts in. -/
theorem lasting_incrEntry {delta : Int64} {now : Instant} {found : Option Entry}
    (h : Lasting last found) : Lasting last (Storage.incrEntry delta now found).2 := by
  have hcounter : (Storage.counterEntry now found).expired last = false := by
    unfold Storage.counterEntry
    cases found with
    | none => simp [Entry.new, Entry.expired]
    | some entry =>
        simp only [Option.getD_some]
        split
        · simp [Entry.expired]
        · exact h entry rfl
  have hvalue : ∀ value, Entry.expired { Storage.counterEntry now found with value := value } last
      = false := fun _ => hcounter
  intro entry hentry
  unfold Storage.incrEntry at hentry
  simp only at hentry
  split at hentry
  · rw [← Option.some.inj hentry]
    exact hcounter
  · split at hentry
    · rw [← Option.some.inj hentry]
      exact hcounter
    · rw [← Option.some.inj hentry]
      exact hvalue _

/-! ## Linearization points -/

/-- The call takes effect at one access, as it does alone and in one piece. -/
def Atomically {α : Type} (last : Instant) (x : StorageCall α) : Prop :=
  x.Linearizes last (fun _ => Lasting last) fun t m => x.runAt t m

section Points

variable {α β : Type}

theorem atomically_pure (a : α) : Atomically last (pure a : StorageCall α) :=
  linearizes_pure fun _ _ => rfl

/-- A look after which nothing happens. -/
theorem atomically_look {key : Key} {g : Storage.Found → StorageCall β}
    (habsent : ∃ b, g .absent = pure b) (hlive : ∀ entry now, ∃ b, g (.live entry now) = pure b) :
    Atomically last (Storage.look key >>= g) := by
  refine linearizes_effect_bind fun now found hnow hfound => ⟨hfound, ?_⟩
  obtain ⟨_, heq⟩ | ⟨entry, _, heq⟩ := found_of_lasting hnow hfound
  · show ∃ b, g (Storage.Found.of now found) = pure b
    rw [heq]
    exact habsent
  · show ∃ b, g (Storage.Found.of now found) = pure b
    rw [heq]
    exact hlive entry now

theorem atomically_get (key : Key) (f : Option (List UInt8) → β) :
    Atomically last (Storage.get key >>= fun value => pure (f value)) := by
  rw [Storage.get, bind_assoc]
  exact atomically_look ⟨_, rfl⟩ fun _ _ => ⟨_, rfl⟩

theorem atomically_ttl (key : Key) (f : Int64 → β) :
    Atomically last (Storage.ttl key >>= fun value => pure (f value)) := by
  rw [Storage.ttl, bind_assoc]
  refine atomically_look ⟨_, rfl⟩ fun entry now => ?_
  cases hexp : entry.expiresAt <;> simp only [hexp] <;> exact ⟨_, rfl⟩

theorem atomically_set (key : Key) (value : List UInt8) (b : β) :
    Atomically last (Storage.set key value >>= fun _ => pure b) := by
  refine linearizes_effect_bind fun _ _ _ _ => ⟨fun entry hentry => ?_, _, rfl⟩
  rw [← Option.some.inj hentry]
  rfl

theorem atomically_incrBy (key : Key) (delta : Int64) (f : Except StorageError Int64 → β) :
    Atomically last (Storage.incrBy key delta >>= fun value => pure (f value)) :=
  linearizes_effect_bind fun _ _ _ hfound => ⟨lasting_incrEntry hfound, _, rfl⟩

/-- What `del` does with a key after its look. -/
def delFound (key : Key) : Storage.Found → StorageCall Nat
  | .expired => do
      let _ ← Storage.remove key
      pure 0
  | _ => do
      let removed ← Storage.remove key
      pure (if removed.isSome then 1 else 0)

theorem delKey_eq (key : Key) : Storage.delKey key = Storage.look key >>= delFound key := rfl

/-- A lasting entry is removed and counted. -/
theorem delFound_of_lasting {found : Option Entry} {now : Instant} (hle : now ≤ last)
    (h : Lasting last found) (key : Key) : delFound key (Storage.Found.of now found) =
      Storage.remove key >>= fun removed => pure (if removed.isSome then 1 else 0) := by
  obtain ⟨_, heq⟩ | ⟨entry, _, heq⟩ := found_of_lasting hle h
  · rw [heq]
    rfl
  · rw [heq]
    rfl

theorem runAt_look_bind (key : Key) (g : Storage.Found → StorageCall β) (t : Instant)
    (m : DashMap) : (Storage.look key >>= g).runAt t m =
      (g (Storage.Found.of t (m key))).runAt t m := by
  rw [runAt_bind, Storage.look, runAt_atomic, update_eq_self]

/-- The look of `DEL` changes nothing; its removal is the effect. -/
theorem atomically_del (key : Key) (f : Nat → β) :
    Atomically last (Storage.del [key] >>= fun count => pure (f count)) := by
  have hdel : Storage.del [key] >>= (fun count => (pure (f count) : StorageCall β)) =
      Storage.look key >>= fun found => delFound key found >>= fun counted => pure (f counted) := by
    simp only [Storage.del, delKey_eq, bind_assoc]
    rfl
  have hremove : Atomically last (Storage.remove key >>= fun removed =>
      (pure (f (if removed.isSome then 1 else 0)) : StorageCall β)) :=
    linearizes_effect_bind fun _ _ _ _ => ⟨lasting_none, _, rfl⟩
  rw [Atomically, hdel]
  refine linearizes_read_bind (fun _ _ => rfl) fun now found hnow hfound => ?_
  show Linearizes last _ _ (delFound key (Storage.Found.of now found) >>= _)
  rw [delFound_of_lasting hnow hfound, bind_assoc]
  refine hremove.congr fun t m _ _ ht hm _ hrun => ?_
  rw [runAt_look_bind, delFound_of_lasting ht (hm key), bind_assoc]
  exact hrun

end Points

/-! ## Commands -/

theorem atomically_expire {key : Key} {text : List UInt8}
    (h : (StorageCommand.expire key text).Atomic) :
    Atomically last (RalphDb.expire [key, text] : StorageCall (CommandResult F)) := by
  rw [RalphDb.expire]
  split
  · exact atomically_pure _
  · next seconds hseconds =>
      rw [if_pos (h seconds hseconds)]
      exact atomically_del key _

/-- A list of at most one element. -/
theorem nil_or_singleton {α : Type} {l : List α} (h : l.length ≤ 1) : l = [] ∨ ∃ a, l = [a] := by
  cases l with
  | nil => exact .inl rfl
  | cons a l =>
      have hnil : l = [] := by simpa using h
      exact .inr ⟨a, by rw [hnil]⟩

/-- **A command on one key takes effect at one access.** -/
theorem atomically_call {c : StorageCommand} (h : c.Atomic) :
    Atomically last (c.call : StorageCall (CommandResult F)) := by
  cases c with
  | set key value => exact atomically_set key value _
  | get key => exact atomically_get key _
  | del keys =>
      obtain rfl | ⟨key, rfl⟩ := nil_or_singleton h
      · exact atomically_pure _
      · exact atomically_del key _
  | existsKeys keys =>
      obtain rfl | ⟨key, rfl⟩ := nil_or_singleton h
      · exact atomically_pure _
      · have hexists : (StorageCommand.existsKeys [key]).call =
            Storage.get key >>= fun value => (pure (.ok (.integer (Int64.ofNat
              ((if value.isSome then 1 else 0) + 0)))) : StorageCall (CommandResult F)) := by
          simp only [StorageCommand.call, StorageCommand.args, existsCommand, countExists,
            Storage.existsKey, bind_assoc]
          rfl
        rw [hexists]
        exact atomically_get key _
  | incr key => exact atomically_incrBy key 1 _
  | decr key => exact atomically_incrBy key (-1) _
  | mget keys =>
      obtain rfl | ⟨key, rfl⟩ := nil_or_singleton h
      · exact atomically_pure _
      · have hmget : (StorageCommand.mget [key]).call = Storage.get key >>= fun value =>
            (pure (.ok (.array (some [valueFrame value]))) : StorageCall (CommandResult F)) := by
          simp only [StorageCommand.call, StorageCommand.args, RalphDb.mget, Storage.mget,
            bind_assoc]
          rfl
        rw [hmget]
        exact atomically_get key _
  | mset pairs =>
      obtain rfl | ⟨⟨key, value⟩, rfl⟩ := nil_or_singleton h
      · exact atomically_pure _
      · have hmset : Storage.mset [(key, value)] =
            Storage.set key value >>= fun _ => pure () := rfl
        rw [StorageCommand.call_mset (List.cons_ne_nil _ _), hmset, bind_assoc]
        exact atomically_set key value _
  | expire key text => exact atomically_expire h
  | ttl key => exact atomically_ttl key _

/-- Where nothing expires, everything is visible. -/
theorem visible_of_lasting {now : Instant} {m : DashMap} (hle : now ≤ last)
    (h : ∀ key, Lasting last (m key)) : visible now m = m := by
  funext key
  cases hm : m key with
  | none => simp [visible, hm]
  | some entry =>
      have hlive : entry.expired now = false := expired_of_le hle (h key entry hm)
      simp [visible, hm, Option.filter_some, hlive]

/-- The reference store as a specification. -/
def referenceSpec : Spec Key Entry Instant StorageCommand (CommandResult F) :=
  fun c t ref => Reference.step t c ref

/-- A command on one key does at one access what it does to the reference. -/
theorem linearizes_call {c : StorageCommand} (h : c.Atomic) :
    (c.call : StorageCall (CommandResult F)).Linearizes last (fun _ => Lasting last)
      (referenceSpec c) := by
  refine (atomically_call h).congr fun t m a m' ht hm hm' hrun => ?_
  have hrefines : _ = Reference.step t c (visible t m) :=
    (refines_call c : Refines t (c.call : StorageCall (CommandResult F)) _) m
  rw [hrun, visible_of_lasting ht hm, visible_of_lasting ht hm'] at hrefines
  exact hrefines.symm

/-- **Commands on one key are linearizable.**  Whatever the clients, their
commands and the interleaving, as long as no deadline has passed: the calls that
have taken effect form a run of the reference store that ends in the stored
map, gives every reply, and puts no call before one that had replied when it
began. -/
theorem commands_linearizable [DecidableEq ι] {m : DashMap} {t : Instant}
    {program : ι → List StorageCommand} {w : Clients ι F}
    (hprogram : ∀ i, ∀ c ∈ program i, c.Atomic)
    (hw : (World.start m t program).Reaches StorageCommand.call w)
    (hm : ∀ key, Lasting w.clock (m key)) :
    ∃ effects pending, w.Linearization referenceSpec t m effects pending :=
  linearizable (V := fun _ => Lasting w.clock) hm
    (fun i c hc => linearizes_call (hprogram i c hc)) hw (le_refl _)

/-- One client deletes a key that the other sets and reads. -/
def setAndDelete : Clients Bool WholeDouble :=
  World.start (fun _ => none) .origin fun i =>
    if i then [.set [0x6B] [0x76], .get [0x6B]] else [.del [[0x6B]]]

/-- The deletion begins before the key is set and removes it afterwards. -/
theorem commands_linearizable_setAndDelete : ∃ effects pending,
    (setAndDelete.run StorageCommand.call [.turn false, .turn true, .turn false, .turn true,
      .turn true, .turn false, .turn true]).Linearization referenceSpec .origin (fun _ => none)
        effects pending := by
  refine commands_linearizable (fun i c hc => ?_) ⟨_, rfl⟩ fun _ => lasting_none
  cases i with
  | true =>
      obtain rfl | rfl : c = .set [0x6B] [0x76] ∨ c = .get [0x6B] := by simpa using hc
      · exact trivial
      · exact trivial
  | false =>
      obtain rfl : c = .del [[0x6B]] := by simpa using hc
      exact Nat.le_refl 1

end RalphDb
