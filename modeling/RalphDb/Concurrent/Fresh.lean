import RalphDb.Base.Moment
import RalphDb.Command.Expiry
import RalphDb.Concurrent.Keeps

/-!
# RalphDb.Concurrent.Fresh

Replies are true of a moment of their call.

With deadlines passing and other clients between its accesses, a reading command
still answers what the reference store would have answered at one moment while
it was under way: its look decides, and the removal of an expired entry comes
after it.  So a reader is never given a value that had expired, or been
overwritten, before its call began.  `MGET` looks at its keys one by one, and
each of its values has a moment of its own (`values_fresh`).
-/

namespace RalphDb

open Base
open Base.Call

variable {F ι : Type}

/-- The commands whose answer one access decides. -/
def StorageCommand.Glances : StorageCommand → Prop
  | .get _ => True
  | .existsKeys keys => keys.length = 1
  | .incr _ => True
  | .decr _ => True
  | .ttl _ => True
  | _ => False

/-! ## Operations -/

theorem dated_look (key : Key) :
    (Storage.look key).Dated fun found now m => found = .of now (m key) :=
  dated_atomic fun _ _ => rfl

theorem dated_get (key : Key) :
    (Storage.get key).Dated fun value now m => value = Reference.value key (visible now m) := by
  refine dated_bind (dated_look key) fun found now m heq => ?_
  obtain ⟨hfound, _, hvis⟩ | ⟨hfound, hvis⟩ | ⟨entry, hfound, _, hvis⟩ := found_cases now m key
  · rw [heq, hfound]
    exact upholds_pure (by simp [Reference.value, hvis])
  · rw [heq, hfound]
    exact upholds_bind (upholds_any _) fun _ _ => upholds_pure (by simp [Reference.value, hvis])
  · rw [heq, hfound]
    exact upholds_pure (by simp [Reference.value, hvis])

theorem dated_ttl (key : Key) :
    (Storage.ttl key).Dated fun value now m =>
      value = Reference.remaining key now (visible now m) := by
  refine dated_bind (dated_look key) fun found now m heq => ?_
  obtain ⟨hfound, _, hvis⟩ | ⟨hfound, hvis⟩ | ⟨entry, hfound, _, hvis⟩ := found_cases now m key
  · rw [heq, hfound]
    exact upholds_pure (by simp [Reference.remaining, hvis])
  · rw [heq, hfound]
    exact upholds_bind (upholds_any _) fun _ _ => upholds_pure (by simp [Reference.remaining, hvis])
  · rw [heq, hfound]
    cases hexp : entry.expiresAt <;> simp only [hexp] <;>
      exact upholds_pure (by simp [Reference.remaining, hvis, hexp])

theorem dated_incrBy (key : Key) (delta : Int64) :
    (Storage.incrBy key delta).Dated fun value now m =>
      value = (Reference.adjust key delta (visible now m)).1 :=
  dated_atomic fun now m =>
    congrArg Prod.fst ((refines_incrBy key delta : Refines now _ _) m)

/-- Each value of `mget` is decided by the look at its key. -/
theorem dated_mget {keys : List Key} {j : Nat} {key : Key} (h : keys[j]? = some key) :
    (Storage.mget keys).Dated fun values now m =>
      values[j]? = some (Reference.value key (visible now m)) := by
  induction keys generalizing j with
  | nil => simp at h
  | cons key' keys ih =>
      cases j with
      | zero =>
          obtain rfl : key' = key := by simpa using h
          refine dated_bind (dated_get key') fun value now m heq => ?_
          refine upholds_bind (upholds_any _) fun values _ => upholds_pure ?_
          simp [heq]
      | succ j =>
          have hrest := ih (j := j) (by simpa using h)
          refine dated_bind_of_forall _ fun value => dated_bind hrest fun values now m heq => ?_
          exact upholds_pure (by simpa using heq)

/-! ## Commands -/

/-- The answer to a glance is the reference's at its access. -/
theorem dated_call {c : StorageCommand} (h : c.Glances) :
    (c.call : StorageCall (CommandResult F)).Dated fun result now m =>
      result = (Reference.step now c (visible now m)).1 := by
  cases c with
  | get key =>
      exact dated_bind (dated_get key) fun _ _ _ heq => upholds_pure (by rw [heq]; rfl)
  | existsKeys keys =>
      match keys, h with
      | [key], _ =>
          refine dated_bind (Q := fun count now m =>
            count = [key].countP fun key => (visible now m key).isSome) ?_
            fun _ _ _ heq => upholds_pure (by rw [heq]; rfl)
          refine dated_bind (dated_bind (dated_get key) fun value now m heq =>
            upholds_pure (P := fun found => found = (visible now m key).isSome)
              (by simp [heq, Reference.value])) fun found now m heq => upholds_pure ?_
          simp [heq]
  | incr key =>
      exact dated_bind (dated_incrBy key 1) fun _ _ _ heq => upholds_pure (by rw [heq]; rfl)
  | decr key =>
      exact dated_bind (dated_incrBy key (-1)) fun _ _ _ heq => upholds_pure (by rw [heq]; rfl)
  | ttl key =>
      exact dated_bind (dated_ttl key) fun _ _ _ heq => upholds_pure (by rw [heq]; rfl)
  | _ => exact h.elim

theorem dated_mgetCommand {keys : List Key} {j : Nat} {key : Key} (h : keys[j]? = some key) :
    ((StorageCommand.mget keys).call : StorageCall (CommandResult F)).Dated fun result now m =>
      ∃ values, result.response = .array (some values) ∧
        values[j]? = some (valueFrame (Reference.value key (visible now m))) := by
  match keys, h with
  | key' :: keys, h =>
      refine dated_bind (dated_mget h) fun values now m heq => upholds_pure ?_
      exact ⟨_, rfl, by simp [heq]⟩

/-- **Replies are true of a moment of their call.**  Whatever the clients, their
commands, the deadlines and the interleaving: the reply to a command that one
access decides is the reference store's at a moment at which the command was
under way, and so is each value that `MGET` answers. -/
theorem values_fresh [DecidableEq ι] (m : DashMap) (t : Instant)
    (program : ι → List StorageCommand) (schedule : List (Action ι Instant))
    {r : StorageReply ι F}
    (hr : r ∈ ((World.start m t program).run StorageCommand.call schedule).replies) :
    (r.command.Glances →
      World.Moment StorageCommand.call (World.start m t program) schedule r fun now shared =>
        r.result = (Reference.step now r.command (visible now shared)).1) ∧
      ∀ (keys : List Key) (j : Nat) (key : Key), r.command = .mget keys → keys[j]? = some key →
        World.Moment StorageCommand.call (World.start m t program) schedule r fun now shared =>
          ∃ values, r.result.response = .array (some values) ∧
            values[j]? = some (valueFrame (Reference.value key (visible now shared))) := by
  constructor
  · intro hglances
    exact World.dated_reply (dated_call hglances) m t program schedule hr rfl
  · intro keys j key hcommand hkey
    exact World.dated_reply (dated_mgetCommand hkey) m t program schedule hr hcommand

/-- A key that has expired is read by one client and set by the other. -/
def readExpired : Clients Bool WholeDouble :=
  World.start (fun _ => some ⟨[0x75], some .origin⟩) .origin fun i =>
    if i then [.get [0x6B]] else [.set [0x6B] [0x76]]

/-- The key is set between the look of the reader and its removal. -/
def setBetween : List (Action Bool Instant) :=
  [.turn true, .turn true, .turn false, .turn false, .turn true]

theorem values_fresh_setBetween :
    World.Moment StorageCommand.call readExpired setBetween
      ⟨true, .get [0x6B], 0, .ok .null⟩ fun now shared =>
        (.ok .null : CommandResult WholeDouble) =
          (Reference.step now (.get [0x6B]) (visible now shared)).1 :=
  (values_fresh _ _ _ setBetween (.tail _ (.head _))).1 trivial

end RalphDb
