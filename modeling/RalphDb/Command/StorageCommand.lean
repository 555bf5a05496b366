import RalphDb.Command.Execute

/-!
# RalphDb.Command.StorageCommand

The commands that act on the store, as data.

`toCommand` spells one as the command a client sends and `call` is the call on
the store that `execute` dispatches it to (`execute_toCommand`).  Of the commands
a client may send, `Command.stored` finds the storage command; the others
`execute` answers without the store (`execute_of_stored`, `execute_of_not_stored`).
-/

namespace RalphDb

open Base

variable {F : Type}

/-- A storage command with its arguments.  The seconds of `expire` are the text
that was sent. -/
inductive StorageCommand
  | set (key : Key) (value : List UInt8)
  | get (key : Key)
  | del (keys : List Key)
  | existsKeys (keys : List Key)
  | incr (key : Key)
  | decr (key : Key)
  | mget (keys : List Key)
  | mset (pairs : List (Key × List UInt8))
  | expire (key : Key) (seconds : List UInt8)
  | ttl (key : Key)
  deriving DecidableEq

namespace StorageCommand

def name : StorageCommand → String
  | .set _ _ => "SET"
  | .get _ => "GET"
  | .del _ => "DEL"
  | .existsKeys _ => "EXISTS"
  | .incr _ => "INCR"
  | .decr _ => "DECR"
  | .mget _ => "MGET"
  | .mset _ => "MSET"
  | .expire _ _ => "EXPIRE"
  | .ttl _ => "TTL"

def args : StorageCommand → List (List UInt8)
  | .set key value => [key, value]
  | .get key => [key]
  | .del keys => keys
  | .existsKeys keys => keys
  | .incr key => [key]
  | .decr key => [key]
  | .mget keys => keys
  | .mset pairs => pairs.flatMap fun pair => [pair.1, pair.2]
  | .expire key seconds => [key, seconds]
  | .ttl key => [key]

def toCommand (c : StorageCommand) : Command := ⟨c.name, c.args⟩

/-- The call on the store. -/
def call (c : StorageCommand) : StorageCall (CommandResult F) :=
  match c with
  | .set _ _ => RalphDb.set c.args
  | .get _ => RalphDb.get c.args
  | .del _ => RalphDb.del c.args
  | .existsKeys _ => existsCommand c.args
  | .incr _ => RalphDb.incr c.args
  | .decr _ => RalphDb.decr c.args
  | .mget _ => RalphDb.mget c.args
  | .mset _ => RalphDb.mset c.args
  | .expire _ _ => RalphDb.expire c.args
  | .ttl _ => RalphDb.ttl c.args

/-- The keys a command names. -/
def keys : StorageCommand → List Key
  | .set key _ => [key]
  | .get key => [key]
  | .del keys => keys
  | .existsKeys keys => keys
  | .incr key => [key]
  | .decr key => [key]
  | .mget keys => keys
  | .mset pairs => pairs.map Prod.fst
  | .expire key _ => [key]
  | .ttl key => [key]

/-- **Dispatch**: `execute` runs the call and leaves the connection alone. -/
theorem execute_toCommand (env : Environment) (c : StorageCommand) (state : ConnectionState) :
    (execute env c.toCommand state : StorageCall (CommandResult F × ConnectionState)) =
      onStorage state c.call := by
  cases c <;> rfl

theorem chunkPairs_flatMap (pairs : List (Key × List UInt8)) :
    chunkPairs (pairs.flatMap fun pair => [pair.1, pair.2]) = pairs := by
  induction pairs with
  | nil => rfl
  | cons pair pairs ih => simp [chunkPairs, ih]

theorem length_flatMap_pairs (pairs : List (Key × List UInt8)) :
    (pairs.flatMap fun pair => [pair.1, pair.2]).length = 2 * pairs.length := by
  induction pairs with
  | nil => rfl
  | cons pair pairs ih =>
      simp only [List.flatMap_cons, List.length_append, List.length_cons, List.length_nil, ih]
      omega

/-- `MSET` of some pairs stores them. -/
theorem call_mset {pairs : List (Key × List UInt8)} (h : pairs ≠ []) :
    ((StorageCommand.mset pairs).call : StorageCall (CommandResult F)) =
      (Storage.mset pairs >>= fun _ => pure (.ok (.simpleString "OK"))) := by
  have hargs : (pairs.flatMap fun pair => [pair.1, pair.2]) ≠ [] := by
    cases pairs with
    | nil => exact absurd rfl h
    | cons pair pairs => simp
  have heven : ¬ (pairs.flatMap fun pair => [pair.1, pair.2]).length % 2 ≠ 0 := by
    rw [length_flatMap_pairs]
    omega
  show RalphDb.mset (pairs.flatMap fun pair => [pair.1, pair.2]) = _
  rw [RalphDb.mset, if_neg hargs, if_neg heven, chunkPairs_flatMap]

end StorageCommand

/-! ## Dispatch of any command -/

/-- The storage command that a command is, if it has the arguments it needs. -/
def Command.stored (command : Command) : Option StorageCommand :=
  match command.name with
  | "SET" =>
      match command.args with
      | key :: value :: _ => some (.set key value)
      | _ => none
  | "GET" =>
      match command.args with
      | [key] => some (.get key)
      | _ => none
  | "DEL" => if command.args = [] then none else some (.del command.args)
  | "EXISTS" => if command.args = [] then none else some (.existsKeys command.args)
  | "INCR" =>
      match command.args with
      | [key] => some (.incr key)
      | _ => none
  | "DECR" =>
      match command.args with
      | [key] => some (.decr key)
      | _ => none
  | "MGET" => if command.args = [] then none else some (.mget command.args)
  | "MSET" =>
      if command.args = [] ∨ command.args.length % 2 ≠ 0 then none
      else some (.mset (chunkPairs command.args))
  | "EXPIRE" =>
      match command.args with
      | [key, seconds] => some (.expire key seconds)
      | _ => none
  | "TTL" =>
      match command.args with
      | [key] => some (.ttl key)
      | _ => none
  | _ => none

theorem flatMap_chunkPairs : ∀ {args : List (List UInt8)}, args.length % 2 = 0 →
    ((chunkPairs args).flatMap fun pair => [pair.1, pair.2]) = args
  | [], _ => rfl
  | [_], h => by contradiction
  | key :: value :: args, h => by
      rw [List.length_cons, List.length_cons] at h
      have hrest : args.length % 2 = 0 := by omega
      rw [chunkPairs, List.flatMap_cons, flatMap_chunkPairs hrest]
      rfl

section Dispatch

variable {env : Environment} {command : Command} {state : ConnectionState}

/-- A storage command is dispatched to its call. -/
theorem execute_of_stored {c : StorageCommand} (h : command.stored = some c) :
    (execute env command state : StorageCall (CommandResult F × ConnectionState)) =
      onStorage state c.call := by
  obtain ⟨name, args⟩ := command
  unfold Command.stored at h
  split at h
  case h_1 hname =>
      obtain rfl : name = "SET" := hname
      match args, h with
      | key :: value :: _, h => rw [← Option.some.inj h]; rfl
  case h_2 hname =>
      obtain rfl : name = "GET" := hname
      match args, h with
      | [key], h => rw [← Option.some.inj h]; rfl
  case h_3 hname =>
      obtain rfl : name = "DEL" := hname
      split at h
      · contradiction
      · rw [← Option.some.inj h]
        rfl
  case h_4 hname =>
      obtain rfl : name = "EXISTS" := hname
      split at h
      · contradiction
      · rw [← Option.some.inj h]
        rfl
  case h_5 hname =>
      obtain rfl : name = "INCR" := hname
      match args, h with
      | [key], h => rw [← Option.some.inj h]; rfl
  case h_6 hname =>
      obtain rfl : name = "DECR" := hname
      match args, h with
      | [key], h => rw [← Option.some.inj h]; rfl
  case h_7 hname =>
      obtain rfl : name = "MGET" := hname
      split at h
      · contradiction
      · rw [← Option.some.inj h]
        rfl
  case h_8 hname =>
      obtain rfl : name = "MSET" := hname
      split at h
      · contradiction
      · next hargs =>
          have heven : args.length % 2 = 0 := by
            simp only [not_or, Decidable.not_not] at hargs
            exact hargs.2
          rw [← Option.some.inj h]
          show onStorage state (RalphDb.mset args) = onStorage state
            (RalphDb.mset ((chunkPairs args).flatMap fun pair => [pair.1, pair.2]))
          rw [flatMap_chunkPairs heven]
  case h_9 hname =>
      obtain rfl : name = "EXPIRE" := hname
      match args, h with
      | [key, seconds], h => rw [← Option.some.inj h]; rfl
  case h_10 hname =>
      obtain rfl : name = "TTL" := hname
      match args, h with
      | [key], h => rw [← Option.some.inj h]; rfl
  case h_11 => contradiction

/-- Any other command is answered without the store. -/
theorem execute_of_not_stored (h : command.stored = none) :
    ∃ answer, (execute env command state : StorageCall (CommandResult F × ConnectionState)) =
      pure answer := by
  obtain ⟨name, args⟩ := command
  unfold execute
  split
  case h_8 hname =>
      obtain rfl : name = "SET" := hname
      match args, h with
      | [], _ => exact ⟨_, rfl⟩
      | [_], _ => exact ⟨_, rfl⟩
  case h_9 hname =>
      obtain rfl : name = "GET" := hname
      match args, h with
      | [], _ => exact ⟨_, rfl⟩
      | _ :: _ :: _, _ => exact ⟨_, rfl⟩
  case h_10 hname =>
      obtain rfl : name = "DEL" := hname
      match args, h with
      | [], _ => exact ⟨_, rfl⟩
  case h_11 hname =>
      obtain rfl : name = "EXISTS" := hname
      match args, h with
      | [], _ => exact ⟨_, rfl⟩
  case h_12 hname =>
      obtain rfl : name = "INCR" := hname
      match args, h with
      | [], _ => exact ⟨_, rfl⟩
      | _ :: _ :: _, _ => exact ⟨_, rfl⟩
  case h_13 hname =>
      obtain rfl : name = "DECR" := hname
      match args, h with
      | [], _ => exact ⟨_, rfl⟩
      | _ :: _ :: _, _ => exact ⟨_, rfl⟩
  case h_14 hname =>
      obtain rfl : name = "MGET" := hname
      match args, h with
      | [], _ => exact ⟨_, rfl⟩
  case h_15 hname =>
      obtain rfl : name = "MSET" := hname
      by_cases hargs : args = []
      · subst hargs
        exact ⟨_, rfl⟩
      · by_cases hodd : args.length % 2 ≠ 0
        · refine ⟨(.error "ERR wrong number of arguments for 'mset'", state), ?_⟩
          show onStorage state (RalphDb.mset args) = _
          rw [RalphDb.mset, if_neg hargs, if_pos hodd]
          rfl
        · have hnone : Command.stored ⟨"MSET", args⟩ = some (.mset (chunkPairs args)) :=
            if_neg (not_or.mpr ⟨hargs, hodd⟩)
          rw [hnone] at h
          contradiction
  case h_16 hname =>
      obtain rfl : name = "EXPIRE" := hname
      match args, h with
      | [], _ => exact ⟨_, rfl⟩
      | [_], _ => exact ⟨_, rfl⟩
      | _ :: _ :: _ :: _, _ => exact ⟨_, rfl⟩
  case h_17 hname =>
      obtain rfl : name = "TTL" := hname
      match args, h with
      | [], _ => exact ⟨_, rfl⟩
      | _ :: _ :: _, _ => exact ⟨_, rfl⟩
  all_goals exact ⟨_, rfl⟩

end Dispatch

end RalphDb
