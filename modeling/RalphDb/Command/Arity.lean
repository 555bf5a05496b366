import RalphDb.Command.Failure

/-!
# RalphDb.Command.Arity

Arguments beyond those that a command gives a meaning to.

Every handler of a command with a fixed number of arguments tests that number
itself, and with one exception it refuses a longer list before it does anything
(`execute_extras`).  The exception is `SET`: its test has only a lower bound, so
the options after the value are dropped and the key is set unconditionally
(`runOn_set_extras`).
-/

namespace RalphDb

open Base
open Base.Call

variable {F : Type}

/-- A command of a fixed arity, with the longest list of arguments that it
gives a meaning to.  The subcommands of `CLIENT` are read in any case. -/
inductive Longest : Command → Prop
  | one {name : String} {arg : List UInt8}
      (fixed : name ∈ ["PING", "ECHO", "HELLO", "INFO", "GET", "INCR", "DECR", "TTL"]) :
      Longest ⟨name, [arg]⟩
  | two {name : String} {first second : List UInt8} (fixed : name ∈ ["SET", "EXPIRE", "CONFIG"]) :
      Longest ⟨name, [first, second]⟩
  | clientSetname {subcommand name : List UInt8}
      (fixed : toAsciiUppercase (fromUtf8Lossy subcommand) = "SETNAME") :
      Longest ⟨"CLIENT", [subcommand, name]⟩
  | client {subcommand : List UInt8}
      (fixed : toAsciiUppercase (fromUtf8Lossy subcommand) ∈ ["GETNAME", "LIST", "ID"]) :
      Longest ⟨"CLIENT", [subcommand]⟩

/-- The command with further arguments. -/
def Command.extended (command : Command) (extras : List (List UInt8)) : Command :=
  { command with args := command.args ++ extras }

/-- The command is answered with an error; the store and the connection are
what they were. -/
def Declined (F : Type) (env : Environment) (command : Command) (state : ConnectionState)
    (clock : Nat → Instant) (ticks : Nat) (storage : DashMap) : Prop :=
  let answer := (execute env command state :
    StorageCall (CommandResult F × ConnectionState)).runOn clock ticks storage
  answer.1.1.Failed ∧ answer.1.2 = state ∧ answer.2.2 = storage

section Extras

variable {command : Command} {extras : List (List UInt8)}

/-- Any other command refuses further arguments before it does anything. -/
theorem execute_extras (h : Longest command) (hset : command.name ≠ "SET") (hne : extras ≠ [])
    (env : Environment) (state : ConnectionState) :
    ∃ message, execute env (command.extended extras) state =
      (pure (.error message, state) : StorageCall (CommandResult F × ConnectionState)) := by
  obtain ⟨extra, extras, rfl⟩ := List.exists_cons_of_ne_nil hne
  cases h with
  | one fixed =>
      simp only [List.mem_cons, List.not_mem_nil, or_false] at fixed
      rcases fixed with rfl | rfl | rfl | rfl | rfl | rfl | rfl | rfl <;> exact ⟨_, rfl⟩
  | two fixed =>
      simp only [List.mem_cons, List.not_mem_nil, or_false] at fixed
      rcases fixed with rfl | rfl | rfl
      · contradiction
      · exact ⟨_, rfl⟩
      · exact ⟨_, rfl⟩
  | @clientSetname subcommand name fixed =>
      have hclient : client (subcommand :: name :: extra :: extras) state =
          ((.error "ERR wrong number of arguments for 'client setname'", state) :
            CommandResult F × ConnectionState) := by
        simp [client, fixed, clientSetname]
      exact ⟨_, congrArg pure hclient⟩
  | @client subcommand fixed =>
      have hclient : ∃ message, client (subcommand :: extra :: extras) state =
          ((.error message, state) : CommandResult F × ConnectionState) := by
        simp only [List.mem_cons, List.not_mem_nil, or_false] at fixed
        rcases fixed with fixed | fixed | fixed <;> simp [client, fixed, clientList, clientId]
      obtain ⟨message, hclient⟩ := hclient
      exact ⟨message, congrArg pure hclient⟩

theorem longest_set (h : Longest command) (hset : command.name = "SET") :
    ∃ key value, command = ⟨"SET", [key, value]⟩ := by
  cases h with
  | one fixed =>
      obtain rfl : _ = "SET" := hset
      simp at fixed
  | two fixed =>
      obtain rfl : _ = "SET" := hset
      exact ⟨_, _, rfl⟩
  | clientSetname fixed => simp at hset
  | client fixed => simp at hset

/-- `SET` sets the key, whatever follows the value. -/
theorem runOn_set_extras (env : Environment) (key value : List UInt8)
    (extras : List (List UInt8)) (state : ConnectionState) (clock : Nat → Instant) (ticks : Nat)
    (storage : DashMap) :
    (execute env ⟨"SET", key :: value :: extras⟩ state :
        StorageCall (CommandResult F × ConnectionState)).runOn clock ticks storage =
      ((.ok (.simpleString "OK"), state), ticks + 1,
        Function.update storage key (some (Entry.new value))) := rfl

/-- **Exactly which commands refuse further arguments**: all but `SET`. -/
theorem declined_extras_iff (h : Longest command) (hne : extras ≠ []) (env : Environment)
    (state : ConnectionState) (clock : Nat → Instant) (ticks : Nat) (storage : DashMap) :
    Declined F env (command.extended extras) state clock ticks storage ↔ command.name ≠ "SET" := by
  constructor
  · rintro ⟨⟨message, hfailed⟩, -⟩ hset
    obtain ⟨key, value, rfl⟩ := longest_set h hset
    have hrun := runOn_set_extras (F := F) env key value extras state clock ticks storage
    rw [Command.extended, List.cons_append, List.singleton_append, hrun] at hfailed
    contradiction
  · intro hset
    obtain ⟨message, hrefused⟩ := execute_extras (F := F) h hset hne env state
    rw [Declined, hrefused]
    exact ⟨⟨message, rfl⟩, rfl, rfl⟩

end Extras

/-- `NX`: only set a key that does not exist. -/
def onlyIfAbsent : List UInt8 := [0x4E, 0x58]

/-- `SET k v NX` overwrites the key. -/
theorem set_overwrites :
    (execute ⟨none, none, none, none⟩ ⟨"SET", [[0x6B], [0x76], onlyIfAbsent]⟩ (.fresh 7) :
        StorageCall (CommandResult WholeDouble × _)).runOn (fun _ => Instant.origin) 0
          wordStorage =
      ((.ok (.simpleString "OK"), .fresh 7), 1,
        Function.update wordStorage [0x6B] (some (Entry.new [0x76]))) ∧
    ¬ ∀ (command : Command) (extras : List (List UInt8)), Longest command → extras ≠ [] →
      ∀ env state clock ticks storage,
        Declined WholeDouble env (command.extended extras) state clock ticks storage := by
  constructor
  · rfl
  · intro h
    obtain ⟨⟨message, hfailed⟩, -⟩ := h ⟨"SET", [[0x6B], [0x76]]⟩ [onlyIfAbsent] (.two (by decide))
      (by decide) ⟨none, none, none, none⟩ (.fresh 7) (fun _ => Instant.origin) 0 wordStorage
    contradiction

theorem declined_extras_get :
    Declined WholeDouble ⟨none, none, none, none⟩ ⟨"GET", [[0x6B], [0x76]]⟩ (.fresh 7)
      (fun _ => Instant.origin) 0 wordStorage := by
  have hget : Longest ⟨"GET", [[0x6B]]⟩ := .one (by decide)
  have hne : [[0x76]] ≠ ([] : List (List UInt8)) := by decide
  exact (declined_extras_iff hget hne _ _ _ _ _).mpr (by decide)

end RalphDb
