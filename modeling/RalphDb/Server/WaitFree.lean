import RalphDb.Base.Bounded
import RalphDb.Protocol.Stream
import RalphDb.Server.Server

/-!
# RalphDb.Server.WaitFree

How long a connection takes.

A storage command makes at most two accesses for each of its arguments
(`bounded_call`), and every argument costs the client two bytes, so a connection
makes no more accesses than it sends bytes (`bounded_connectionCall`).  No access
waits for another connection.  Whatever the server does in between, a connection
that a thread has taken is therefore answered after as many turns of that thread
as it has bytes, and one (`serve_wait_free`).
-/

namespace RalphDb

open Base
open Base.Call

variable {F : Type}

/-! ## Storage operations -/

section Storage

theorem bounded_get (key : Key) : (Storage.get key).Bounded 2 := by
  refine bounded_bind (n := 1) (bounded_atomic key _) fun found => ?_
  cases found with
  | absent => exact bounded_pure 1 _
  | expired => exact bounded_bind_pure (bounded_atomic key _) _
  | live entry now => exact bounded_pure 1 _

theorem bounded_ttl (key : Key) : (Storage.ttl key).Bounded 2 := by
  refine bounded_bind (n := 1) (bounded_atomic key _) fun found => ?_
  cases found with
  | absent => exact bounded_pure 1 _
  | expired => exact bounded_bind_pure (bounded_atomic key _) _
  | live entry now => cases hexp : entry.expiresAt <;> simp only [hexp] <;> exact bounded_pure 1 _

theorem bounded_delKey (key : Key) : (Storage.delKey key).Bounded 2 := by
  refine bounded_bind (n := 1) (bounded_atomic key _) fun found => ?_
  cases found <;> exact bounded_bind_pure (bounded_atomic key _) _

theorem bounded_del (keys : List Key) : (Storage.del keys).Bounded (2 * keys.length) := by
  induction keys with
  | nil => exact bounded_pure _ _
  | cons key keys ih =>
      rw [List.length_cons, Nat.mul_succ, Nat.add_comm]
      exact bounded_bind (bounded_delKey key) fun _ => bounded_bind_pure ih _

theorem bounded_countExists (keys : List Key) : (countExists keys).Bounded (2 * keys.length) := by
  induction keys with
  | nil => exact bounded_pure _ _
  | cons key keys ih =>
      rw [List.length_cons, Nat.mul_succ, Nat.add_comm]
      exact bounded_bind (bounded_bind_pure (bounded_get key) _) fun _ => bounded_bind_pure ih _

theorem bounded_mget (keys : List Key) : (Storage.mget keys).Bounded (2 * keys.length) := by
  induction keys with
  | nil => exact bounded_pure _ _
  | cons key keys ih =>
      rw [List.length_cons, Nat.mul_succ, Nat.add_comm]
      exact bounded_bind (bounded_get key) fun _ => bounded_bind_pure ih _

theorem bounded_mset (pairs : List (Key × List UInt8)) :
    (Storage.mset pairs).Bounded pairs.length := by
  induction pairs with
  | nil => exact bounded_pure _ _
  | cons pair pairs ih =>
      rw [List.length_cons, Nat.add_comm]
      exact bounded_bind (bounded_atomic pair.1 _) fun _ => ih

/-- A reading of the clock, the access, and the removal of an expired entry. -/
theorem bounded_expire (key : Key) (secs : Nat) : (Storage.expire key secs).Bounded 3 := by
  refine bounded_bind (n := 2) bounded_readClock fun now => ?_
  split
  · exact bounded_pure 2 _
  · refine bounded_bind (n := 1) (bounded_atomic key _) fun answer => ?_
    cases answer with
    | some answer => exact bounded_pure 1 _
    | none => exact bounded_bind_pure (bounded_atomic key _) _

end Storage

/-! ## Commands -/

/-- The steps of a storage command, at most. -/
def StorageCommand.cost (c : StorageCommand) : Nat := 2 * c.args.length

/-- **A storage command takes two steps for each argument** at most. -/
theorem bounded_call (c : StorageCommand) :
    (c.call : StorageCall (CommandResult F)).Bounded c.cost := by
  cases c with
  | set key value => exact (bounded_bind_pure (bounded_atomic key _) _).mono (by decide : 1 ≤ 4)
  | get key => exact bounded_bind_pure (bounded_get key) _
  | del keys =>
      cases keys with
      | nil => exact bounded_pure _ _
      | cons key keys => exact bounded_bind_pure (bounded_del (key :: keys)) _
  | existsKeys keys =>
      cases keys with
      | nil => exact bounded_pure _ _
      | cons key keys => exact bounded_bind_pure (bounded_countExists (key :: keys)) _
  | incr key => exact (bounded_bind_pure (bounded_atomic key _) _).mono (by decide : 1 ≤ 2)
  | decr key => exact (bounded_bind_pure (bounded_atomic key _) _).mono (by decide : 1 ≤ 2)
  | mget keys =>
      cases keys with
      | nil => exact bounded_pure _ _
      | cons key keys => exact bounded_bind_pure (bounded_mget (key :: keys)) _
  | mset pairs =>
      cases pairs with
      | nil => exact bounded_pure _ _
      | cons pair pairs =>
          rw [StorageCommand.call_mset (List.cons_ne_nil pair pairs)]
          refine (bounded_bind_pure (bounded_mset (pair :: pairs)) _).mono ?_
          rw [StorageCommand.cost, StorageCommand.args, StorageCommand.length_flatMap_pairs]
          omega
  | expire key text =>
      show (RalphDb.expire [key, text] : StorageCall (CommandResult F)).Bounded 4
      rw [RalphDb.expire]
      cases (fromUtf8 text).bind parseI64 with
      | none => exact bounded_pure _ _
      | some seconds =>
          by_cases hle : seconds ≤ 0
          · simp only [if_pos hle]
            exact (bounded_bind_pure (bounded_del [key]) _).mono (by decide : 2 ≤ 4)
          · simp only [if_neg hle]
            exact (bounded_bind_pure (bounded_expire key _) _).mono (by decide : 3 ≤ 4)
  | ttl key => exact bounded_bind_pure (bounded_ttl key) _

/-! ## Connections -/

section Connection

theorem length_of_toArgs [F64 F] {protocol : ProtocolVersion} {frames : List (Frame F)}
    {args : List (List UInt8)} (h : toArgs protocol frames = .ok args) :
    args.length = frames.length := by
  induction frames generalizing args with
  | nil =>
      obtain rfl : [] = args := Except.ok.inj h
      rfl
  | cons frame frames ih =>
      unfold toArgs at h
      split at h
      · contradiction
      · split at h
        · contradiction
        · next hargs =>
            rw [← Except.ok.inj h, List.length_cons, List.length_cons, ih hargs]

/-- A command has fewer arguments than its frame has elements. -/
theorem length_args_lt [F64 F] {frame : Frame F} {protocol : ProtocolVersion} {command : Command}
    (h : Command.fromFrameWithProtocol frame protocol = .ok command) :
    command.args.length < frame.children.length := by
  unfold Command.fromFrameWithProtocol at h
  split at h
  · contradiction
  · split at h
    · contradiction
    · split at h
      · contradiction
      · next hargs =>
          rw [← Except.ok.inj h]
          show List.length _ < List.length (_ :: _)
          rw [length_of_toArgs hargs, List.length_cons]
          exact Nat.lt_succ_self _
  · contradiction

/-- The store is asked no more than what was sent. -/
theorem length_stored_le {command : Command} {c : StorageCommand} (h : command.stored = some c) :
    c.args.length ≤ command.args.length := by
  unfold Command.stored at h
  split at h
  case h_3 | h_4 | h_7 =>
      split at h
      · contradiction
      · rw [← Option.some.inj h]
        exact Nat.le_refl _
  case h_8 =>
      split at h
      · contradiction
      · next hargs =>
          rw [not_or, Decidable.not_not] at hargs
          rw [← Option.some.inj h, StorageCommand.args, flatMap_chunkPairs hargs.2]
  case h_11 => contradiction
  all_goals
      split at h
      · next hargs =>
          rw [← Option.some.inj h, hargs]
          simp [StorageCommand.args]
      · contradiction

/-- The steps that a list of rounds costs, at most. -/
def askedCost (ps : List (Planned F)) : Nat :=
  ((ps.filterMap Planned.asked).map StorageCommand.cost).sum

theorem askedCost_cons (p : Planned F) (ps : List (Planned F)) :
    askedCost (p :: ps) = askedCost [p] + askedCost ps := by
  cases hasked : p.asked <;> simp [askedCost, hasked]

/-- The rounds that are reached cost no more than all of them. -/
theorem askedCost_reached_le (socket : Socket) (ps : List (Planned F)) (n : Nat) :
    askedCost (reached socket ps n) ≤ askedCost ps := by
  induction ps generalizing n with
  | nil => exact Nat.le_refl _
  | cons p ps ih =>
      rw [reached, askedCost_cons, askedCost_cons p ps]
      refine Nat.add_le_add_left ?_ _
      split
      · exact ih (n + 1)
      · exact Nat.zero_le _

variable [F64 F] {env : Environment}

/-- A round costs no more than twice the frames inside its frame. -/
theorem askedCost_planFrame_le (env : Environment) (frame : Frame F) (state : ConnectionState) :
    askedCost [(planFrame env frame state).1] ≤ 2 * frame.children.length := by
  rw [planFrame]
  split
  · exact Nat.zero_le _
  · next command hparse =>
      split
      · next c hstored =>
          have hargs := length_args_lt hparse
          have hle := length_stored_le hstored
          show c.cost + 0 ≤ _
          rw [StorageCommand.cost]
          omega
      · exact Nat.zero_le _

/-- **A plan costs no more than its bytes.** -/
theorem askedCost_plan_le (reader : Reader) (state : ConnectionState) :
    askedCost (plan env reader state : List (Planned F)) ≤ reader.size := by
  induction hsize : reader.size using Nat.strong_induction_on generalizing reader state with
  | _ n ih =>
    rcases hrun : (decodeFrame : Read (Frame F)).run reader with ⟨err | frame, reader'⟩
    · rw [plan_error hrun]
      cases hends : endsLoop err with
      | true => exact Nat.zero_le _
      | false =>
          have hlt := size_lt_of_run hrun fun err' heq => by rw [← Except.error.inj heq, hends]
          have hle := ih _ (hsize ▸ hlt) reader' state rfl
          rw [if_neg Bool.false_ne_true]
          show askedCost (plan env reader' state) ≤ n
          omega
    · have hlt := size_lt_of_run hrun fun _ heq => by contradiction
      have htaken := size_children_le hrun
      have hround := askedCost_planFrame_le env frame state
      rw [plan_ok hrun, askedCost_cons]
      cases hnext : (planFrame env frame state).2 with
      | none =>
          show _ + 0 ≤ n
          omega
      | some state' =>
          have hle := ih _ (hsize ▸ hlt) reader' state' rfl
          show _ + askedCost (plan env reader' state') ≤ n
          omega

/-- **A connection takes no more steps than it has bytes.** -/
theorem bounded_connectionCall (job : Job) :
    (connectionCall env job : StorageCall (Transcript F)).Bounded job.reader.size := by
  rw [connectionCall_eq]
  refine (bounded_bind_pure (bounded_inOrder bounded_call _) _).mono ?_
  exact Nat.le_trans (askedCost_reached_le job.socket (job.plan env) 0) (askedCost_plan_le _ _)

end Connection

/-! ## The server -/

section Server

variable {threads : Nat} {s : Server threads F} {i : Fin threads} {job : Job} {floor n : Nat}

/-- The turns that a thread takes. -/
def turnsOf (i : Fin threads) : List (ServerAction threads) → Nat
  | [] => 0
  | .work (.turn j) :: actions => if j = i then turnsOf i actions + 1 else turnsOf i actions
  | _ :: actions => turnsOf i actions

/-- Thread `i` has answered the connection or does so in at most `n` turns. -/
def Due (i : Fin threads) (job : Job) (floor n : Nat) (s : Server threads F) : Prop :=
  s.workers.Due (fun job : Job => job.reader.size) i job floor n

theorem Due.handle (h : Due i job floor n s) (j : Fin threads) (stream : Stream) :
    Due i job floor n (s.handle j stream) := by
  rw [Server.handle]
  split
  · exact h
  · exact World.Due.assign h j _

variable [F64 F] {env : Environment}

/-- What the server does besides is no hindrance. -/
theorem Due.step (h : Due i job floor n s) {a : ServerAction threads}
    (ha : a ≠ .work (.turn i)) : Due i job floor n (s.step env a) := by
  cases a with
  | accept =>
      rw [Server.step, Server.accept]
      split <;> exact h
  | take j k =>
      rw [Server.step, Server.take]
      split
      · exact Due.handle (s := { s with queue := s.queue.eraseIdx k }) h j _
      · exact h
  | work a => exact World.Due.step_of_ne h fun heq => ha (by rw [heq])

/-- Whatever the server does, the turns of the thread count down. -/
theorem Due.steps (actions : List (ServerAction threads))
    (h : Due i job floor (n + turnsOf i actions) s) :
    Due i job floor n (actions.foldl (Server.step env) s) := by
  induction actions generalizing s with
  | nil => exact h
  | cons a actions ih =>
      refine ih ?_
      by_cases ha : a = .work (.turn i)
      · subst ha
        rw [turnsOf, if_pos rfl] at h
        exact World.Due.turn (bounded_connectionCall job) h
      · have hturns : turnsOf i (a :: actions) = turnsOf i actions := by
          cases a with
          | accept => rfl
          | take j k => rfl
          | work a =>
              cases a with
              | tick t => rfl
              | turn j => exact if_neg fun heq => ha (by rw [heq])
        rw [hturns] at h
        exact Due.step h ha

/-- **Wait-freedom.**  An idle thread takes a connection from the queue.  Whatever
the server does then, whatever the other threads are at, and as long as the
thread's stack holds the frames that the connection nests: it makes no more
accesses than the connection has bytes, and once it has taken one turn more than
that, it has answered. -/
theorem serve_wait_free {k : Nat} {stream : Stream}
    (hidle : s.workers.clients i = ⟨[], none⟩) (hqueue : s.queue[k]? = some stream)
    (hprepared : stream.prepared = .ok ()) (actions : List (ServerAction threads))
    (hturns : stream.reader.size + 1 ≤ turnsOf i actions) :
    (connectionCall env (stream.job s.clientIdCounter) : StorageCall (Transcript F)).Bounded
      stream.reader.size ∧
    ∃ r ∈ (actions.foldl (Server.step env) (s.take i k)).workers.replies,
      r.client = i ∧ r.command = stream.job s.clientIdCounter ∧
        s.workers.replies.length ≤ r.began := by
  have htake : s.take i k = { s with
      queue := s.queue.eraseIdx k
      clientIdCounter := s.clientIdCounter + 1
      workers := s.workers.assign i (stream.job s.clientIdCounter) } := by
    rw [Server.take, hidle, hqueue]
    simp only [Server.handle, hprepared]
  have hclient : (s.take i k).workers.clients i = ⟨[stream.job s.clientIdCounter], none⟩ := by
    rw [htake]
    show World.assignTo s.workers.clients i _ i = _
    rw [World.assignTo_apply, hidle, if_pos rfl]
    rfl
  have hdue : Due i (stream.job s.clientIdCounter) s.workers.replies.length
      (0 + turnsOf i actions) (s.take i k) := by
    rw [Nat.zero_add]
    refine .waiting [] hclient ?_ hturns
    rw [htake]
    exact Nat.le_refl _
  exact ⟨bounded_connectionCall (stream.job s.clientIdCounter), (hdue.steps actions).over⟩

end Server

/-- A connection that increments. -/
def oneStream : Stream := ⟨⟨utf8 "INCR k\n", .eof⟩, .open, .ok ()⟩

/-- One connection, accepted. -/
def oneAccepted : Server 2 WholeDouble :=
  (Server.new (fun _ => none) .origin [.ok oneStream]).accept

theorem serve_wait_free_oneAccepted :
    (connectionCall ⟨none, none, none, none⟩ (oneStream.job 1) :
      StorageCall (Transcript WholeDouble)).Bounded oneStream.reader.size ∧
    ∃ r ∈ ((List.replicate 8 (.work (.turn (Fin.last 1)))).foldl
        (Server.step ⟨none, none, none, none⟩) (oneAccepted.take (Fin.last 1) 0)).workers.replies,
      r.client = Fin.last 1 ∧ r.command = oneStream.job 1 ∧ 0 ≤ r.began := by
  have hturns : oneStream.reader.size + 1 ≤
      turnsOf (Fin.last 1) (List.replicate 8 (.work (.turn (Fin.last 1)))) := by decide
  exact serve_wait_free (s := oneAccepted) (k := 0) rfl rfl rfl _ hturns

end RalphDb
