import RalphDb.Base.Dispatch
import RalphDb.Server.Plan
import Mathlib.Data.List.Perm.Basic

/-!
# RalphDb.Server.Server

The server: accepting connections and giving them to threads.

`serve` takes what the listener yields and queues each connection on a pool of
threads; an idle thread is given a queued connection, any of them, and serves it
to its end.  Accepting, taking and serving go on beside each other
(`Server.step`).

Whatever the order, no connection is lost or served twice, the client ids are
`1`, `2`, and so on, and the threads are `Connections`: they reach nothing but
what they reach when their connections are given to them from the start
(`serve_dispatches`).
-/

namespace RalphDb

open Base
open Function

variable {threads : Nat} {F : Type}

/-! ## The server -/

/-- A connection that the listener yields.  `try_clone` and setting the timeouts
may fail on it. -/
structure Stream where
  reader : Reader
  socket : Socket
  prepared : Except IoError Unit

/-- Serving the connection, with the client id drawn for it. -/
def Stream.job (stream : Stream) (clientId : Int64) : Job :=
  ⟨stream.reader, clientId, stream.socket⟩

/-- The connection that is served. -/
def Job.stream (job : Job) : Stream := ⟨job.reader, job.socket, .ok ()⟩

/-- `serve` under way: what the listener will yield, the connections queued on
the pool, the counter of client ids and the threads. -/
structure Server (threads : Nat) (F : Type) where
  incoming : List (Except IoError Stream)
  queue : List Stream
  clientIdCounter : Int64
  workers : Connections (Fin threads) F

namespace Server

/-- Before anything is accepted. -/
def new (m : DashMap) (t : Instant) (incoming : List (Except IoError Stream)) :
    Server threads F := ⟨incoming, [], 1, World.start m t fun _ => []⟩

/-- A round of the loop of `serve`: a connection that fails to be accepted is
skipped. -/
def accept (s : Server threads F) : Server threads F :=
  match s.incoming with
  | [] => s
  | .error _ :: incoming => { s with incoming := incoming }
  | .ok stream :: incoming => { s with incoming := incoming, queue := s.queue ++ [stream] }

/-- `handle_connection` up to its loop. -/
def handle (s : Server threads F) (i : Fin threads) (stream : Stream) : Server threads F :=
  match stream.prepared with
  | .error _ => s
  | .ok () =>
      { s with
        clientIdCounter := s.clientIdCounter + 1
        workers := s.workers.assign i (stream.job s.clientIdCounter) }

/-- Thread `i` is given the connection at place `k` of the queue, if it is idle. -/
def take (s : Server threads F) (i : Fin threads) (k : Nat) : Server threads F :=
  match s.workers.clients i, s.queue[k]? with
  | ⟨[], none⟩, some stream => { s with queue := s.queue.eraseIdx k }.handle i stream
  | _, _ => s

end Server

/-- What happens next: a round of `serve`, a thread is given a connection, or a
thread goes on and time passes. -/
inductive ServerAction (threads : Nat)
  | accept
  | take (i : Fin threads) (k : Nat)
  | work (a : Action (Fin threads) Instant)

namespace Server

variable [F64 F] (env : Environment)

def step (s : Server threads F) : ServerAction threads → Server threads F
  | .accept => s.accept
  | .take i k => s.take i k
  | .work a => { s with workers := s.workers.step (connectionCall env) a }

/-- Some actions lead from the first state to the second. -/
def Reaches (s s' : Server threads F) : Prop :=
  ∃ actions : List (ServerAction threads), s' = actions.foldl (step env) s

variable {env} {s s' s'' : Server threads F}

theorem Reaches.refl : s.Reaches env s := ⟨[], rfl⟩

theorem Reaches.step (h : s.Reaches env s') (a : ServerAction threads) :
    s.Reaches env (s'.step env a) := by
  obtain ⟨actions, rfl⟩ := h
  exact ⟨actions ++ [a], by rw [List.foldl_append]; rfl⟩

theorem Reaches.trans (h : s.Reaches env s') (h' : s'.Reaches env s'') : s.Reaches env s'' := by
  obtain ⟨actions, rfl⟩ := h
  obtain ⟨actions', rfl⟩ := h'
  exact ⟨actions ++ actions', by rw [List.foldl_append]⟩

/-- **Induction over the actions of the server.** -/
theorem Reaches.invariant {P : Server threads F → Prop} (h : s.Reaches env s') (hstart : P s)
    (hstep : ∀ s a, P s → P (s.step env a)) : P s' := by
  obtain ⟨actions, rfl⟩ := h
  induction actions generalizing s with
  | nil => exact hstart
  | cons a actions ih => exact ih (hstep s a hstart)

/-- Where the threads get, they get with the connections they are given on the
way. -/
theorem Reaches.workers (h : s.Reaches env s') : ∃ extra : Fin threads → List Job,
    (s.workers.grant extra).Reaches (connectionCall env) s'.workers := by
  refine h.invariant (P := fun s' => ∃ extra : Fin threads → List Job,
    (s.workers.grant extra).Reaches (connectionCall env) s'.workers) ⟨fun _ => [], ?_⟩
    fun s' a hs' => ?_
  · rw [World.grant_nil]
    exact .refl _ _
  · obtain ⟨extra, hextra⟩ := hs'
    cases a with
    | accept =>
        refine ⟨extra, ?_⟩
        rw [Server.step, Server.accept]
        split <;> exact hextra
    | take i k =>
        rw [Server.step, Server.take]
        split
        · next stream _ _ =>
            have hassign := hextra.assign i (stream.job s'.clientIdCounter)
            rw [World.grant_assign] at hassign
            rw [Server.handle]
            split
            · exact ⟨extra, hextra⟩
            · exact ⟨_, hassign⟩
        · exact ⟨extra, hextra⟩
    | work a => exact ⟨extra, hextra.step a⟩

end Server

/-! ## Every connection in its place -/

/-- The connections among what the listener yields. -/
def accepted (incoming : List (Except IoError Stream)) : List Stream :=
  incoming.filterMap Except.toOption

/-- The client ids that the counter hands out first. -/
def clientIds (n : Nat) : List Int64 := (List.range n).map fun k => Int64.ofNat (k + 1)

/-- Of the connections in `incoming`, those of `program` have been given to the
threads and those in `dropped` failed before their loop. -/
structure Dispatched [F64 F] (env : Environment) (m : DashMap) (t : Instant)
    (incoming : List (Except IoError Stream)) (program : Fin threads → List Job)
    (dropped : List Stream) (s : Server threads F) : Prop where
  workers : (World.start m t program).Reaches (connectionCall env) s.workers
  failed : ∀ stream ∈ dropped, ∃ err, stream.prepared = .error err
  streams : ((together program).map Job.stream ++
    (dropped ++ (s.queue ++ accepted s.incoming))).Perm (accepted incoming)
  ids : ((together program).map Job.clientId).Perm (clientIds (together program).length)
  counter : s.clientIdCounter = Int64.ofNat ((together program).length + 1)

theorem clientIds_succ (n : Nat) : clientIds (n + 1) = clientIds n ++ [Int64.ofNat (n + 1)] := by
  rw [clientIds, List.range_succ, List.map_append]
  rfl

/-- The counter comes back to an id after `2 ^ 64` connections. -/
theorem nodup_clientIds {n : Nat} (h : n ≤ 2 ^ 64) : (clientIds n).Nodup := by
  refine List.Nodup.map_on (fun a ha b hb heq => ?_) List.nodup_range
  have hbits : (BitVec.ofNat 64 (a + 1)).toNat = (BitVec.ofNat 64 (b + 1)).toNat :=
    congrArg (fun id : Int64 => id.toBitVec.toNat) heq
  rw [BitVec.toNat_ofNat, BitVec.toNat_ofNat] at hbits
  rw [List.mem_range] at ha hb
  omega

section Dispatches

variable [F64 F] {env : Environment} {m : DashMap} {t : Instant}
  {incoming : List (Except IoError Stream)} {program : Fin threads → List Job}
  {dropped : List Stream} {s : Server threads F}

/-- A connection given to a thread has been accepted. -/
theorem Dispatched.mem_accepted (h : Dispatched env m t incoming program dropped s)
    {i : Fin threads} {job : Job} (hjob : job ∈ program i) : job.stream ∈ accepted incoming :=
  h.streams.subset (List.mem_append_left _ (List.mem_map_of_mem (mem_together hjob)))

theorem Dispatched.accept (h : Dispatched env m t incoming program dropped s) :
    Dispatched env m t incoming program dropped s.accept := by
  rcases s with ⟨waiting, queue, counter, workers⟩
  cases waiting with
  | nil => exact h
  | cons item waiting =>
      cases item with
      | error err => exact ⟨h.workers, h.failed, h.streams, h.ids, h.counter⟩
      | ok stream =>
          refine ⟨h.workers, h.failed, ?_, h.ids, h.counter⟩
          have hstreams := h.streams
          simp only [Server.accept, List.append_assoc]
          exact hstreams

/-- A connection leaves the queue. -/
theorem Dispatched.handle (h : Dispatched env m t incoming program dropped s) (i : Fin threads)
    {k : Nat} {stream : Stream} (hk : s.queue[k]? = some stream) :
    ∃ program' dropped', Dispatched env m t incoming program' dropped'
      ({ s with queue := s.queue.eraseIdx k }.handle i stream) := by
  obtain ⟨hlt, rfl⟩ := List.getElem?_eq_some_iff.mp hk
  have hqueue : s.queue.Perm (s.queue[k] :: s.queue.eraseIdx k) :=
    (List.getElem_cons_eraseIdx_perm hlt).symm
  cases hprepared : s.queue[k].prepared with
  | error err =>
      refine ⟨program, dropped ++ [s.queue[k]], ?_⟩
      simp only [Server.handle, hprepared]
      refine ⟨h.workers, ?_, ?_, h.ids, h.counter⟩
      · exact List.forall_mem_append.mpr
          ⟨h.failed, List.forall_mem_singleton.mpr ⟨err, hprepared⟩⟩
      · refine List.Perm.trans ?_ h.streams
        rw [List.append_assoc, List.singleton_append]
        exact ((hqueue.symm.append_right _).append_left _).append_left _
  | ok u =>
      have hgiven := perm_together_update program i (s.queue[k].job s.clientIdCounter)
      have hlength := hgiven.length_eq
      rw [List.length_append, List.length_singleton] at hlength
      refine ⟨update program i (program i ++ [s.queue[k].job s.clientIdCounter]), dropped, ?_⟩
      simp only [Server.handle, hprepared]
      refine ⟨?_, h.failed, ?_, ?_, ?_⟩
      · rw [← World.start_assign]
        exact h.workers.assign i _
      · have hstream : (s.queue[k].job s.clientIdCounter).stream = s.queue[k] := by
          simp only [Stream.job, Job.stream, ← hprepared]
        refine List.Perm.trans ?_ h.streams
        refine ((hgiven.map Job.stream).append_right _).trans ?_
        rw [List.map_append, List.map_singleton, hstream, List.append_assoc]
        refine List.Perm.append_left _ ?_
        rw [List.singleton_append]
        refine List.perm_middle.symm.trans (List.Perm.append_left _ ?_)
        exact hqueue.symm.append_right _
      · rw [hlength, clientIds_succ]
        refine (hgiven.map Job.clientId).trans ?_
        rw [List.map_append, List.map_singleton]
        refine h.ids.append ?_
        rw [← h.counter]
        exact .refl _
      · rw [hlength, Int64.ofNat_add ((together program).length + 1), ← h.counter]
        rfl

theorem Dispatched.take (h : Dispatched env m t incoming program dropped s) (i : Fin threads)
    (k : Nat) :
    ∃ program' dropped', Dispatched env m t incoming program' dropped' (s.take i k) := by
  unfold Server.take
  split
  · next hk => exact h.handle i hk
  · exact ⟨program, dropped, h⟩

/-- Every action keeps every connection in its place. -/
theorem dispatched_reaches (hs : (Server.new m t incoming : Server threads F).Reaches env s) :
    ∃ program dropped, Dispatched env m t incoming program dropped s := by
  refine hs.invariant
    (P := fun s => ∃ program dropped, Dispatched env m t incoming program dropped s)
    ⟨fun _ => [], [], ?_⟩ fun s a hs => ?_
  · have hgiven : together (fun _ : Fin threads => ([] : List Job)) = [] := together_nil
    refine ⟨.refl _ _, fun _ h => by contradiction, ?_, ?_, ?_⟩
    · rw [hgiven]
      exact .refl _
    · rw [hgiven]
      exact .refl _
    · rw [hgiven]
      rfl
  · obtain ⟨program, dropped, h⟩ := hs
    cases a with
    | accept => exact ⟨program, dropped, h.accept⟩
    | take i k => exact h.take i k
    | work a => exact ⟨program, dropped, h.workers.step a, h.failed, h.streams, h.ids, h.counter⟩

/-- **What the server does with the connections.**  Whatever the listener yields
and however accepting, taking and serving are interleaved: each connection is
still to be accepted, queued, given to one thread or dropped; the threads are
where they are when they have their connections from the start; and the ids
given out are the first of the counter, all different. -/
theorem serve_dispatches (hs : (Server.new m t incoming : Server threads F).Reaches env s) :
    ∃ program dropped, Dispatched env m t incoming program dropped s ∧
      ((together program).length ≤ 2 ^ 64 → ((together program).map Job.clientId).Nodup) := by
  obtain ⟨program, dropped, h⟩ := dispatched_reaches hs
  exact ⟨program, dropped, h, fun hlength => h.ids.nodup_iff.mpr (nodup_clientIds hlength)⟩

/-- A connection that increments, one that is not accepted and one that cannot be
cloned. -/
def threeStreams : List (Except IoError Stream) :=
  [.ok ⟨⟨utf8 "INCR k\n", .eof⟩, .open, .ok ()⟩, .error ⟨.other, ""⟩,
    .ok ⟨⟨utf8 "GET k\n", .eof⟩, .open, .error ⟨.other, ""⟩⟩]

/-- Everything is accepted, the second connection of the queue is taken first, and
both threads are serving. -/
def twoThreads (incoming : List (Except IoError Stream)) : Server 2 WholeDouble :=
  [.accept, .accept, .accept, .take 0 1, .take 1 0, .work (.turn 1), .work (.turn 0),
    .work (.turn 1)].foldl (Server.step ⟨none, none, none, none⟩)
      (.new (fun _ => none) .origin incoming)

theorem serve_dispatches_twoThreads : ∃ program dropped,
    Dispatched ⟨none, none, none, none⟩ (fun _ => none) .origin threeStreams program dropped
        (twoThreads threeStreams) ∧
      ((together program).length ≤ 2 ^ 64 → ((together program).map Job.clientId).Nodup) :=
  serve_dispatches ⟨_, rfl⟩

end Dispatches

end RalphDb
