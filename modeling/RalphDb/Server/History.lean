import RalphDb.Base.ProgramOrder
import RalphDb.Concurrent.Origin
import RalphDb.Concurrent.Pieces
import RalphDb.Concurrent.Tickets
import RalphDb.Server.Client
import RalphDb.Server.Server

/-!
# RalphDb.Server.History

What a server has asked of its store.

A thread serves its connections one after the other, so what it asks of the store
is the storage commands of its connections in a row.  Clients that send these
commands beside each other go wherever the server goes, with the same map; the
transcripts are made of their replies, and of the connection under way they have
got as far as its thread (`Enacts`).  What holds of such clients thereby holds of
the server:

* where no command sets a deadline, the commands on one key that they are made of
  are the threads' shares of one sequential run of the reference store, which
  later states continue and never revise (`serve_history_grows`);
* a counter is what their integer replies add up to (`serve_counts`);
* `INCR` hands out every number once (`serve_tickets`);
* every value that is stored or was answered has been sent or counted to
  (`serve_values_sent`).
-/

namespace RalphDb

open Base
open Function

variable {F : Type}

/-! ## What connections ask -/

/-- What holds of the storage commands of every connection that the listener may
yield, whatever its client id. -/
def Asks (F : Type) [F64 F] (env : Environment) (incoming : List (Except IoError Stream))
    (P : StorageCommand → Prop) : Prop :=
  ∀ stream ∈ accepted incoming, ∀ clientId, ∀ c ∈ (stream.job clientId).script F env, P c

/-- The connection of a client that sends the commands over a socket and hangs
up. -/
def clientStream (cs : List StorageCommand) (socket : Socket) : Stream :=
  ⟨⟨cs.flatMap StorageCommand.bytes, .eof⟩, socket, .ok ()⟩

/-- Clients that come one after the other. -/
def clientStreams (clients : List (List StorageCommand × Socket)) :
    List (Except IoError Stream) :=
  clients.map fun client => .ok (clientStream client.1 client.2)

theorem accepted_clientStreams (clients : List (List StorageCommand × Socket)) :
    accepted (clientStreams clients) =
      clients.map fun client => clientStream client.1 client.2 := by
  rw [accepted, clientStreams, List.filterMap_map]
  exact congrFun List.filterMap_eq_map clients

/-- Such connections ask what their clients send. -/
theorem asks_clientStreams [F64 F] {clients : List (List StorageCommand × Socket)}
    {P : StorageCommand → Prop} (h : ∀ client ∈ clients, ∀ c ∈ client.1, c.Sendable)
    (hP : ∀ client ∈ clients, ∀ c ∈ client.1, P c) (env : Environment) :
    Asks F env (clientStreams clients) P := by
  intro stream hstream clientId c hc
  rw [accepted_clientStreams] at hstream
  obtain ⟨⟨cs, socket⟩, hcs, rfl⟩ := List.mem_map.mp hstream
  have hscript := script_sessionJob (F := F) env (h _ hcs) clientId socket
  have hmem : c ∈ executed socket cs 0 := hscript ▸ hc
  exact hP _ hcs c ((executed_isPrefix socket cs 0).subset hmem)

/-- Two counting clients. -/
def countingClients : List (List StorageCommand × Socket) :=
  [([.incr [0x6B]], .open), ([.incr [0x6B], .get [0x6B]], .open)]

theorem sendable_countingClients : ∀ client ∈ countingClients, ∀ c ∈ client.1, c.Sendable := by
  have hcaps : 4 ≤ collectionLimit ∧ 4 ≤ bulkLimit := by decide
  have hsizes : ∀ client ∈ countingClients, ∀ c ∈ client.1, c.keys ≠ [] ∧
      (utf8 c.name :: c.args).length ≤ 4 ∧ ∀ arg ∈ utf8 c.name :: c.args, arg.length ≤ 4 := by
    decide
  intro client hclient c hc
  obtain ⟨hkeys, hcount, hargs⟩ := hsizes client hclient c hc
  exact ⟨hkeys, ⟨hcount.trans hcaps.1, fun arg harg => (hargs arg harg).trans hcaps.2⟩⟩

theorem forall_countingClients {P : StorageCommand → Prop} (hincr : P (.incr [0x6B]))
    (hget : P (.get [0x6B])) : ∀ client ∈ countingClients, ∀ c ∈ client.1, P c := by
  simp [countingClients, hincr, hget]

variable [F64 F]

/-! ## The server and its storage commands -/

section Server

variable {threads : Nat} {env : Environment} {m : DashMap} {t : Instant}
  {incoming : List (Except IoError Stream)} {s : Server threads F}

/-- The clients `w'` stand for the server: they send the storage commands of the
connections that its threads were given.  They are as far as the threads, and the
transcripts are made of the replies to them. -/
structure Enacts (env : Environment) (m : DashMap) (t : Instant)
    (incoming : List (Except IoError Stream)) (program : Fin threads → List Job)
    (dropped : List Stream) (s : Server threads F) (w' : Clients (Fin threads) F) : Prop where
  dispatched : Dispatched env m t incoming program dropped s
  reached : (World.start m t fun i => (program i).flatMap (Job.script F env)).Reaches
    StorageCommand.call w'
  performs : s.workers.Performs StorageCommand.call (Job.script F env) (Job.transcript env) w'

/-- A server is clients that send the storage commands of its connections. -/
theorem serve_enacts {P : StorageCommand → Prop} (hP : Asks F env incoming P)
    (hs : (Server.new m t incoming : Server threads F).Reaches env s) :
    ∃ program dropped w', Enacts env m t incoming program dropped s w' ∧
      ∀ i, ∀ c ∈ (program i).flatMap (Job.script F env), P c := by
  obtain ⟨program, dropped, h⟩ := dispatched_reaches hs
  obtain ⟨w', hw', hperforms⟩ := connections_performed env h.workers
  refine ⟨program, dropped, w', ⟨h, hw', hperforms⟩, fun i c hc => ?_⟩
  obtain ⟨job, hjob, hc⟩ := List.mem_flatMap.mp hc
  exact hP job.stream (h.mem_accepted hjob) job.clientId c hc

/-- The commands on one key that a connection asks of the store. -/
def Job.pieces (F : Type) [F64 F] (env : Environment) (job : Job) : List StorageCommand :=
  (job.script F env).flatMap StorageCommand.pieces

/-- What a connection is answered, from the replies to these. -/
def Job.assemble (env : Environment) (job : Job) (results : List (CommandResult F)) :
    Transcript F :=
  job.transcript env
    (Call.regroup StorageCommand.pieces StorageCommand.assemble (job.script F env) results)

/-- A connection is commands on one key, one after the other. -/
theorem connectionCall_eq_pieces (env : Environment) (job : Job) :
    (connectionCall env job : StorageCall (Transcript F)) =
      Call.inOrder StorageCommand.call (job.pieces F env) >>= fun results =>
        pure (job.assemble env results) := by
  rw [connectionCall_eq, Call.inOrder_flatMap call_pieces, Call.bind_assoc]
  rfl

/-- **A server is one store of single keys, and its past is not revised.**
Whatever connections are accepted, from any bytes and over any sockets, and
however accepting, taking and serving are interleaved, as long as no command sets
a deadline and none has passed: there is one run of the reference store, of
commands on one key, that ends in the stored map; the share of each thread in it
is the pieces of the commands that its connections have asked, in order, with the
replies that their transcripts are made of.  The run of a later state begins with
that of an earlier one: what was begun after it comes after what had been
answered by then. -/
theorem serve_history_grows {s' : Server threads F}
    (hasks : Asks F env incoming StorageCommand.SetsNoDeadline)
    (hs : (Server.new m t incoming : Server threads F).Reaches env s) (hs' : s.Reaches env s')
    (hm : ∀ key, Lasting s'.workers.clock (m key)) :
    ∃ program dropped program' dropped',
      Dispatched env m t incoming program dropped s ∧
      Dispatched env m t incoming program' dropped' s' ∧
      ∃ effects more : List (Effect (Fin threads) Instant StorageCommand (CommandResult F)),
        s.workers.Chronicle referenceSpec t m StorageCommand.call (Job.pieces F env)
          (Job.assemble env) program effects ∧
        s'.workers.Chronicle referenceSpec t m StorageCommand.call (Job.pieces F env)
          (Job.assemble env) program' (effects ++ more) := by
  obtain ⟨program, dropped, h⟩ := dispatched_reaches hs
  obtain ⟨program', dropped', h'⟩ := dispatched_reaches (hs.trans hs')
  obtain ⟨extra, hextra⟩ := hs'.workers
  -- the connections given to the threads by now are those of before and the new ones
  have hgranted := h.workers.grant extra
  rw [World.start_grant] at hgranted
  have hprogram : program' = fun i => program i ++ extra i :=
    funext fun i => (h'.workers.accounts i).trans ((hgranted.trans hextra).accounts i).symm
  have hpieces : ∀ i, ∀ p ∈ (program i ++ extra i).flatMap (Job.pieces F env), p.Atomic := by
    intro i p hp
    obtain ⟨job, hjob, hp⟩ := List.mem_flatMap.mp hp
    obtain ⟨c, hc, hp⟩ := List.mem_flatMap.mp hp
    rw [← congrFun hprogram i] at hjob
    exact atomic_of_mem_pieces (hasks job.stream (h'.mem_accepted hjob) job.clientId c hc) hp
  obtain ⟨v, hv, hperforms⟩ := scripts_reaches (connectionCall_eq_pieces env) h.workers
  obtain ⟨effects, more, hpast, hpresent⟩ :=
    hperforms.chronicles (V := fun _ => Lasting s'.workers.clock) (connectionCall_eq_pieces env) hm
      (fun i p hp => linearizes_call (F := F) (hpieces i p hp)) hv hextra (le_refl _)
  rw [← hprogram] at hpresent
  exact ⟨program, dropped, program', dropped', h, h', effects, more, hpast, hpresent⟩

end Server

/-- A thread goes on. -/
theorem serve_history_grows_countingClients :
    ∃ program dropped program' dropped',
      Dispatched ⟨none, none, none, none⟩ (fun _ => none) .origin (clientStreams countingClients)
        program dropped (twoThreads (clientStreams countingClients)) ∧
      Dispatched ⟨none, none, none, none⟩ (fun _ => none) .origin (clientStreams countingClients)
        program' dropped' ((twoThreads (clientStreams countingClients)).step
          ⟨none, none, none, none⟩ (.work (.turn (Fin.last 1)))) ∧
      ∃ effects more : List (Effect (Fin 2) Instant StorageCommand (CommandResult WholeDouble)),
        (twoThreads (clientStreams countingClients)).workers.Chronicle referenceSpec .origin
          (fun _ => none) StorageCommand.call (Job.pieces WholeDouble ⟨none, none, none, none⟩)
          (Job.assemble ⟨none, none, none, none⟩) program effects ∧
        ((twoThreads (clientStreams countingClients)).step ⟨none, none, none, none⟩
          (.work (.turn (Fin.last 1)))).workers.Chronicle referenceSpec .origin (fun _ => none)
          StorageCommand.call (Job.pieces WholeDouble ⟨none, none, none, none⟩)
          (Job.assemble ⟨none, none, none, none⟩) program' (effects ++ more) := by
  have hasks : ∀ client ∈ countingClients, ∀ c ∈ client.1, c.SetsNoDeadline :=
    forall_countingClients trivial trivial
  exact serve_history_grows (s := twoThreads _)
    (asks_clientStreams sendable_countingClients hasks _) ⟨_, rfl⟩
    (Server.Reaches.refl.step (.work (.turn (Fin.last 1)))) fun _ => lasting_none

/-! ## Counters -/

section Counters

variable {threads : Nat} {env : Environment} {m : DashMap} {t : Instant}
  {incoming : List (Except IoError Stream)} {s : Server threads F}

/-- **Counters over connections.**  Whatever connections are accepted, as long as
they only count in `k`, read it or leave it alone, the counter is its first
value plus the increments and minus the decrements that have been answered an
integer, on the connections that are over and on those under way. -/
theorem serve_counts {k : Key} {n₀ : Int64} (hfresh : NoDeadline (m k))
    (hn : counterValue (m k) = some n₀) (hcounts : Asks F env incoming (CountsOnly k))
    (hs : (Server.new m t incoming : Server threads F).Reaches env s) :
    ∃ program dropped w', Enacts env m t incoming program dropped s w' ∧
      ∃ n, counterValue (s.workers.shared k) = some n ∧
        n.toInt = n₀.toInt + answered (.incr k) w'.replies - answered (.decr k) w'.replies := by
  obtain ⟨program, dropped, w', h, hprogram⟩ := serve_enacts hcounts hs
  have hvalue := (counterInv_reaches hfresh hn hprogram h.reached).value
  rw [h.performs.shared] at hvalue
  exact ⟨program, dropped, w', h, hvalue⟩

theorem serve_counts_countingClients :
    ∃ program dropped w', Enacts ⟨none, none, none, none⟩ (fun _ => none) .origin
        (clientStreams countingClients) program dropped
        (twoThreads (clientStreams countingClients)) w' ∧
      ∃ n, counterValue ((twoThreads (clientStreams countingClients)).workers.shared [0x6B]) =
          some n ∧
        n.toInt = (0 : Int64).toInt + answered (.incr [0x6B]) w'.replies -
          answered (.decr [0x6B]) w'.replies := by
  have hcounts : ∀ client ∈ countingClients, ∀ c ∈ client.1, CountsOnly [0x6B] c :=
    forall_countingClients (.inl ⟨1, .inl ⟨rfl, rfl⟩⟩) (.inr (.inl trivial))
  exact serve_counts (s := twoThreads _) (k := [0x6B]) (fun _ h => by contradiction) rfl
    (asks_clientStreams sendable_countingClients hcounts _) ⟨_, rfl⟩

/-- **Numbers drawn over connections.**  Whatever connections are accepted, as long
as they only increment `k`, read it or leave it alone: the integers that `INCR k`
has been answered, on the connections that are over and on those under way, are
the numbers after the first value of the counter, each once, and those of one
thread increase. -/
theorem serve_tickets {k : Key} {n₀ : Int64} (hfresh : NoDeadline (m k))
    (hn : counterValue (m k) = some n₀) (hcounts : Asks F env incoming (CountsUp k))
    (hs : (Server.new m t incoming : Server threads F).Reaches env s) :
    ∃ program dropped w', Enacts env m t incoming program dropped s w' ∧
      (∀ i, (tickets k (exchanges w'.replies i)).Pairwise (· < ·)) ∧
      tickets k (w'.replies.map fun r => (r.command, r.result)) =
        numbersAfter n₀ (answered (.incr k) w'.replies) := by
  obtain ⟨program, dropped, w', h, hprogram⟩ := serve_enacts hcounts hs
  have hdrawn : tickets k (w'.replies.map fun r => (r.command, r.result)) =
      numbersAfter n₀ (answered (.incr k) w'.replies) :=
    tickets_reaches hfresh hn hprogram h.reached
  refine ⟨program, dropped, w', h, fun i => ?_, hdrawn⟩
  have hsublist : (exchanges w'.replies i).Sublist
      (w'.replies.map fun r => (r.command, r.result)) := List.filter_sublist.map _
  refine List.Pairwise.sublist (hsublist.filterMap (ticket k)) ?_
  show (tickets k _).Pairwise (· < ·)
  rw [hdrawn]
  exact pairwise_numbersAfter _ _

end Counters

theorem serve_tickets_countingClients :
    ∃ program dropped w', Enacts ⟨none, none, none, none⟩ (fun _ => none) .origin
        (clientStreams countingClients) program dropped
        (twoThreads (clientStreams countingClients)) w' ∧
      (∀ i, (tickets [0x6B] (exchanges w'.replies i)).Pairwise (· < ·)) ∧
      tickets [0x6B] (w'.replies.map fun r => (r.command, r.result)) =
        numbersAfter 0 (answered (.incr [0x6B]) w'.replies) := by
  have hcounts : ∀ client ∈ countingClients, ∀ c ∈ client.1, CountsUp [0x6B] c :=
    forall_countingClients (.inl rfl) (.inr (.inl trivial))
  exact serve_tickets (s := twoThreads _) (k := [0x6B]) (fun _ h => by contradiction) rfl
    (asks_clientStreams sendable_countingClients hcounts _) ⟨_, rfl⟩

/-! ## Values -/

section Values

variable {threads : Nat} {env : Environment} {m : DashMap} {t : Instant}
  {incoming : List (Except IoError Stream)} {s : Server threads F}

/-- The value is in the first map under the key, or the bytes of an accepted
connection spell a `SET` or an `MSET` that writes it there. -/
def WasSent (F : Type) [F64 F] (env : Environment) (incoming : List (Except IoError Stream))
    (m : DashMap) (key : Key) (value : List UInt8) : Prop :=
  (∃ entry, m key = some entry ∧ entry.value = value) ∨
    ∃ stream ∈ accepted incoming, ∃ clientId, ∃ c ∈ (stream.job clientId).script F env,
      c.Writes key value

/-- **No value out of thin air.**  Whatever connections are accepted, from any bytes
and over any sockets, with deadlines passing and in any interleaving: every value
that is stored under a key was in the first map, was sent for this key or is a
number that counting in it has been answered; and so is every value that `GET` or
`MGET` has been answered for it, the number answered before, on the connections
that are over and on those under way. -/
theorem serve_values_sent (hs : (Server.new m t incoming : Server threads F).Reaches env s) :
    ∃ program dropped w', Enacts env m t incoming program dropped s w' ∧
      ValuesIn (Sourced (WasSent F env incoming m) w'.replies) s.workers.shared ∧
      ToldBefore (WasSent F env incoming m) w'.replies := by
  have hasks : Asks F env incoming fun c =>
      ∀ key value, c.Writes key value → WasSent F env incoming m key value :=
    fun stream hstream clientId c hc _ _ hwrites =>
      .inr ⟨stream, hstream, clientId, c, hc, hwrites⟩
  obtain ⟨program, dropped, w', h, hprogram⟩ := serve_enacts hasks hs
  obtain ⟨hheld, htold⟩ :=
    values_written (fun _ entry hentry => .inl ⟨entry, hentry, rfl⟩) hprogram h.reached
  exact ⟨program, dropped, w', h, h.performs.shared ▸ hheld, htold⟩

end Values

theorem serve_values_sent_countingClients :
    ∃ program dropped w', Enacts ⟨none, none, none, none⟩ (fun _ => none) .origin
        (clientStreams countingClients) program dropped
        (twoThreads (clientStreams countingClients)) w' ∧
      ValuesIn (Sourced (WasSent WholeDouble ⟨none, none, none, none⟩
          (clientStreams countingClients) fun _ => none) w'.replies)
        (twoThreads (clientStreams countingClients)).workers.shared ∧
      ToldBefore (WasSent WholeDouble ⟨none, none, none, none⟩ (clientStreams countingClients)
        fun _ => none) w'.replies :=
  serve_values_sent ⟨_, rfl⟩

end RalphDb
