import RalphDb.Base.Rely
import RalphDb.Command.Reply
import RalphDb.Protocol.Stream
import RalphDb.Server.History

/-!
# RalphDb.Server.Received

What a client reads from its socket.

A client sends storage commands as requests and reads frames until its stream
ends.  Over a socket that does not fail it reads one frame for each command, the
response; over one that fails it reads the first of them, and all but at most the
last command that was executed is acknowledged (`received_transcript`).

With the history of the server this goes from bytes to bytes: what the clients
read are the replies of clients that run just the executed commands
(`Sessions`, `serve_received`), and where the commands are atomic the responses of
one sequential run of the reference store (`serve_clients`).
-/

namespace RalphDb

open Base
open Base.Call
open Base.Fallible

variable {F : Type}

/-! ## Reading the answers of a connection -/

/-- The bytes of a connection that reach its client. -/
def Transcript.bytes (t : Transcript F) : List UInt8 := t.sent.flatMap Sent.bytes

/-- The frames that its client reads. -/
def Transcript.received [F64 F] (t : Transcript F) : List (Frame F) := readFrames ⟨t.bytes, .eof⟩

/-- The frame that a client reads for a command. -/
def seen [F64 F] (exchange : StorageCommand × CommandResult F) : Frame F :=
  exchange.2.response.seenBy .resp2

/-- A result without attributes, within the caps and without a line feed in a
line. -/
abbrev CommandResult.Modest (result : CommandResult F) : Prop :=
  result.Tame Short (· ≤ collectionLimit)

/-- What the client of the commands `cs` has of a connection on which the commands
of `session` were executed. -/
structure Received [F64 F] (cs : List StorageCommand) (t : Transcript F)
    (session : List (StorageCommand × CommandResult F)) : Prop where
  commands : session.map Prod.fst <+: cs
  read : t.received <+: session.map seen
  acknowledged : session.length ≤ t.received.length + 1
  complete : t.outcome = .ok () → session.map Prod.fst = cs ∧ t.received = session.map seen

section Session

variable [F64 F]

/-- The answer to a storage command is read, whatever comes after it. -/
theorem reads_answer {result : CommandResult F} (h : result.Modest) (command : Command) :
    Reads decodeFrame ((Answer.result command result).bytes .resp2)
      (result.response.seenBy .resp2) := by
  obtain ⟨response, attributes, close⟩ := result
  obtain rfl : attributes = none := h.attributes
  have hback : (⟨response, none, close⟩ : CommandResult F).ReadBack .resp2 :=
    readBack_of_tame h.response .resp2
  obtain ⟨w, hw, hread⟩ := hback
  have hbytes : (Answer.result command ⟨response, none, close⟩ : Answer F).bytes .resp2 = w := by
    rw [Answer.bytes, hw []]
    rfl
  obtain ⟨w', hsplit, hreads⟩ := reads_of_run (hread .eof)
  rw [hbytes, hsplit, List.append_nil]
  exact hreads

/-! ### A session, command by command -/

/-- The rounds of the commands. -/
def asks (cs : List StorageCommand) : List (Planned F) :=
  cs.map fun c => .asks c.toCommand c .resp2

/-- An answer is sent, and the session goes on. -/
theorem transcribe_sent {socket : Socket} {sent : List (Sent F)}
    (hsocket : socket sent.length = none) (c : StorageCommand) (cs : List StorageCommand)
    (result : CommandResult F) (results : List (CommandResult F)) :
    transcribe socket (asks (c :: cs)) (result :: results) sent =
      transcribe socket (asks cs) results (sent ++ [clientSent (c, result)]) := by
  simp only [asks, List.map_cons, transcribe, deliver, hsocket, Option.isNone_none, if_true]
  rfl

/-- An answer is cut, and the session is over. -/
theorem transcribe_cut {socket : Socket} {sent : List (Sent F)} {taken : Nat} {err : IoError}
    (hsocket : socket sent.length = some (taken, err)) (c : StorageCommand)
    (cs : List StorageCommand) (result : CommandResult F) (results : List (CommandResult F)) :
    transcribe socket (asks (c :: cs)) (result :: results) sent =
      ⟨sent ++ [⟨.result c.toCommand result, (clientSent (c, result)).bytes.take taken⟩],
        .error err⟩ := by
  simp only [asks, List.map_cons, transcribe, deliver, hsocket, Option.isNone_some,
    Bool.false_eq_true, if_false]
  rfl

/-- What the client reads of the answers in `more`, sent after `n` others. -/
structure Continues (socket : Socket) (cs : List StorageCommand) (n : Nat)
    (results : List (CommandResult F)) (outcome : Except IoError Unit) (more : List (Sent F)) :
    Prop where
  read : (readFrames ⟨more.flatMap Sent.bytes, .eof⟩ : List (Frame F)) <+:
    results.map fun result => result.response.seenBy .resp2
  acknowledged : results.length ≤
    (readFrames ⟨more.flatMap Sent.bytes, .eof⟩ : List (Frame F)).length + 1
  complete : outcome = .ok () → executed socket cs n = cs ∧
    (readFrames ⟨more.flatMap Sent.bytes, .eof⟩ : List (Frame F)) =
      results.map fun result => result.response.seenBy .resp2

theorem Continues.sent {socket : Socket} {cs : List StorageCommand} {n : Nat}
    {results : List (CommandResult F)} {outcome : Except IoError Unit} {more : List (Sent F)}
    (h : Continues socket cs (n + 1) results outcome more) (hsocket : socket n = none)
    {result : CommandResult F} (hresult : result.Modest) (c : StorageCommand) :
    Continues socket (c :: cs) n (result :: results) outcome (clientSent (c, result) :: more) := by
  have hread : (readFrames ⟨(clientSent (c, result) :: more).flatMap Sent.bytes, .eof⟩ :
      List (Frame F)) = result.response.seenBy .resp2 ::
        readFrames ⟨more.flatMap Sent.bytes, .eof⟩ :=
    readFrames_append (reads_answer hresult c.toCommand) _ _
  refine ⟨?_, ?_, fun hok => ?_⟩
  · rw [hread]
    exact List.cons_prefix_cons.mpr ⟨rfl, h.read⟩
  · rw [hread]
    exact Nat.succ_le_succ h.acknowledged
  · obtain ⟨hall, hcomplete⟩ := h.complete hok
    rw [hread, hcomplete, executed, hsocket, Option.isNone_none, if_pos rfl, hall]
    exact ⟨rfl, rfl⟩

theorem continues_cut {result : CommandResult F} (hresult : result.Modest) (socket : Socket)
    (c : StorageCommand) (cs : List StorageCommand) (n taken : Nat) (err : IoError) :
    Continues socket (c :: cs) n [result] (.error err)
      [⟨.result c.toCommand result, (clientSent (c, result)).bytes.take taken⟩] := by
  have hcut := readFrames_prefix (F := F) (List.take_prefix taken (clientSent (c, result)).bytes)
    .eof
  have hwhole : (readFrames ⟨(clientSent (c, result)).bytes ++ [], .eof⟩ : List (Frame F)) =
      result.response.seenBy .resp2 :: readFrames ⟨[], .eof⟩ :=
    readFrames_append (reads_answer hresult c.toCommand) _ _
  rw [List.append_nil, readFrames_nil] at hwhole
  refine ⟨?_, Nat.succ_le_succ (Nat.zero_le _), fun hok => by contradiction⟩
  rw [hwhole] at hcut
  rw [List.flatMap_singleton]
  exact hcut

/-- What the answers of a session are read as, by induction on its commands. -/
theorem transcribe_continues {socket : Socket} {cs : List StorageCommand}
    {results : List (CommandResult F)} {sent : List (Sent F)}
    (hlength : results.length = (executed socket cs sent.length).length)
    (hmodest : ∀ result ∈ results, result.Modest) :
    ∃ more, (transcribe socket (asks cs) results sent).sent = sent ++ more ∧
      Continues socket cs sent.length results (transcribe socket (asks cs) results sent).outcome
        more := by
  induction cs generalizing results sent with
  | nil =>
      obtain rfl : results = [] := List.eq_nil_of_length_eq_zero hlength
      exact ⟨[], (List.append_nil _).symm, by simp, Nat.zero_le _, fun _ => ⟨rfl, by simp⟩⟩
  | cons c cs ih =>
      cases results with
      | nil => contradiction
      | cons result results =>
          obtain ⟨hresult, hresults⟩ := List.forall_mem_cons.mp hmodest
          rw [executed, List.length_cons, List.length_cons, Nat.add_right_cancel_iff] at hlength
          cases hsocket : socket sent.length with
          | none =>
              have hcount : (sent ++ [clientSent (c, result)]).length = sent.length + 1 :=
                List.length_append
              rw [hsocket, Option.isNone_none, if_pos rfl, ← hcount] at hlength
              obtain ⟨more, hmore, hcontinues⟩ := ih hlength hresults
              rw [hcount] at hcontinues
              rw [transcribe_sent hsocket]
              refine ⟨clientSent (c, result) :: more, ?_, hcontinues.sent hsocket hresult c⟩
              rw [hmore, List.append_assoc]
              rfl
          | some failure =>
              obtain ⟨taken, err⟩ := failure
              rw [hsocket, Option.isNone_some, if_neg Bool.false_ne_true] at hlength
              obtain rfl : results = [] := List.eq_nil_of_length_eq_zero hlength
              rw [transcribe_cut hsocket]
              exact ⟨_, rfl, continues_cut hresult socket c cs _ taken err⟩

/-- **What a client reads**: one frame for each command that was executed, its
response, in order, up to where the socket failed; all commands but at most the
last are acknowledged. -/
theorem received_transcript {cs : List StorageCommand} (h : ∀ c ∈ cs, c.Sendable)
    (env : Environment) (clientId : Int64) (socket : Socket) {results : List (CommandResult F)}
    (hlength : results.length = (executed socket cs 0).length)
    (hmodest : ∀ result ∈ results, result.Modest) :
    Received cs ((sessionJob cs clientId socket).transcript env results)
      ((executed socket cs 0).zip results) := by
  have hplan : ((sessionJob cs clientId socket).plan env : List (Planned F)) = asks cs :=
    plan_clientJob env h clientId
  have htranscript : (sessionJob cs clientId socket).transcript env results =
      transcribe socket (asks cs) results [] := by
    rw [Job.transcript, hplan]
    rfl
  have hfirst : results.length = (executed socket cs ([] : List (Sent F)).length).length := hlength
  obtain ⟨more, hmore, hcontinues⟩ := transcribe_continues hfirst hmodest
  have hfst : ((executed socket cs 0).zip results).map Prod.fst = executed socket cs 0 :=
    List.map_fst_zip (Nat.le_of_eq hlength.symm)
  have hsnd : ((executed socket cs 0).zip results).map (seen (F := F)) =
      results.map fun result => result.response.seenBy .resp2 := by
    have hresults : ((executed socket cs 0).zip results).map Prod.snd = results :=
      List.map_snd_zip (Nat.le_of_eq hlength)
    rw [← hresults, List.map_map]
    simp only [hresults]
    rfl
  have hreceived : ((sessionJob cs clientId socket).transcript env results).received =
      readFrames ⟨more.flatMap Sent.bytes, .eof⟩ := by
    rw [htranscript, Transcript.received, Transcript.bytes, hmore, List.nil_append]
  have hcount : ((executed socket cs 0).zip results).length = results.length := by
    rw [List.length_zip, ← hlength, Nat.min_self]
  refine ⟨?_, ?_, ?_, fun hok => ?_⟩
  · rw [hfst]
    exact executed_isPrefix socket cs 0
  · rw [hreceived, hsnd]
    exact hcontinues.read
  · rw [hreceived, hcount]
    exact hcontinues.acknowledged
  · rw [htranscript] at hok
    rw [hfst, hreceived, hsnd]
    exact hcontinues.complete hok

end Session

/-! ## Clients of a server -/

/-- The replies to requests within the caps are within the caps. -/
theorem upholds_call {c : StorageCommand} (h : c.Sendable) :
    (c.call : StorageCall (CommandResult F)).Upholds (Stored Short) CommandResult.Modest := by
  have hargs : ∀ arg ∈ c.args, Short arg := fun arg harg =>
    h.caps.sizes arg (List.mem_cons_of_mem _ harg)
  have hcount : c.args.length ≤ collectionLimit :=
    Nat.le_trans (Nat.le_succ _) h.caps.count
  cases c with
  | set key value => exact upholds_setCommand hargs
  | get key => exact upholds_getCommand [key]
  | del keys => exact upholds_delCommand _
  | existsKeys keys => exact upholds_existsCommand _
  | incr key => exact upholds_incrCommand covers_short [key]
  | decr key => exact upholds_decrCommand covers_short [key]
  | mget keys => exact upholds_mgetCommand hcount
  | mset pairs => exact upholds_msetCommand hargs
  | expire key seconds => exact upholds_expireCommand [key, seconds]
  | ttl key => exact upholds_ttlCommand [key]

/-- A connection of one of the clients, and what was executed on it. -/
def Serves [F64 F] (clients : List (List StorageCommand × Socket)) (connection : Job × Transcript F)
    (session : List (StorageCommand × CommandResult F)) : Prop :=
  ∃ client ∈ clients, connection.1.stream = clientStream client.1 client.2 ∧
    Received client.1 connection.2 session

/-- The connection of a client is its session. -/
theorem eq_sessionJob {job : Job} {cs : List StorageCommand} {socket : Socket}
    (h : job.stream = clientStream cs socket) : job = sessionJob cs job.clientId socket := by
  obtain ⟨reader, clientId, socket'⟩ := job
  obtain ⟨rfl, rfl, _⟩ := Stream.mk.inj h
  rfl

/-- A connection that is over is a session of its client. -/
theorem serves_of_script [F64 F] {clients : List (List StorageCommand × Socket)}
    (hsend : ∀ client ∈ clients, ∀ c ∈ client.1, c.Sendable) (env : Environment) {job : Job}
    (hjob : ∃ client ∈ clients, job.stream = clientStream client.1 client.2)
    {results : List (CommandResult F)} (hlength : results.length = (job.script F env).length)
    (hmodest : ∀ result ∈ results, result.Modest) :
    Serves clients (job, job.transcript env results) ((job.script F env).zip results) := by
  obtain ⟨⟨cs, socket⟩, hclient, hstream⟩ := hjob
  have hsession := eq_sessionJob hstream
  have hscript : job.script F env = executed socket cs 0 := by
    rw [hsession]
    exact script_sessionJob env (hsend _ hclient) _ socket
  refine ⟨(cs, socket), hclient, hstream, ?_⟩
  rw [hscript] at hlength ⊢
  rw [hsession]
  exact received_transcript (hsend _ hclient) env job.clientId socket hlength hmodest

/-- The history of a thread, client by client: the sessions of its connections that
are over and then, of the connection it is serving, the first of the commands that
the client sent. -/
def Sessions [F64 F] {ι : Type} [DecidableEq ι] (clients : List (List StorageCommand × Socket))
    (w : Connections ι F) (i : ι) (history : List (StorageCommand × CommandResult F)) : Prop :=
  ∃ sessions played, history = sessions.flatten ++ played ∧
    List.Forall₂ (Serves clients) (exchanges w.replies i) sessions ∧
    ((w.clients i).running = none → played = []) ∧
    ∀ r, (w.clients i).running = some r → ∃ client ∈ clients,
      r.command.stream = clientStream client.1 client.2 ∧ played.map Prod.fst <+: client.1

section Clients

variable [F64 F] {threads : Nat} {env : Environment} {m : DashMap} {t : Instant}
  {clients : List (List StorageCommand × Socket)} {s : Server threads F}
  {program : Fin threads → List Job} {dropped : List Stream}

/-- Every connection given to a thread is one of a client. -/
theorem Dispatched.client_of_mem
    (h : Dispatched env m t (clientStreams clients) program dropped s) {i : Fin threads} {job : Job}
    (hjob : job ∈ program i) :
    ∃ client ∈ clients, job.stream = clientStream client.1 client.2 := by
  have haccepted := h.mem_accepted hjob
  rw [accepted_clientStreams] at haccepted
  obtain ⟨client, hclient, hstream⟩ := List.mem_map.mp haccepted
  exact ⟨client, hclient, hstream.symm⟩

/-- The clients that stand for the server tell the sessions of its threads, also
with an answer to the command under way. -/
theorem Enacts.sessions {w' : Clients (Fin threads) F}
    (h : Enacts env m t (clientStreams clients) program dropped s w')
    (hsend : ∀ client ∈ clients, ∀ c ∈ client.1, c.Sendable)
    (hcommands : ∀ i, ∀ c ∈ (program i).flatMap (Job.script F env), c.Sendable)
    (hshort : ∀ key, Sound (Stored Short) (m key)) (i : Fin threads)
    {more : List (StorageCommand × CommandResult F)}
    (hmore : more = [] ∨ ∃ r a, (w'.clients i).running = some r ∧ more = [(r.command, a)]) :
    Sessions clients s.workers i (exchanges w'.replies i ++ more) := by
  obtain ⟨_, hmodest⟩ := World.upholds_reaches (P := fun _ result => result.Modest) hshort
    (fun i c hc => upholds_call (hcommands i c hc)) h.reached
  have haccounts := h.dispatched.workers.accounts i
  obtain ⟨played, hclient, finished, hdone, hlengths, hhistory⟩ := h.performs.clients i
  refine ⟨finished.map fun f => (f.1.script F env).zip f.2, played ++ more, ?_, ?_,
    fun hidle => hclient.append_eq_nil hidle hmore, fun r hr => ?_⟩
  · rw [hhistory, List.flatMap_def, List.append_assoc]
  · rw [hdone, List.forall₂_map_left_iff, List.forall₂_map_right_iff, List.forall₂_same]
    intro f hf
    have hjob : f.1 ∈ program i := by
      rw [haccounts, hdone, List.map_map]
      exact List.mem_append_left _ (List.mem_map.mpr ⟨f, hf, rfl⟩)
    refine serves_of_script hsend env (h.dispatched.client_of_mem hjob) (hlengths f hf) ?_
    intro result hresult
    -- the result is one of the replies
    rw [← List.map_snd_zip (Nat.le_of_eq (hlengths f hf))] at hresult
    obtain ⟨exchange, hexchange, rfl⟩ := List.mem_map.mp hresult
    have hreplied : exchange ∈ exchanges w'.replies i := by
      rw [hhistory]
      exact List.mem_append_left _ (List.mem_flatMap.mpr ⟨f, hf, hexchange⟩)
    obtain ⟨reply, hreply, rfl⟩ := List.mem_map.mp hreplied
    exact hmodest reply (List.mem_of_mem_filter hreply)
  · have hjob : r.command ∈ program i := by
      rw [haccounts, hr]
      exact List.mem_append_right _ (List.mem_append_left _ (List.mem_singleton_self _))
    obtain ⟨⟨cs, socket⟩, hmem, hstream⟩ := h.dispatched.client_of_mem hjob
    refine ⟨(cs, socket), hmem, hstream, (hclient.isPrefix hr hmore).trans ?_⟩
    rw [eq_sessionJob hstream, script_sessionJob env (hsend _ hmem)]
    exact executed_isPrefix socket cs 0

/-- **What clients read.**  Any number of clients send storage commands as requests
within the caps, over any sockets, and a server with any number of threads serves
them in any interleaving.  Clients that run just the executed commands beside each
other reach the same store, and for every thread their replies are those of its
connections, one connection after the other: on each the first of the commands
that its client sent were executed, the client reads their responses up to where
its socket failed, and it misses at most the last; of the connection under way the
first commands have been executed. -/
theorem serve_received (hsend : ∀ client ∈ clients, ∀ c ∈ client.1, c.Sendable)
    (hs : (Server.new m t (clientStreams clients) : Server threads F).Reaches env s)
    (hshort : ∀ key, Sound (Stored Short) (m key)) :
    ∃ program dropped w', Enacts env m t (clientStreams clients) program dropped s w' ∧
      ∀ i, Sessions clients s.workers i (exchanges w'.replies i) := by
  obtain ⟨program, dropped, w', h, hcommands⟩ :=
    serve_enacts (asks_clientStreams hsend hsend env) hs
  refine ⟨program, dropped, w', h, fun i => ?_⟩
  have hsessions := h.sessions hsend hcommands hshort i (.inl rfl)
  rwa [List.append_nil] at hsessions

theorem serve_received_countingClients :
    ∃ program dropped w', Enacts ⟨none, none, none, none⟩ (fun _ => none) .origin
        (clientStreams countingClients) program dropped
        (twoThreads (clientStreams countingClients)) w' ∧
      ∀ i, Sessions countingClients (twoThreads (clientStreams countingClients)).workers i
        (exchanges w'.replies i) :=
  serve_received (s := twoThreads _) sendable_countingClients ⟨_, rfl⟩
    fun _ _ h => by contradiction

end Clients

end RalphDb
