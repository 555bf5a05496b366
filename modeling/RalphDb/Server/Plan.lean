import RalphDb.Base.Script
import RalphDb.Command.StorageCommand
import RalphDb.Server.Serve

/-!
# RalphDb.Server.Plan

What a connection asks of the store.

The bytes of a connection decide what it asks, whatever the store answers: the
version, the client name and the end of the loop depend on the connection
commands only.  `plan` is the loop with the store left out, a list of rounds
that are answered without it or ask one storage command.

The call of a connection is the storage commands of its plan one after the other
(`connectionCall_eq`).  So a server is its storage commands: whatever it reaches
while it serves any connections, clients that send the planned commands reach
with the same store (`connections_perform`).
-/

namespace RalphDb

open Base
open Base.Call

variable {F : Type}

/-! ## Plans -/

/-- A round as far as its bytes decide it, with the version it is answered
under. -/
inductive Planned (F : Type)
  | settled (answer : Answer F) (version : ProtocolVersion)
  | asks (command : Command) (c : StorageCommand) (version : ProtocolVersion)

def Planned.version : Planned F → ProtocolVersion
  | .settled _ version => version
  | .asks _ _ version => version

/-- The storage command of a round. -/
def Planned.asked : Planned F → Option StorageCommand
  | .settled _ _ => none
  | .asks _ c _ => some c

/-- The answer of a round. -/
def Planned.call : Planned F → StorageCall (Answer F)
  | .settled answer _ => pure answer
  | .asks command c _ => do
      let result ← c.call
      pure (.result command result)

/-- What `execute` answers to a command that needs no store. -/
def localAnswer (env : Environment) (command : Command) (state : ConnectionState) :
    CommandResult F × ConnectionState :=
  ((execute env command state).runAt .origin fun _ => none).1

section Plan

variable [F64 F] (env : Environment)

/-- The round of a frame, and the connection after it unless the loop is over. -/
def planFrame (frame : Frame F) (state : ConnectionState) :
    Planned F × Option ConnectionState :=
  match Command.fromFrameWithProtocol frame state.protocol with
  | .error message => (.settled (.refused message) state.protocol, some state)
  | .ok command =>
      match command.stored with
      | some c => (.asks command c state.protocol, some state)
      | none =>
          let (result, after) := localAnswer env command state
          (.settled (.result command result) after.protocol,
            if result.close then none else some after)

/-- The rounds of a connection. -/
def plan (reader : Reader) (state : ConnectionState) : List (Planned F) :=
  match _hrun : (decodeFrame : Read (Frame F)).run reader with
  | (.error err, reader') =>
      if _hends : endsLoop err then []
      else .settled .malformed state.protocol :: plan reader' state
  | (.ok frame, reader') =>
      match planFrame env frame state with
      | (p, none) => [p]
      | (p, some state) => p :: plan reader' state
termination_by reader.size
decreasing_by
  · exact size_lt_of_run _hrun fun err' heq => by
      rw [← Except.error.inj heq]
      exact Bool.eq_false_of_not_eq_true _hends
  · exact size_lt_of_run _hrun fun _ heq => by contradiction

/-- The plan of a connection. -/
def Job.plan (job : Job) : List (Planned F) := RalphDb.plan env job.reader (.fresh job.clientId)

end Plan

/-! ## The answers of a plan -/

section Answers

variable [F64 F]

/-- Send an answer. -/
def deliver (socket : Socket) (sent : List (Sent F)) (answer : Answer F)
    (version : ProtocolVersion) : Transcript F :=
  match socket sent.length with
  | none => ⟨sent ++ [⟨answer, answer.bytes version⟩], .ok ()⟩
  | some (taken, err) => ⟨sent ++ [⟨answer, (answer.bytes version).take taken⟩], .error err⟩

/-- The rounds that are reached, up to the first whose answer is not sent. -/
def reached (socket : Socket) : List (Planned F) → Nat → List (Planned F)
  | [], _ => []
  | p :: ps, n => p :: if (socket n).isNone then reached socket ps (n + 1) else []

/-- The answers of the rounds, those of the storage commands being given. -/
def transcribe (socket : Socket) :
    List (Planned F) → List (CommandResult F) → List (Sent F) → Transcript F
  | .settled answer version :: ps, results, sent =>
      let t := deliver socket sent answer version
      if (socket sent.length).isNone then transcribe socket ps results t.sent else t
  | .asks command _ version :: ps, result :: results, sent =>
      let t := deliver socket sent (.result command result) version
      if (socket sent.length).isNone then transcribe socket ps results t.sent else t
  | _, _, sent => ⟨sent, .ok ()⟩

/-- The storage commands that a connection sends, in order. -/
def Job.script (F : Type) [F64 F] (env : Environment) (job : Job) : List StorageCommand :=
  (reached job.socket (job.plan env : List (Planned F)) 0).filterMap Planned.asked

/-- The transcript of a connection, from the replies to its storage commands. -/
def Job.transcript (env : Environment) (job : Job) (results : List (CommandResult F)) :
    Transcript F := transcribe job.socket (job.plan env) results []

end Answers

/-! ## The loop follows the plan -/

/-- `QUIT` asks nothing. -/
theorem not_quit_of_stored {command : Command} {c : StorageCommand} (h : command.stored = some c) :
    (command.name == "QUIT") = false := by
  obtain ⟨name, args⟩ := command
  rw [beq_eq_false_iff_ne]
  rintro rfl
  contradiction

/-- A command that needs no store. -/
theorem execute_eq_localAnswer {env : Environment} {command : Command}
    {state : ConnectionState} (h : command.stored = none) :
    (execute env command state : StorageCall (CommandResult F × ConnectionState)) =
      pure (localAnswer env command state) := by
  obtain ⟨answer, heq⟩ : ∃ answer, (execute env command state : StorageCall _) =
    (pure answer : StorageCall (CommandResult F × ConnectionState)) := execute_of_not_stored h
  rw [localAnswer, heq, runAt_pure]

/-- What `execute` may answer, on any store. -/
theorem upholds_execute (env : Environment) (command : Command) (state : ConnectionState) :
    (execute env command state : StorageCall (CommandResult F × ConnectionState)).Upholds
      (fun _ => True)
      fun answer => Answers env (fun _ => True) (fun _ => True) command state answer.1 answer.2 :=
  execute_answers env ⟨fun _ => trivial, trivial⟩ (fun _ _ => trivial) trivial fun _ _ => trivial

section Follows

variable [F64 F] {env : Environment} {socket : Socket} {reader reader' : Reader}
  {state : ConnectionState} {sent : List (Sent F)}

theorem plan_ok {frame : Frame F} (h : decodeFrame.run reader = (.ok frame, reader')) :
    plan env reader state = (planFrame env frame state).1 ::
      match (planFrame env frame state).2 with
      | none => []
      | some state => plan env reader' state := by
  rw [plan]
  split
  · next heq =>
      rw [h] at heq
      cases heq
  · next heq =>
      rw [h] at heq
      obtain ⟨rfl, rfl⟩ : frame = _ ∧ reader' = _ := by simpa using heq
      rcases planFrame env frame state with ⟨p, _ | state⟩ <;> rfl

theorem plan_error {err : IoError}
    (h : (decodeFrame : Read (Frame F)).run reader = (.error err, reader')) :
    (plan env reader state : List (Planned F)) =
      if endsLoop err then []
      else .settled .malformed state.protocol :: plan env reader' state := by
  rw [plan]
  split
  · next heq =>
      rw [h] at heq
      obtain ⟨rfl, rfl⟩ : err = _ ∧ reader' = _ := by simpa using heq
      rfl
  · next heq =>
      rw [h] at heq
      cases heq

/-- The round of a frame answers as planned. -/
theorem respond_eq (frame : Frame F) :
    respond env socket frame state sent = (planFrame env frame state).1.call >>= fun answer =>
      pure (flush socket sent answer
        (.ok (), answer.bytes (planFrame env frame state).1.version)
        (planFrame env frame state).2) := by
  cases hparse : Command.fromFrameWithProtocol frame state.protocol with
  | error message =>
      simp only [respond, planFrame, hparse, Planned.call, Planned.version, encodeRefused_run]
      rfl
  | ok command =>
      have hcongr : respond env socket frame state sent =
          (execute env command state >>= fun answer => pure (flush socket sent
            (.result command answer.1)
            (.ok (), (Answer.result command answer.1).bytes answer.2.protocol)
            (if command.name == "QUIT" then none else some answer.2))) := by
        simp only [respond, hparse]
        refine bind_congr_of_upholds (upholds_execute env command state) fun answer hanswer => ?_
        rw [encodeResponse_run command (fits_of_answers hanswer), close_of_answers hanswer]
      rw [hcongr]
      cases hstored : command.stored with
      | some c =>
          simp only [execute_of_stored hstored, onStorage, bind_assoc, done_bind, planFrame, hparse,
            hstored, Planned.call, Planned.version, not_quit_of_stored hstored]
          rfl
      | none =>
          have hanswers := upholds_execute (F := F) env command state
          rw [execute_eq_localAnswer hstored] at hanswers
          have hclose := close_of_answers hanswers
          simp only [execute_eq_localAnswer hstored, done_bind, planFrame, hparse, hstored,
            Planned.call, Planned.version, ← hclose]

/-- An answer that is encoded is sent, and the loop goes on unless sending fails. -/
theorem flush_eq (answer : Answer F) (version : ProtocolVersion) (next : Option ConnectionState) :
    flush socket sent answer (.ok (), answer.bytes version) next =
      (deliver socket sent answer version, if (socket sent.length).isNone then next else none) := by
  cases hsocket : socket sent.length <;> simp only [flush, deliver, hsocket] <;> rfl

theorem length_deliver (answer : Answer F) (version : ProtocolVersion) :
    (deliver socket sent answer version).sent.length = sent.length + 1 := by
  cases hsocket : socket sent.length <;> simp [deliver, hsocket]

/-- An answer that was sent. -/
theorem deliver_of_sent (answer : Answer F) (version : ProtocolVersion)
    (h : (socket sent.length).isNone = true) :
    deliver socket sent answer version = ⟨(deliver socket sent answer version).sent, .ok ()⟩ := by
  rw [deliver, Option.isNone_iff_eq_none.mp h]

/-- The rounds one after the other, each answered when it has its answer. -/
def perform (socket : Socket) : List (Planned F) → List (Sent F) → StorageCall (Transcript F)
  | [], sent => pure ⟨sent, .ok ()⟩
  | p :: ps, sent => do
      let answer ← p.call
      let t := deliver socket sent answer p.version
      if (socket sent.length).isNone then perform socket ps t.sent else pure t

/-- The loop performs its plan. -/
theorem connectionLoop_eq_perform :
    (connectionLoop env socket reader state sent : StorageCall (Transcript F)) =
      perform socket (plan env reader state) sent := by
  induction hsize : reader.size using Nat.strong_induction_on generalizing reader state sent with
  | _ n ih =>
    rcases hrun : (decodeFrame : Read (Frame F)).run reader with ⟨err | frame, reader'⟩
    · rw [connectionLoop_error hrun, plan_error hrun]
      cases hends : endsLoop err with
      | true => rfl
      | false =>
          have hlt := size_lt_of_run hrun fun err' heq => by rw [← Except.error.inj heq, hends]
          rw [if_neg Bool.false_ne_true, if_neg Bool.false_ne_true, flush_eq]
          show proceed _ _ _ _ = ite _ _ _
          cases hsocket : (socket sent.length).isNone with
          | true => exact ih _ (hsize ▸ hlt) rfl
          | false => rfl
    · have hlt := size_lt_of_run hrun fun _ heq => by contradiction
      rw [connectionLoop_ok hrun, plan_ok hrun, respond_eq, bind_assoc, perform]
      refine congrArg ((planFrame env frame state).1.call >>= ·) (funext fun answer => ?_)
      rw [done_bind, flush_eq]
      cases hsocket : (socket sent.length).isNone with
      | false => rfl
      | true =>
          cases hnext : (planFrame env frame state).2 with
          | none => exact congrArg pure (deliver_of_sent answer _ hsocket)
          | some state' => exact ih _ (hsize ▸ hlt) rfl

/-- The storage commands of the rounds, one after the other, and the answers made
of theirs. -/
theorem perform_eq (ps : List (Planned F)) (sent : List (Sent F)) :
    perform socket ps sent =
      inOrder StorageCommand.call ((reached socket ps sent.length).filterMap Planned.asked) >>=
        fun results => pure (transcribe socket ps results sent) := by
  induction ps generalizing sent with
  | nil => rfl
  | cons p ps ih =>
      cases p with
      | settled answer version =>
          have hrest := ih (deliver socket sent answer version).sent
          rw [length_deliver] at hrest
          simp only [perform, reached, transcribe, Planned.call, Planned.version, Planned.asked,
            done_bind, List.filterMap_cons, hrest]
          cases hsocket : (socket sent.length).isNone <;> rfl
      | asks command c version =>
          simp only [perform, reached, Planned.call, Planned.version, Planned.asked,
            List.filterMap_cons, inOrder, bind_assoc, done_bind]
          refine congrArg (c.call >>= ·) (funext fun result => ?_)
          have hrest := ih (deliver socket sent (.result command result) version).sent
          rw [length_deliver] at hrest
          simp only [transcribe, hrest]
          cases hsocket : (socket sent.length).isNone <;> rfl

end Follows

/-! ## Connections beside each other -/

/-- Clients that serve connections, one after the other. -/
abbrev Connections (ι F : Type) : Type := World ι Key Entry Instant Job (Transcript F)

section Connections

variable [F64 F] (env : Environment)

/-- **A connection is its storage commands**, one after the other. -/
theorem connectionCall_eq (job : Job) :
    (connectionCall env job : StorageCall (Transcript F)) =
      inOrder StorageCommand.call (job.script F env) >>= fun results =>
        pure (job.transcript env results) :=
  connectionLoop_eq_perform.trans (perform_eq _ _)

/-- Whatever serving some connections reaches, sending their commands reaches. -/
theorem connections_performed {ι : Type} [DecidableEq ι] {m : DashMap} {t : Instant}
    {program : ι → List Job} {w : Connections ι F}
    (hw : (World.start m t program).Reaches (connectionCall env) w) :
    World.Performed StorageCommand.call (Job.script F env) (Job.transcript env)
      (World.start m t fun i => (program i).flatMap (Job.script F env)) w :=
  scripts_reaches (connectionCall_eq env) hw

/-- **A server is its storage commands.**  Whatever connections are served, from
any bytes, over any sockets and in any interleaving, as long as the stacks of the
threads hold what the bytes nest: clients that send the storage commands of these
bytes, in order, reach the same store at the same time; each connection that is
over got the answers of its plan, made of the replies to its commands; and the
commands answered besides are the first of the connection under way. -/
theorem connections_perform {ι : Type} [DecidableEq ι] {m : DashMap} {t : Instant}
    {program : ι → List Job} {w : Connections ι F}
    (hw : (World.start m t program).Reaches (connectionCall env) w) :
    ∃ w' : World ι Key Entry Instant StorageCommand (CommandResult F),
      (World.start m t fun i => (program i).flatMap (Job.script F env)).Reaches
        StorageCommand.call w' ∧
      w'.shared = w.shared ∧ w'.clock = w.clock ∧
      ∀ i, ∃ (finished : List (Job × List (CommandResult F)))
        (played : List (StorageCommand × CommandResult F)),
        exchanges w.replies i = finished.map (fun f => (f.1, f.1.transcript env f.2)) ∧
        (∀ f ∈ finished, f.2.length = (f.1.script F env).length) ∧
        exchanges w'.replies i =
          (finished.flatMap fun f => (f.1.script F env).zip f.2) ++ played ∧
        ((w.clients i).running = none → played = []) ∧
        ∀ r, (w.clients i).running = some r →
          played.map Prod.fst <+: r.command.script F env := by
  obtain ⟨w', hw', hperforms⟩ := connections_performed env hw
  refine ⟨w', hw', hperforms.shared, hperforms.clock, fun i => ?_⟩
  obtain ⟨played, hclient, finished, hdone, hlengths, hdone'⟩ := hperforms.clients i
  refine ⟨finished, played, hdone, hlengths, hdone', hclient.played_eq_nil, fun r hr => ?_⟩
  have hfirst := hclient.isPrefix hr (.inl rfl)
  rwa [List.append_nil] at hfirst

end Connections

/-- Two connections at once: `INCR k` and an empty line, and `GET k` over a socket
that fails. -/
def incrAndGet : Bool → List Job := fun i =>
  if i then [⟨⟨utf8 "INCR k\n\n", .eof⟩, 1, .open⟩]
  else [⟨⟨utf8 "GET k\n", .eof⟩, 2, fun _ => some (1, ⟨.timedOut, ""⟩)⟩]

/-- They take turns. -/
def servedBoth : Connections Bool WholeDouble :=
  (World.start (fun _ => none) .origin incrAndGet).run (connectionCall ⟨none, none, none, none⟩)
    [.turn true, .turn false, .turn true, .turn false]

theorem connections_perform_servedBoth :
    ∃ w' : World Bool Key Entry Instant StorageCommand (CommandResult WholeDouble),
      (World.start (fun _ => none) .origin fun i =>
        (incrAndGet i).flatMap (Job.script WholeDouble ⟨none, none, none, none⟩)).Reaches
          StorageCommand.call w' ∧
      w'.shared = servedBoth.shared ∧ w'.clock = servedBoth.clock ∧
      ∀ i, ∃ (finished : List (Job × List (CommandResult WholeDouble)))
        (played : List (StorageCommand × CommandResult WholeDouble)),
        exchanges servedBoth.replies i =
          finished.map (fun f => (f.1, f.1.transcript ⟨none, none, none, none⟩ f.2)) ∧
        (∀ f ∈ finished,
          f.2.length = (f.1.script WholeDouble ⟨none, none, none, none⟩).length) ∧
        exchanges w'.replies i = (finished.flatMap fun f =>
          (f.1.script WholeDouble ⟨none, none, none, none⟩).zip f.2) ++ played ∧
        ((servedBoth.clients i).running = none → played = []) ∧
        ∀ r, (servedBoth.clients i).running = some r →
          played.map Prod.fst <+: r.command.script WholeDouble ⟨none, none, none, none⟩ :=
  connections_perform ⟨none, none, none, none⟩ ⟨_, rfl⟩

end RalphDb
