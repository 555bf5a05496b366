import RalphDb.Server.Connection

/-!
# RalphDb.Server.Serve

Serving a connection beside others.

`connectionCall` is `handle_connection` as one call on the shared store: between
the accesses of its commands other connections are served.  The answers go to a
socket, which may fail, and then the loop is over.  With nothing else running
and a socket that does not fail it is the loop of `RalphDb.Server.Connection`
(`connectionCall_runOn`).
-/

namespace RalphDb

open Base
open Base.Call
open Base.Fallible

variable {F : Type}

/-! ## The loop as a call -/

/-- What a socket makes of the answers: for each, that it is sent, or after how
many bytes writing fails, and how. -/
abbrev Socket : Type := Nat → Option (Nat × IoError)

/-- A socket that does not fail. -/
def Socket.open : Socket := fun _ => none

/-- A connection to serve: what it will send, the client id drawn for it and its
socket. -/
structure Job where
  reader : Reader
  clientId : Int64
  socket : Socket

/-- The answers of a connection, as far as they were sent, and the result of
`handle_connection`. -/
structure Transcript (F : Type) where
  sent : List (Sent F)
  outcome : Except IoError Unit

/-- Encode an answer and flush it.  The loop goes on from `next` unless either
fails. -/
def flush (socket : Socket) (sent : List (Sent F)) (answer : Answer F)
    (encoded : Except IoError Unit × List UInt8) (next : Option ConnectionState) :
    Transcript F × Option ConnectionState :=
  match encoded, socket sent.length with
  | (.error err, bytes), _ => (⟨sent ++ [⟨answer, bytes⟩], .error err⟩, none)
  | (.ok (), bytes), none => (⟨sent ++ [⟨answer, bytes⟩], .ok ()⟩, next)
  | (.ok (), bytes), some (taken, err) =>
      (⟨sent ++ [⟨answer, bytes.take taken⟩], .error err⟩, none)

section Loop

variable [F64 F] (env : Environment) (socket : Socket)

/-- Answer a frame. -/
def respond (frame : Frame F) (state : ConnectionState) (sent : List (Sent F)) :
    StorageCall (Transcript F × Option ConnectionState) :=
  match Command.fromFrameWithProtocol frame state.protocol with
  | .error message =>
      pure (flush socket sent (.refused message)
        ((encodeFrame (.error message : Frame F) state.protocol).run []) (some state))
  | .ok command => do
      let (result, state) ← execute env command state
      pure (flush socket sent (.result command result)
        ((encodeResponse result.response result.attributes state.protocol).run [])
        (if result.close then none else some state))

/-- The loop of `handle_connection`.  An error in encoding the answer to bytes
that are no frame is ignored. -/
def connectionLoop (reader : Reader) (state : ConnectionState) (sent : List (Sent F)) :
    StorageCall (Transcript F) :=
  match _hrun : (decodeFrame : Read (Frame F)).run reader with
  | (.error err, reader') =>
      if _hends : endsLoop err then pure ⟨sent, .ok ()⟩
      else
        match flush socket sent .malformed
          (.ok (), ((encodeFrame (malformedFrame : Frame F) state.protocol).run []).2)
          (some state) with
        | (t, none) => pure t
        | (t, some state) => connectionLoop reader' state t.sent
  | (.ok frame, reader') => do
      match ← respond env socket frame state sent with
      | (t, none) => pure t
      | (t, some state) => connectionLoop reader' state t.sent
termination_by reader.size
decreasing_by
  · exact size_lt_of_run _hrun fun err' heq => by
      rw [← Except.error.inj heq]
      exact Bool.eq_false_of_not_eq_true _hends
  · exact size_lt_of_run _hrun fun _ heq => by contradiction

/-- `handle_connection`. -/
def connectionCall (job : Job) : StorageCall (Transcript F) :=
  connectionLoop env job.socket job.reader (.fresh job.clientId) []

end Loop

/-! ## The loop, by what the decoder answers -/

section Equations

variable [F64 F] {env : Environment} {socket : Socket} {reader reader' : Reader}
  {state : ConnectionState} {sent : List (Sent F)}

/-- The rest of the loop after an answer. -/
def proceed (env : Environment) (socket : Socket) (reader : Reader)
    (flushed : Transcript F × Option ConnectionState) : StorageCall (Transcript F) :=
  match flushed with
  | (t, none) => pure t
  | (t, some state) => connectionLoop env socket reader state t.sent

theorem connectionLoop_ok {frame : Frame F} (h : decodeFrame.run reader = (.ok frame, reader')) :
    connectionLoop env socket reader state sent =
      (respond env socket frame state sent >>= proceed env socket reader') := by
  rw [connectionLoop]
  split
  · next heq =>
      rw [h] at heq
      cases heq
  · next heq =>
      rw [h] at heq
      obtain ⟨rfl, rfl⟩ : frame = _ ∧ reader' = _ := by simpa using heq
      refine congrArg (respond env socket frame state sent >>= ·) (funext fun flushed => ?_)
      match flushed with
      | (t, none) => rfl
      | (t, some state) => rfl

theorem connectionLoop_error {err : IoError}
    (h : (decodeFrame : Read (Frame F)).run reader = (.error err, reader')) :
    connectionLoop env socket reader state sent =
      if endsLoop err then pure ⟨sent, .ok ()⟩
      else proceed env socket reader' (flush socket sent .malformed
        (.ok (), (Answer.malformed : Answer F).bytes state.protocol) (some state)) := by
  rw [connectionLoop]
  split
  · next heq =>
      rw [h] at heq
      obtain ⟨rfl, rfl⟩ : err = _ ∧ reader' = _ := by simpa using heq
      split
      · rfl
      · rw [Answer.bytes]
        rcases flush socket sent _ _ _ with ⟨t, _ | state⟩ <;> rfl
  · next heq =>
      rw [h] at heq
      cases heq

/-! ## Nothing else running -/

/-- The answers that the version can carry are encoded. -/
theorem encodeResponse_run (command : Command) {result : CommandResult F}
    {version : ProtocolVersion} (h : result.Fits version) :
    (encodeResponse result.response result.attributes version).run [] =
      (.ok (), (Answer.result command result).bytes version) := by
  obtain ⟨w, hw⟩ := h.1
  rw [Answer.bytes, hw []]

theorem encodeRefused_run (message : String) (version : ProtocolVersion) :
    (encodeFrame (.error message : Frame F) version).run [] =
      (.ok (), (Answer.refused message : Answer F).bytes version) := by
  obtain ⟨w, hw⟩ : ∃ w, Writes (encodeFrame (.error message : Frame F) version) w :=
    writes_encodeFrame _ (.leaf rfl (Frame.Plain.spelled (f := .error message) trivial _))
  rw [Answer.bytes, hw []]

theorem respond_runOn (clock : Nat → Instant) (frame : Frame F) (s : Served) :
    (respond env .open frame s.state sent).runOn clock s.ticks s.storage =
      ((⟨sent ++ [sentFor env clock frame s], .ok ()⟩,
        if (answerTo env clock frame s).1.quits then none
        else some (answerTo env clock frame s).2.state),
        (answerTo env clock frame s).2.ticks, (answerTo env clock frame s).2.storage) := by
  cases hparse : Command.fromFrameWithProtocol frame s.state.protocol with
  | error message =>
      have hanswer : answerTo env clock frame s = (.refused message, s) := by
        simp only [answerTo, hparse]
      simp only [respond, hparse, encodeRefused_run, sentFor, hanswer, Answer.quits]
      rfl
  | ok command =>
      have hanswer : answerTo env clock frame s =
          (.result command (serve env clock command s : CommandResult F × Served).1,
            (serve env clock command s : CommandResult F × Served).2) := by
        simp only [answerTo, hparse]
      have hanswers := answers_serve (F := F) env clock command s
      have hrun := encodeResponse_run command (fits_of_answers hanswers)
      have hclose := close_of_answers hanswers
      have hserve : (execute env command s.state).runOn clock s.ticks s.storage =
          (((serve env clock command s : CommandResult F × Served).1,
            (serve env clock command s : CommandResult F × Served).2.state),
            (serve env clock command s : CommandResult F × Served).2.ticks,
            (serve env clock command s : CommandResult F × Served).2.storage) := rfl
      simp only [respond, hparse, sentFor, hanswer, Answer.quits, ← hclose, runOn_bind, hserve,
        runOn_pure, hrun]
      rfl

/-- **The levels agree**: the call, run with nothing beside it, is the loop over
the connection and the store. -/
theorem connectionLoop_runOn (clock : Nat → Instant) (c : Connection F) :
    (connectionLoop env .open c.reader c.served.state c.sent).runOn clock c.served.ticks
        c.served.storage =
      (⟨(handleConnection env clock c).1.sent, (handleConnection env clock c).2⟩,
        (handleConnection env clock c).1.served.ticks,
        (handleConnection env clock c).1.served.storage) := by
  induction c using Connection.loop_induction (F := F) env clock with
  | ends c err reader hrun hends =>
      rw [connectionLoop_error hrun, handleConnection_error hrun, if_pos hends, if_pos hends]
      rfl
  | malformed c err reader hrun hends ih =>
      have hgoes : ¬ endsLoop err = true := by rw [hends]; exact Bool.false_ne_true
      rw [connectionLoop_error hrun, handleConnection_error hrun, if_neg hgoes, if_neg hgoes]
      exact ih
  | answered c frame reader hrun ih =>
      rw [connectionLoop_ok hrun, handleConnection_ok hrun, runOn_bind, respond_runOn]
      cases hquits : (answerTo env clock frame c.served).1.quits with
      | true => rfl
      | false => exact ih

end Equations

/-- `handle_connection` on an idle server. -/
theorem connectionCall_runOn [F64 F] (env : Environment) (clock : Nat → Instant) (reader : Reader)
    (clientId : Int64) (storage : DashMap) (ticks : Nat) :
    let after := handleConnection (F := F) env clock
      ⟨reader, ⟨.fresh clientId, storage, ticks⟩, []⟩
    (connectionCall env ⟨reader, clientId, .open⟩).runOn clock ticks storage =
      (⟨after.1.sent, after.2⟩, after.1.served.ticks, after.1.served.storage) :=
  connectionLoop_runOn clock ⟨reader, ⟨.fresh clientId, storage, ticks⟩, []⟩

end RalphDb
