import RalphDb.Command.Session
import RalphDb.Protocol.Request

/-!
# RalphDb.Server.Connection

The loop that serves a connection.

A round decodes a frame, answers it and flushes the answer.  A read that meets
the end of the stream, or a silent socket, ends the loop; another decoding
error is answered with an error and the loop goes on where the decoder stopped.
Every round that does not end the loop has taken a byte, so the loop ends
(`handleConnection`).
-/

namespace RalphDb

open Base
open Base.Fallible

variable {F : Type}

/-! ## The loop -/

/-- What a round answers: the result of a command, the refusal of a frame that
is no command, or the refusal of bytes that are no frame. -/
inductive Answer (F : Type)
  | result (command : Command) (result : CommandResult F)
  | refused (message : String)
  | malformed

/-- An answer and the bytes that were flushed for it. -/
structure Sent (F : Type) where
  answer : Answer F
  bytes : List UInt8

/-- A connection between two rounds. -/
structure Connection (F : Type) where
  reader : Reader
  served : Served
  sent : List (Sent F)

/-- The round flushes an answer. -/
def Connection.send (c : Connection F) (answer : Answer F) (bytes : List UInt8) : Connection F :=
  { c with sent := c.sent ++ [⟨answer, bytes⟩] }

/-- How a round ends: the loop goes on, or it is over with the result of
`handle_connection`. -/
inductive Round (F : Type)
  | next (c : Connection F)
  | stop (c : Connection F) (outcome : Except IoError Unit)

section Loop

variable [F64 F] (env : Environment) (clock : Nat → Instant)

/-- Answer a frame. -/
def answerFrame (frame : Frame F) (c : Connection F) : Round F :=
  match Command.fromFrameWithProtocol frame c.served.state.protocol with
  | .error message =>
      match (encodeFrame (.error message : Frame F) c.served.state.protocol).run [] with
      | (.error err, bytes) => .stop (c.send (.refused message) bytes) (.error err)
      | (.ok (), bytes) => .next (c.send (.refused message) bytes)
  | .ok command =>
      let (result, served) := serve env clock command c.served
      let c := { c with served := served }
      match (encodeResponse result.response result.attributes served.state.protocol).run [] with
      | (.error err, bytes) => .stop (c.send (.result command result) bytes) (.error err)
      | (.ok (), bytes) =>
          let c := c.send (.result command result) bytes
          if result.close then .stop c (.ok ()) else .next c

/-- The errors that end the loop: a socket that stays silent, the end of the
stream. -/
def endsLoop (err : IoError) : Bool :=
  err.kind == .wouldBlock || err.kind == .timedOut || err.kind == .unexpectedEof

/-- The answer to bytes that are no frame. -/
def malformedFrame : Frame F := .error "ERR malformed frame"

/-- One round of the loop in `handle_connection`. -/
def round (c : Connection F) : Round F :=
  match decodeFrame.run c.reader with
  | (.error err, reader) =>
      let c := { c with reader := reader }
      if endsLoop err then .stop c (.ok ())
      else
        .next (c.send .malformed
          ((encodeFrame (malformedFrame : Frame F) c.served.state.protocol).run []).2)
  | (.ok frame, reader) => answerFrame env clock frame { c with reader := reader }

end Loop

/-! ## The loop ends -/

section Ends

variable [F64 F] {env : Environment} {clock : Nat → Instant} {c c' : Connection F}

theorem reader_answerFrame {frame : Frame F} (h : answerFrame env clock frame c = .next c') :
    c'.reader = c.reader := by
  unfold answerFrame at h
  split at h
  · split at h
    · contradiction
    · rw [← Round.next.inj h]
      rfl
  · dsimp only at h
    split at h
    · contradiction
    · split at h
      · contradiction
      · rw [← Round.next.inj h]
        rfl

theorem endsLoop_ending (e : Ending) : endsLoop e.error = true := by
  cases e <;> rfl

/-- Unless it ends the loop, the decoder takes a byte. -/
theorem size_lt_of_run {answer : Except IoError (Frame F)} {r reader : Reader}
    (h : decodeFrame.run r = (answer, reader))
    (hgoes : ∀ err, answer = .error err → endsLoop err = false) : reader.size < r.size := by
  have hbytes : r.unread ≠ [] := by
    intro hnil
    obtain ⟨unread, e⟩ := r
    obtain rfl : unread = [] := hnil
    rw [decodeFrame_nil] at h
    have hends := hgoes _ (Prod.mk.inj h).1.symm
    rw [endsLoop_ending] at hends
    contradiction
  have hlt := size_decodeFrame_lt (F := F) hbytes
  rw [h] at hlt
  exact hlt

/-- A round after which the loop goes on has taken a byte. -/
theorem size_round_lt (h : round env clock c = .next c') : c'.reader.size < c.reader.size := by
  unfold round at h
  split at h
  · next err reader hrun =>
      dsimp only at h
      split at h
      · contradiction
      · next hgoes =>
          rw [← Round.next.inj h]
          exact size_lt_of_run hrun fun err' heq => by
            rw [← Except.error.inj heq]
            exact Bool.eq_false_of_not_eq_true hgoes
  · next frame reader hrun =>
      rw [reader_answerFrame h]
      exact size_lt_of_run hrun fun _ heq => by contradiction

end Ends

/-- `handle_connection`: the connection it leaves and its result. -/
def handleConnection [F64 F] (env : Environment) (clock : Nat → Instant) (c : Connection F) :
    Connection F × Except IoError Unit :=
  match _hround : round env clock c with
  | .stop c' outcome => (c', outcome)
  | .next c' => handleConnection env clock c'
termination_by c.reader.size
decreasing_by exact size_round_lt _hround

section Rounds

variable [F64 F] {env : Environment} {clock : Nat → Instant} {c c' : Connection F}

theorem handleConnection_stop {outcome : Except IoError Unit}
    (h : round env clock c = .stop c' outcome) : handleConnection env clock c = (c', outcome) := by
  rw [handleConnection]
  split
  · next heq =>
      rw [h] at heq
      obtain ⟨rfl, rfl⟩ := Round.stop.inj heq
      rfl
  · next heq =>
      rw [h] at heq
      contradiction

theorem handleConnection_next (h : round env clock c = .next c') :
    handleConnection env clock c = handleConnection env clock c' := by
  rw [handleConnection]
  split
  · next heq =>
      rw [h] at heq
      contradiction
  · next heq =>
      rw [h] at heq
      rw [Round.next.inj heq]

/-! ## What a round answers -/

/-- The bytes of an answer under a version. -/
def Answer.bytes (answer : Answer F) (version : ProtocolVersion) : List UInt8 :=
  match answer with
  | .result _ r => ((encodeResponse r.response r.attributes version).run []).2
  | .refused message => ((encodeFrame (.error message : Frame F) version).run []).2
  | .malformed => ((encodeFrame (malformedFrame : Frame F) version).run []).2

/-- The answer to a frame, and the connection afterwards. -/
def answerTo (env : Environment) (clock : Nat → Instant) (frame : Frame F) (s : Served) :
    Answer F × Served :=
  match Command.fromFrameWithProtocol frame s.state.protocol with
  | .error message => (.refused message, s)
  | .ok command =>
      let served := serve env clock command s
      (.result command served.1, served.2)

/-- The frame was the command `QUIT`. -/
def Answer.quits : Answer F → Bool
  | .result command _ => command.name == "QUIT"
  | _ => false

/-- The answer that is flushed, with its bytes. -/
def sentFor (env : Environment) (clock : Nat → Instant) (frame : Frame F) (s : Served) : Sent F :=
  let answer := answerTo env clock frame s
  ⟨answer.1, answer.1.bytes answer.2.state.protocol⟩

/-- The connection after the answer to a frame. -/
def Connection.answered (env : Environment) (clock : Nat → Instant) (frame : Frame F)
    (c : Connection F) : Connection F :=
  { c with
    served := (answerTo env clock frame c.served).2
    sent := c.sent ++ [sentFor env clock frame c.served] }

/-- Every answer is encoded: the loop never ends with an error.  It is over
after a `QUIT`. -/
theorem answerFrame_eq (frame : Frame F) (c : Connection F) :
    answerFrame env clock frame c =
      if (answerTo env clock frame c.served).1.quits then
        .stop (c.answered env clock frame) (.ok ())
      else .next (c.answered env clock frame) := by
  cases hparse : Command.fromFrameWithProtocol frame c.served.state.protocol with
  | error message =>
      have hanswer : answerTo env clock frame c.served = (.refused message, c.served) := by
        simp only [answerTo, hparse]
      obtain ⟨w, hw⟩ : ∃ w, Writes (encodeFrame (.error message : Frame F)
          c.served.state.protocol) w := writes_encodeFrame _ (.leaf rfl
        (Frame.Plain.spelled (f := .error message) trivial _))
      simp only [answerFrame, hparse, hw [], Connection.answered, sentFor, hanswer, Answer.quits,
        Answer.bytes, Connection.send, Bool.false_eq_true, if_false]
  | ok command =>
      have hanswer : answerTo env clock frame c.served =
          (.result command (serve env clock command c.served : CommandResult F × Served).1,
            (serve env clock command c.served : CommandResult F × Served).2) := by
        simp only [answerTo, hparse]
      have hanswers := answers_serve (F := F) env clock command c.served
      obtain ⟨w, hw⟩ := (fits_of_answers hanswers).1
      simp only [answerFrame, hparse, hw [], Connection.answered, sentFor, hanswer, Answer.quits,
        Answer.bytes, Connection.send, close_of_answers hanswers]

/-- A round that decodes a frame. -/
theorem round_ok {frame : Frame F} {reader : Reader}
    (h : decodeFrame.run c.reader = (.ok frame, reader)) :
    round env clock c = answerFrame env clock frame { c with reader := reader } := by
  simp only [round, h]

/-- The connection after bytes that are no frame. -/
def Connection.malformed (reader : Reader) (c : Connection F) : Connection F :=
  { c with
    reader := reader
    sent := c.sent ++ [⟨.malformed, (Answer.malformed : Answer F).bytes c.served.state.protocol⟩] }

/-- A round that decodes no frame. -/
theorem round_error {err : IoError} {reader : Reader}
    (h : (decodeFrame : Read (Frame F)).run c.reader = (.error err, reader)) :
    round env clock c =
      if endsLoop err then .stop { c with reader := reader } (.ok ())
      else .next (c.malformed reader) := by
  simp only [round, h, Connection.send, Connection.malformed, Answer.bytes]

end Rounds

/-! ## The loop, by what the decoder answers -/

section Equations

variable [F64 F] {env : Environment} {clock : Nat → Instant} {c : Connection F} {reader : Reader}

/-- The loop on a frame. -/
theorem handleConnection_ok {frame : Frame F} (h : decodeFrame.run c.reader = (.ok frame, reader)) :
    handleConnection env clock c =
      if (answerTo env clock frame c.served).1.quits then
        (Connection.answered env clock frame { c with reader := reader }, .ok ())
      else
        handleConnection env clock
          (Connection.answered env clock frame { c with reader := reader }) := by
  have hround : round env clock c = _ := round_ok h
  rw [answerFrame_eq] at hround
  split at hround
  · next hquits => rw [handleConnection_stop hround, if_pos hquits]
  · next hgoes => rw [handleConnection_next hround, if_neg hgoes]

/-- The same, from the parts of the connection. -/
theorem handleConnection_decoded {frame : Frame F} {r : Reader}
    (h : decodeFrame.run r = (.ok frame, reader)) (s : Served) (sent : List (Sent F)) :
    handleConnection env clock ⟨r, s, sent⟩ =
      if (answerTo env clock frame s).1.quits then
        (Connection.answered env clock frame ⟨reader, s, sent⟩, .ok ())
      else handleConnection env clock (Connection.answered env clock frame ⟨reader, s, sent⟩) :=
  handleConnection_ok h

/-- The loop on bytes that are no frame. -/
theorem handleConnection_error {err : IoError}
    (h : (decodeFrame : Read (Frame F)).run c.reader = (.error err, reader)) :
    handleConnection env clock c =
      if endsLoop err then ({ c with reader := reader }, .ok ())
      else handleConnection env clock (c.malformed reader) := by
  have hround : round env clock c = _ := round_error h
  split at hround
  · next hends => rw [handleConnection_stop hround, if_pos hends]
  · next hgoes => rw [handleConnection_next hround, if_neg hgoes]

/-- The same, from the parts of the connection. -/
theorem handleConnection_undecoded {err : IoError} {r : Reader}
    (h : (decodeFrame : Read (Frame F)).run r = (.error err, reader)) (s : Served)
    (sent : List (Sent F)) :
    handleConnection env clock ⟨r, s, sent⟩ =
      if endsLoop err then (⟨reader, s, sent⟩, .ok ())
      else handleConnection env clock (Connection.malformed reader ⟨r, s, sent⟩) :=
  handleConnection_error h

/-- The loop at the end of the stream. -/
theorem handleConnection_nil (e : Ending) (s : Served) (sent : List (Sent F)) :
    handleConnection env clock ⟨⟨[], e⟩, s, sent⟩ = (⟨⟨[], e⟩, s, sent⟩, .ok ()) := by
  rw [handleConnection_undecoded (decodeFrame_nil e), if_pos (endsLoop_ending e)]

/-- **Induction over the loop**: a property that a connection inherits from the
connection after its next answer, and has when the loop ends, it has. -/
theorem Connection.loop_induction (env : Environment) (clock : Nat → Instant)
    {motive : Connection F → Prop}
    (ends : ∀ c err reader, (decodeFrame : Read (Frame F)).run c.reader = (.error err, reader) →
      endsLoop err = true → motive c)
    (malformed : ∀ c err reader,
      (decodeFrame : Read (Frame F)).run c.reader = (.error err, reader) →
      endsLoop err = false → motive (c.malformed reader) → motive c)
    (answered : ∀ c frame reader, decodeFrame.run c.reader = (.ok frame, reader) →
      motive (Connection.answered env clock frame { c with reader := reader }) → motive c)
    (c : Connection F) : motive c := by
  induction hsize : c.reader.size using Nat.strong_induction_on generalizing c with
  | _ n ih =>
    rcases hrun : (decodeFrame : Read (Frame F)).run c.reader with ⟨err | frame, reader⟩
    · cases hends : endsLoop err with
      | true => exact ends c err reader hrun hends
      | false =>
          have hlt := size_lt_of_run hrun fun err' heq => by rw [← Except.error.inj heq, hends]
          exact malformed c err reader hrun hends (ih _ (hsize ▸ hlt) _ rfl)
    · have hlt := size_lt_of_run hrun fun _ heq => by contradiction
      exact answered c frame reader hrun (ih _ (hsize ▸ hlt) _ rfl)

end Equations

end RalphDb
