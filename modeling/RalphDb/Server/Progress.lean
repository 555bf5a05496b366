import RalphDb.Base.Loop
import RalphDb.Server.Connection

/-!
# RalphDb.Server.Progress

The connection loop always makes progress.

Bytes that are no frame do not close a connection, nor does a frame that is no
command.  Still no stream keeps the loop busy for longer than it lasts: every
round that is answered has taken a byte (`Connection.Advances`), and where no
byte is left the decoder reports the end of the stream, which ends the loop.
-/

namespace RalphDb

open Base
open Base.Fallible

variable {F : Type} {c c' : Connection F}

/-! ## Answers and bytes -/

/-- A byte is taken and one answer is sent. -/
structure Connection.Advances (c c' : Connection F) : Prop where
  shorter : c'.reader.unread.length < c.reader.unread.length
  answered : ∃ reply, c'.sent = c.sent ++ [reply]

/-- Every answer after `sent` was paid for with a byte of those received. -/
def Connection.Paid (sent : List (Sent F)) (received : Nat) (c : Connection F) : Prop :=
  ∃ answers, c.sent = sent ++ answers ∧ answers.length + c.reader.size ≤ received

theorem Connection.Advances.paid {sent : List (Sent F)} {received : Nat} (h : c.Advances c')
    (hc : c.Paid sent received) : c'.Paid sent received := by
  obtain ⟨answers, hsent, hle⟩ := hc
  obtain ⟨reply, hreply⟩ := h.answered
  have hlt : c'.reader.size < c.reader.size := h.shorter
  refine ⟨answers ++ [reply], by rw [hreply, hsent, List.append_assoc], ?_⟩
  rw [List.length_append, List.length_singleton]
  omega

/-! ## Rounds -/

variable [F64 F] {env : Environment} {clock : Nat → Instant}

/-- The loop goes on from `c` to `c'`. -/
def Connection.Goes (env : Environment) (clock : Nat → Instant) (c c' : Connection F) : Prop :=
  round env clock c = .next c'

/-- A frame, whatever is answered to it. -/
theorem advances_answered {frame : Frame F} {reader : Reader}
    (h : decodeFrame.run c.reader = (.ok frame, reader)) :
    c.Advances (Connection.answered env clock frame { c with reader := reader }) where
  shorter := size_lt_of_run h fun _ heq => by contradiction
  answered := ⟨_, rfl⟩

/-- Bytes that are no frame. -/
theorem advances_malformed {err : IoError} {reader : Reader}
    (h : (decodeFrame : Read (Frame F)).run c.reader = (.error err, reader))
    (hgoes : endsLoop err = false) : c.Advances (c.malformed reader) where
  shorter := size_lt_of_run h fun err' heq => by rw [← Except.error.inj heq, hgoes]
  answered := ⟨_, rfl⟩

/-- What a round does: the loop goes on after an answer, or it is over, after
an answer or without one. -/
theorem round_cases (env : Environment) (clock : Nat → Instant) (c : Connection F) :
    (∃ c', round env clock c = .next c' ∧ c.Advances c') ∨
    ∃ c', round env clock c = .stop c' (.ok ()) ∧ (c'.sent = c.sent ∨ c.Advances c') := by
  rcases hrun : (decodeFrame : Read (Frame F)).run c.reader with ⟨err | frame, reader⟩
  · have hround : round env clock c = _ := round_error hrun
    cases hends : endsLoop err with
    | true =>
        rw [hends, if_pos rfl] at hround
        exact .inr ⟨_, hround, .inl rfl⟩
    | false =>
        rw [hends] at hround
        exact .inl ⟨_, hround, advances_malformed hrun hends⟩
  · have hround : round env clock c = _ := round_ok hrun
    rw [answerFrame_eq] at hround
    split at hround
    · exact .inr ⟨_, hround, .inr (advances_answered hrun)⟩
    · exact .inl ⟨_, hround, advances_answered hrun⟩

theorem advances_of_goes (h : c.Goes env clock c') : c.Advances c' := by
  rcases round_cases env clock c with ⟨c'', hround, hadvances⟩ | ⟨c'', hround, -⟩
  · rw [Connection.Goes, hround] at h
    rwa [← Round.next.inj h]
  · rw [Connection.Goes, hround] at h
    contradiction

/-- Rounds after which the loop goes on end in the same result. -/
theorem handleConnection_rounds {n : Nat} (h : Rounds (Connection.Goes env clock) n c c') :
    handleConnection env clock c = handleConnection env clock c' := by
  induction h with
  | refl c => rfl
  | head round rest ih => rw [handleConnection_next round, ih]

/-- No round changes how the stream ends. -/
theorem ending_of_goes (h : c.Goes env clock c') : c'.reader.ending = c.reader.ending := by
  have hending := ending_decodeFrame (F := F) c.reader
  rcases hrun : (decodeFrame : Read (Frame F)).run c.reader with ⟨err | frame, reader⟩
  · rw [hrun] at hending
    have hround : round env clock c = _ := round_error hrun
    rw [Connection.Goes, hround] at h
    split at h
    · contradiction
    · rw [← Round.next.inj h]
      exact hending
  · rw [hrun] at hending
    rw [Connection.Goes, round_ok hrun] at h
    rw [reader_answerFrame h]
    exact hending

/-- **The connection loop always makes progress.**  On a stream that ends, every
round either is the last or takes a byte, and it sends at most one answer.
Where no byte is left the decoder reports the end of the stream.  So the loop
ends, and it has sent no more answers than bytes were received. -/
theorem handleConnection_progress (env : Environment) (clock : Nat → Instant)
    (bytes : List UInt8) (served : Served) (sent : List (Sent F)) :
    (∀ n c, Rounds (Connection.Goes env clock) n ⟨⟨bytes, .eof⟩, served, sent⟩ c →
      ((∃ c', round env clock c = .next c' ∧ c.Advances c') ∨
        ∃ c', round env clock c = .stop c' (.ok ()) ∧ (c'.sent = c.sent ∨ c.Advances c')) ∧
      (c.reader.unread = [] →
        (decodeFrame : Read (Frame F)).run c.reader = (.error Ending.eof.error, c.reader) ∧
          Ending.eof.error.kind = .unexpectedEof)) ∧
    ∃ n c final, Rounds (Connection.Goes env clock) n ⟨⟨bytes, .eof⟩, served, sent⟩ c ∧
      round env clock c = .stop final (.ok ()) ∧
      handleConnection env clock ⟨⟨bytes, .eof⟩, served, sent⟩ = (final, .ok ()) ∧
      ∃ answers, final.sent = sent ++ answers ∧ answers.length ≤ bytes.length := by
  constructor
  · intro n c hrun
    refine ⟨round_cases env clock c, fun hnil => ⟨?_, rfl⟩⟩
    have hending : c.reader.ending = .eof :=
      hrun.preserves (I := fun c => c.reader.ending = .eof)
        (fun _ _ hc h => (ending_of_goes h).trans hc) rfl
    obtain ⟨⟨unread, e⟩, served', sent'⟩ := c
    obtain rfl : unread = [] := hnil
    obtain rfl : e = .eof := hending
    exact decodeFrame_nil .eof
  · have hpaid : ∀ c c' : Connection F, c.Paid sent bytes.length → c.Goes env clock c' →
        c'.Paid sent bytes.length := fun _ _ hc h => (advances_of_goes h).paid hc
    have hstart : Connection.Paid sent bytes.length ⟨⟨bytes, .eof⟩, served, sent⟩ :=
      ⟨[], by simp [Reader.size]⟩
    obtain ⟨n, c, hrun, hlast⟩ := exists_last (Connection.Goes env clock) (fun c => c.reader.size)
      hpaid (fun _ _ _ h => (advances_of_goes h).shorter) _ hstart
    have hc := hrun.preserves hpaid hstart
    rcases round_cases env clock c with ⟨c', hround, -⟩ | ⟨final, hround, hfinal⟩
    · exact absurd hround (hlast c')
    · refine ⟨n, c, final, hrun, hround, ?_, ?_⟩
      · rw [handleConnection_rounds hrun, handleConnection_stop hround]
      · obtain hsame | hadvances := hfinal
        · obtain ⟨answers, hsent, hle⟩ := hc
          exact ⟨answers, hsame.trans hsent, by omega⟩
        · obtain ⟨answers, hsent, hle⟩ := hadvances.paid hc
          exact ⟨answers, hsent, by omega⟩

end RalphDb
