import RalphDb.Server.Connection

/-!
# RalphDb.Server.Pipeline

Pipelined requests and a client that disconnects.

The loop over the bytes of some requests, then a strict prefix of one more, is
a fold over the requests (`handleConnection_pipeline`): each is answered once,
from the connection and the store that the one before it left, up to the first
`QUIT`.  The prefix executes nothing.
-/

namespace RalphDb

open Base
open Base.Fallible

variable {F : Type}

/-! ## Processing requests -/

/-- What the requests were answered, and the connection and store they left. -/
structure Processed (F : Type) where
  sent : List (Sent F)
  served : Served

/-- Answer requests in order, up to the first `QUIT`. -/
def processed [F64 F] (env : Environment) (clock : Nat → Instant) :
    List (List (List UInt8)) → Served → Processed F
  | [], s => ⟨[], s⟩
  | args :: requests, s =>
      let answer := answerTo env clock (request args : Frame F) s
      if answer.1.quits then ⟨[sentFor env clock (request args) s], answer.2⟩
      else
        let rest := processed env clock requests answer.2
        ⟨sentFor env clock (request args) s :: rest.sent, rest.served⟩

/-- One of the answers was to a `QUIT`. -/
def quitAmong (sent : List (Sent F)) : Bool := sent.any fun sent => sent.answer.quits

section Loop

variable [F64 F] (env : Environment) (clock : Nat → Instant)

/-- The loop on a request. -/
theorem handleConnection_request {args : List (List UInt8)} (h : WithinCaps args)
    (tail : List UInt8) (e : Ending) (s : Served) (sent : List (Sent F)) :
    handleConnection env clock ⟨⟨requestBytes args ++ tail, e⟩, s, sent⟩ =
      if (answerTo env clock (request args : Frame F) s).1.quits then
        (Connection.answered env clock (request args) ⟨⟨tail, e⟩, s, sent⟩, .ok ())
      else
        handleConnection env clock
          (Connection.answered env clock (request args) ⟨⟨tail, e⟩, s, sent⟩) :=
  handleConnection_decoded (reads_request h tail e) s sent

/-- **The loop over pipelined requests** is the fold: it is over after a
`QUIT`, and otherwise goes on with what follows the requests. -/
theorem handleConnection_requests {requests : List (List (List UInt8))}
    (hrequests : ∀ args ∈ requests, WithinCaps args) (tail : List UInt8) (e : Ending)
    (s : Served) (sent : List (Sent F)) :
    let after : Processed F := processed env clock requests s
    let c : Connection F := ⟨⟨requests.flatMap requestBytes ++ tail, e⟩, s, sent⟩
    (quitAmong after.sent = true → ∃ reader,
        handleConnection env clock c = (⟨reader, after.served, sent ++ after.sent⟩, .ok ())) ∧
      (quitAmong after.sent = false → handleConnection env clock c =
        handleConnection env clock ⟨⟨tail, e⟩, after.served, sent ++ after.sent⟩) := by
  induction requests generalizing s sent with
  | nil => simp [processed, quitAmong]
  | cons args requests ih =>
      obtain ⟨hargs, hrest⟩ := List.forall_mem_cons.mp hrequests
      have hloop := handleConnection_request env clock hargs
        (requests.flatMap requestBytes ++ tail) e s sent
      rw [List.flatMap_cons, List.append_assoc]
      cases hquits : (answerTo env clock (request args : Frame F) s).1.quits with
      | true =>
          rw [if_pos hquits] at hloop
          have hsent : (sentFor env clock (request args : Frame F) s).answer.quits = true := hquits
          simp only [processed, hquits, if_true, quitAmong, List.any_cons, hsent, Bool.true_or]
          exact ⟨fun _ => ⟨_, hloop⟩, fun hno => by contradiction⟩
      | false =>
          rw [if_neg (by rw [hquits]; decide)] at hloop
          have hsent : (sentFor env clock (request args : Frame F) s).answer.quits = false := hquits
          obtain ⟨hquit, hgo⟩ := ih hrest (answerTo env clock (request args : Frame F) s).2
            (sent ++ [sentFor env clock (request args) s])
          rw [List.append_assoc, List.singleton_append] at hquit hgo
          simp only [processed, hquits, Bool.false_eq_true, if_false, quitAmong, List.any_cons,
            hsent, Bool.false_or]
          rw [hloop]
          exact ⟨hquit, hgo⟩

/-- The loop over a strict prefix of a request answers nothing, or that the
bytes are no frame. -/
theorem handleConnection_prefix {args : List (List UInt8)} (h : WithinCaps args) {p : List UInt8}
    (hp : p <+: requestBytes args) (hne : p ≠ requestBytes args) (s : Served)
    (sent : List (Sent F)) :
    ∃ extra, handleConnection env clock ⟨⟨p, .eof⟩, s, sent⟩ =
        (⟨⟨[], .eof⟩, s, sent ++ extra⟩, .ok ()) ∧
      (extra = [] ∨
        p ≠ [] ∧ extra = [⟨.malformed, (Answer.malformed : Answer F).bytes s.state.protocol⟩]) := by
  obtain ⟨err, herr⟩ := prefix_request (F := F) h hp hne .eof
  rw [handleConnection_undecoded herr]
  cases hends : endsLoop err with
  | true => exact ⟨[], by simp only [if_true, List.append_nil], .inl rfl⟩
  | false =>
      have hnil : p ≠ [] := by
        rintro rfl
        rw [decodeFrame_nil] at herr
        rw [← Except.error.inj (Prod.mk.inj herr).1] at hends
        contradiction
      refine ⟨_, ?_, .inr ⟨hnil, rfl⟩⟩
      rw [if_neg Bool.false_ne_true]
      exact handleConnection_nil .eof s _

/-- **Pipelining and disconnects.**  Fed the bytes of some requests, a strict
prefix of one more and the end of the stream, the loop answers the requests up
to the first `QUIT`, each from what the one before it left.  It executes
nothing else, and answers at most once more: that the prefix, when it is not
empty and no `QUIT` came before it, is no frame. -/
theorem handleConnection_pipeline
    {requests : List (List (List UInt8))} (hrequests : ∀ args ∈ requests, WithinCaps args)
    {args : List (List UInt8)} (hargs : WithinCaps args) {p : List UInt8}
    (hp : p <+: requestBytes args) (hne : p ≠ requestBytes args) (s : Served) :
    let after : Processed F := processed env clock requests s
    ∃ reader extra,
      handleConnection env clock ⟨⟨requests.flatMap requestBytes ++ p, .eof⟩, s, []⟩ =
          (⟨reader, after.served, after.sent ++ extra⟩, .ok ()) ∧
        (extra = [] ∨ p ≠ [] ∧ quitAmong after.sent = false ∧
          extra = [⟨.malformed,
            (Answer.malformed : Answer F).bytes after.served.state.protocol⟩]) := by
  obtain ⟨hquit, hgo⟩ := handleConnection_requests (F := F) env clock
    hrequests p .eof s []
  intro after
  cases hany : quitAmong after.sent with
  | true =>
      obtain ⟨reader, hrun⟩ := hquit hany
      exact ⟨reader, [], by rw [hrun, List.append_nil, List.nil_append], .inl rfl⟩
  | false =>
      obtain ⟨extra, hrun, hextra⟩ := handleConnection_prefix (F := F) env clock
        hargs hp hne after.served after.sent
      refine ⟨⟨[], .eof⟩, extra, ?_, hextra.imp id fun h => ⟨h.1, rfl, h.2⟩⟩
      rw [hgo hany, List.nil_append]
      exact hrun

end Loop

/-- `PING`, an empty request, `QUIT`. -/
def pingQuit : List (List (List UInt8)) :=
  [[[0x50, 0x49, 0x4E, 0x47]], [], [[0x51, 0x55, 0x49, 0x54]]]

/-- They are followed by the first byte of a further request. -/
theorem handleConnection_pipeline_pingQuit :
    let env : Environment := ⟨none, none, none, none⟩
    let clock : Nat → Instant := fun _ => .origin
    let after : Processed WholeDouble := processed env clock pingQuit freshServed
    ∃ reader extra,
      handleConnection env clock
          ⟨⟨pingQuit.flatMap requestBytes ++ [0x2A], .eof⟩, freshServed, []⟩ =
          (⟨reader, after.served, after.sent ++ extra⟩, .ok ()) ∧
        (extra = [] ∨ [0x2A] ≠ ([] : List UInt8) ∧ quitAmong after.sent = false ∧
          extra = [⟨.malformed,
            (Answer.malformed : Answer WholeDouble).bytes after.served.state.protocol⟩]) := by
  have hcaps : ∀ args ∈ pingQuit, WithinCaps args := by
    intro args hargs
    have hlimits : 4 ≤ collectionLimit ∧ 4 ≤ bulkLimit := by decide
    have hsmall : args.length ≤ 4 ∧ ∀ arg ∈ args, arg.length ≤ 4 := by
      revert args
      decide
    exact ⟨by omega, fun arg harg => Nat.le_trans (hsmall.2 arg harg) hlimits.2⟩
  have hprefix : [0x2A] <+: requestBytes [] := ⟨_, rfl⟩
  exact handleConnection_pipeline _ _ hcaps (hcaps [] (by decide)) hprefix (by decide) freshServed

end RalphDb