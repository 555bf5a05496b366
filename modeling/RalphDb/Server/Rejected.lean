import RalphDb.Server.Connection

/-!
# RalphDb.Server.Rejected

What happens to the payload of a request that was rejected for its size.

The decoder stops at the length line of the argument over the cap and the loop
goes on from there, so the payload is decoded as if it were frames.  The loop
executes nothing exactly when none of these frames is a command
(`rejected_executes_nothing_iff`), which a client that chooses the payload can
arrange otherwise.
-/

namespace RalphDb

open Base
open Base.Fallible

variable {F : Type}

/-! ## Frames in a stream -/

/-- The frames that the decoder accepts on a stream when it is started again
wherever it stopped, until the stream ends. -/
inductive Yields [F64 F] : Reader → Frame F → Prop
  | here {r r' : Reader} {f : Frame F} (run : decodeFrame.run r = (.ok f, r')) : Yields r f
  | later {r r' : Reader} {f g : Frame F} (run : decodeFrame.run r = (.ok f, r'))
      (rest : Yields r' g) : Yields r g
  | again {r r' : Reader} {err : IoError} {g : Frame F}
      (run : (decodeFrame : Read (Frame F)).run r = (.error err, r')) (goes : endsLoop err = false)
      (rest : Yields r' g) : Yields r g

section Yields

variable [F64 F] {r r' : Reader} {f g : Frame F} {err : IoError}

theorem yields_iff_of_ok (h : decodeFrame.run r = (.ok f, r')) :
    Yields r g ↔ g = f ∨ Yields r' g := by
  constructor
  · intro hyields
    cases hyields with
    | here run =>
        rw [h] at run
        exact .inl (Except.ok.inj (Prod.mk.inj run).1).symm
    | later run rest =>
        rw [h] at run
        rw [← (Prod.mk.inj run).2] at rest
        exact .inr rest
    | again run _ _ =>
        rw [h] at run
        simp at run
  · intro hyields
    obtain rfl | rest := hyields
    · exact .here h
    · exact .later h rest

theorem yields_iff_of_error (h : (decodeFrame : Read (Frame F)).run r = (.error err, r')) :
    Yields r g ↔ endsLoop err = false ∧ Yields r' g := by
  constructor
  · intro hyields
    cases hyields with
    | here run =>
        rw [h] at run
        simp at run
    | later run _ =>
        rw [h] at run
        simp at run
    | again run goes rest =>
        rw [h] at run
        obtain ⟨herr, hreader⟩ := Prod.mk.inj run
        rw [← hreader] at rest
        rw [← Except.error.inj herr] at goes
        exact ⟨goes, rest⟩
  · exact fun hyields => .again h hyields.1 hyields.2

end Yields

/-! ## Loops that execute nothing -/

/-- The answer is the result of a command. -/
def Answer.executed : Answer F → Bool
  | .result _ _ => true
  | _ => false

/-- A frame that is no command under the version. -/
def Refused [F64 F] (version : ProtocolVersion) (f : Frame F) : Prop :=
  ∃ message, Command.fromFrameWithProtocol f version = .error message

/-- No answer is the result of a command. -/
def NoneExecuted (sent : List (Sent F)) : Prop := ∀ s ∈ sent, s.answer.executed = false

theorem noneExecuted_append {sent : List (Sent F)} {s : Sent F} :
    NoneExecuted (sent ++ [s]) ↔ NoneExecuted sent ∧ s.answer.executed = false := by
  simp [NoneExecuted, or_imp, forall_and]

section Loop

variable [F64 F] {env : Environment} {clock : Nat → Instant}

/-- A frame that is refused is answered with its message. -/
theorem answerTo_refused {f : Frame F} {s : Served} {message : String}
    (h : Command.fromFrameWithProtocol f s.state.protocol = .error message) :
    answerTo env clock f s = (.refused message, s) := by
  simp only [answerTo, h]

/-- A frame that is not refused is executed. -/
theorem executed_answerTo {f : Frame F} {s : Served} (h : ¬ Refused s.state.protocol f) :
    (answerTo env clock f s).1.executed = true := by
  cases hparse : Command.fromFrameWithProtocol f s.state.protocol with
  | error message => exact absurd ⟨message, hparse⟩ h
  | ok command => simp only [answerTo, hparse, Answer.executed]

/-- What was sent stays sent. -/
theorem sent_subset (c : Connection F) : c.sent ⊆ (handleConnection env clock c).1.sent := by
  induction c using Connection.loop_induction (F := F) env clock with
  | ends c err reader hrun hends =>
      rw [handleConnection_error hrun, if_pos hends]
      exact List.Subset.refl _
  | malformed c err reader hrun hgoes ih =>
      rw [handleConnection_error hrun, if_neg (by rw [hgoes]; decide)]
      exact List.Subset.trans (List.subset_append_left _ _) ih
  | answered c frame reader hrun ih =>
      rw [handleConnection_ok hrun]
      split
      · exact List.subset_append_left _ _
      · exact List.Subset.trans (List.subset_append_left _ _) ih

/-- A frame that is executed stays answered. -/
theorem not_noneExecuted_of_executed {c : Connection F} {f : Frame F} {reader : Reader}
    (hrun : decodeFrame.run c.reader = (.ok f, reader)) (hf : ¬ Refused c.served.state.protocol f) :
    ¬ NoneExecuted (handleConnection env clock c).1.sent := by
  have hexecuted : (answerTo env clock f c.served).1.executed = true := executed_answerTo hf
  have hmem : sentFor env clock f c.served ∈
      (Connection.answered env clock f { c with reader := reader }).sent :=
    List.mem_append_right _ (List.mem_singleton_self _)
  have hsent : sentFor env clock f c.served ∈ (handleConnection env clock c).1.sent := by
    rw [handleConnection_ok hrun]
    split
    · exact hmem
    · exact sent_subset _ hmem
  intro hnone
  have hfalse : (answerTo env clock f c.served).1.executed = false := hnone _ hsent
  rw [hexecuted] at hfalse
  contradiction

/-- **The loop executes nothing** exactly when no frame on the stream is a
command. -/
theorem handleConnection_quiet_iff (c : Connection F) (hsent : NoneExecuted c.sent) :
    ((handleConnection env clock c).1.served = c.served ∧
        NoneExecuted (handleConnection env clock c).1.sent) ↔
      ∀ f : Frame F, Yields c.reader f → Refused c.served.state.protocol f := by
  induction c using Connection.loop_induction (F := F) env clock with
  | ends c err reader hrun hends =>
      rw [handleConnection_error hrun, if_pos hends]
      simp only [yields_iff_of_error hrun, hends, Bool.true_eq_false, false_and, false_imp_iff,
        implies_true, true_and, iff_true]
      exact hsent
  | malformed c err reader hrun hgoes ih =>
      rw [handleConnection_error hrun, if_neg (by rw [hgoes]; decide)]
      simp only [yields_iff_of_error hrun, hgoes, true_and]
      exact ih (noneExecuted_append.mpr ⟨hsent, rfl⟩)
  | answered c f reader hrun ih =>
      by_cases hf : Refused c.served.state.protocol f
      · obtain ⟨message, hparse⟩ := hf
        have hanswer : answerTo env clock f c.served = (.refused message, c.served) :=
          answerTo_refused hparse
        have hquiet : NoneExecuted
            (Connection.answered env clock f { c with reader := reader }).sent := by
          refine noneExecuted_append.mpr ⟨hsent, ?_⟩
          simp only [sentFor, hanswer, Answer.executed]
        have hserved : (Connection.answered env clock f { c with reader := reader }).served =
            c.served := by simp only [Connection.answered, hanswer]
        have hih := ih hquiet
        rw [hserved] at hih
        rw [handleConnection_ok hrun, hanswer, if_neg (by simp [Answer.quits]), hih]
        simp only [yields_iff_of_ok hrun]
        constructor
        · intro h g hg
          obtain rfl | hg := hg
          · exact ⟨message, hparse⟩
          · exact h g hg
        · exact fun h g hg => h g (.inr hg)
      · constructor
        · exact fun h => absurd h.2 (not_noneExecuted_of_executed hrun hf)
        · exact fun h => absurd (h f (.here hrun)) hf

/-- The loop goes on after a request over the cap, from what is left of it. -/
theorem handleConnection_over_cap {args : List (List UInt8)}
    (hcount : args.length ≤ collectionLimit) (h : ∃ arg ∈ args, bulkLimit < arg.length)
    (s : Served) :
    handleConnection env clock (⟨⟨requestBytes args, .eof⟩, s, []⟩ : Connection F) =
      handleConnection env clock ⟨⟨leftover args, .eof⟩, s,
        [⟨.malformed, (Answer.malformed : Answer F).bytes s.state.protocol⟩]⟩ := by
  obtain ⟨message, hrun⟩ := request_over_cap (F := F) hcount h .eof
  have hgoes : endsLoop (invalidData message) = false := rfl
  rw [handleConnection_undecoded hrun, if_neg (by rw [hgoes]; decide)]
  rfl

end Loop

/-- **Exactly when a request over the cap executes nothing**: when none of the
frames that the decoder accepts in its payload, and in what follows it, is a
command. -/
theorem rejected_executes_nothing_iff [F64 F] (env : Environment) (clock : Nat → Instant)
    {args : List (List UInt8)} (hcount : args.length ≤ collectionLimit)
    (h : ∃ arg ∈ args, bulkLimit < arg.length) (s : Served) :
    let final : Connection F := (handleConnection env clock ⟨⟨requestBytes args, .eof⟩, s, []⟩).1
    (final.served = s ∧ NoneExecuted final.sent) ↔
      ∀ f : Frame F, Yields ⟨leftover args, .eof⟩ f → Refused s.state.protocol f := by
  have hquiet : NoneExecuted
      [(⟨.malformed, (Answer.malformed : Answer F).bytes s.state.protocol⟩ : Sent F)] := by
    intro sent hsent
    rw [List.mem_singleton.mp hsent]
    rfl
  rw [handleConnection_over_cap hcount h s]
  exact handleConnection_quiet_iff _ hquiet

/-! ## Two payloads -/

theorem singleton_within_count (value : List UInt8) : [value].length ≤ collectionLimit := by
  rw [List.length_singleton]
  decide

theorem leftover_singleton {value : List UInt8} (h : bulkLimit < value.length) :
    leftover [value] = value ++ [cr, lf] := by
  let fits : List UInt8 → Bool := fun arg => arg.length ≤ bulkLimit
  have hover : ¬ fits value = true := by simpa [fits] using h
  have hdrop : List.dropWhile fits [value] = [value] := List.dropWhile_cons_of_neg hover
  rw [leftover, hdrop]
  rfl

theorem utf8_letters (n : Nat) :
    utf8 (String.ofList (List.replicate n 'a')) = List.replicate n 0x61 := by
  rw [utf8_eq_flatMap, String.toList_ofList]
  induction n with
  | zero => rfl
  | succ n ih =>
      rw [List.replicate_succ, List.flatMap_cons, ih]
      rfl

/-- A payload that reads as a simple string. -/
def statusPayload (n : Nat) : List UInt8 := 0x2B :: List.replicate n 0x61

/-- No frame in it is a command. -/
theorem refused_statusPayload [F64 F] {n : Nat} {version : ProtocolVersion} {f : Frame F}
    (h : Yields ⟨statusPayload n ++ [cr, lf], .eof⟩ f) : Refused version f := by
  have hline : '\n' ∉ (String.ofList (List.replicate n 'a')).toList := by
    rw [String.toList_ofList]
    exact fun h => absurd (List.eq_of_mem_replicate h) (by decide)
  obtain ⟨w, hw, hread⟩ := roundTrips_of_wireSafe
    (.simpleString (String.ofList (List.replicate n 'a')) : Frame F) (.leaf rfl hline)
  rw [hw.unique (writes_writeLine "+" 0x2B (by decide) _), lineBytes, utf8_letters] at hread
  have hrun := hread.whole .eof
  rw [← List.cons_append] at hrun
  rw [statusPayload, yields_iff_of_ok hrun, yields_iff_of_error (decodeFrame_nil _)] at h
  obtain rfl | ⟨hgoes, _⟩ := h
  · exact ⟨_, rfl⟩
  · contradiction

/-- A request whose payload is such a line executes nothing. -/
theorem rejected_executes_nothing_iff_statusPayload :
    let final : Connection WholeDouble := (handleConnection ⟨none, none, none, none⟩
      (fun _ => .origin)
      ⟨⟨requestBytes [statusPayload bulkLimit], .eof⟩, freshServed, []⟩).1
    final.served = freshServed ∧ NoneExecuted final.sent := by
  have hover : bulkLimit < (statusPayload bulkLimit).length := by
    rw [statusPayload, List.length_cons, List.length_replicate]
    exact Nat.lt_succ_self _
  refine (rejected_executes_nothing_iff _ _ (singleton_within_count _)
    ⟨_, List.mem_singleton_self _, hover⟩ freshServed).mpr fun f hf => ?_
  rw [leftover_singleton hover] at hf
  exact refused_statusPayload hf

/-- A payload that reads as the inline commands `SET k v` and `QUIT`. -/
def smuggledSet (filler : List UInt8) : List UInt8 :=
  0x53 :: ([0x45, 0x54, 0x20, 0x6B, 0x20, 0x76] ++ lf ::
    (0x51 :: ([0x55, 0x49, 0x54] ++ lf :: filler)))

section Smuggled

variable [F64 F] (env : Environment) (clock : Nat → Instant)

theorem answerTo_set (key value : List UInt8) (s : Served) :
    ∃ result, answerTo env clock (request [[0x53, 0x45, 0x54], key, value] : Frame F) s =
      (.result ⟨"SET", [key, value]⟩ result,
        ⟨s.state, Function.update s.storage key (some (Entry.new value)), s.ticks + 1⟩) := by
  have hparse : Command.fromFrameWithProtocol
      (request [[0x53, 0x45, 0x54], key, value] : Frame F) s.state.protocol =
        .ok ⟨"SET", [key, value]⟩ := rfl
  simp only [answerTo, hparse]
  exact ⟨_, rfl⟩

theorem answerTo_quit (s : Served) :
    ∃ result, answerTo env clock (request [[0x51, 0x55, 0x49, 0x54]] : Frame F) s =
      (.result ⟨"QUIT", []⟩ result, s) := by
  have hparse : Command.fromFrameWithProtocol
      (request [[0x51, 0x55, 0x49, 0x54]] : Frame F) s.state.protocol = .ok ⟨"QUIT", []⟩ := rfl
  simp only [answerTo, hparse]
  exact ⟨_, rfl⟩

/-- A frame that is answered and is no `QUIT`. -/
theorem handleConnection_frame {bytes tail : List UInt8} {e : Ending} {f : Frame F}
    (hrun : decodeFrame.run ⟨bytes, e⟩ = (.ok f, ⟨tail, e⟩)) {s s' : Served} {answer : Answer F}
    (hanswer : answerTo env clock f s = (answer, s')) (hgo : answer.quits = false)
    (sent : List (Sent F)) :
    ∃ sent', handleConnection env clock ⟨⟨bytes, e⟩, s, sent⟩ =
      handleConnection env clock ⟨⟨tail, e⟩, s', sent'⟩ := by
  rw [handleConnection_decoded hrun, hanswer,
    if_neg (by rw [hgo]; decide), Connection.answered, hanswer]
  exact ⟨_, rfl⟩

/-- A `QUIT`. -/
theorem served_handleConnection_quit {bytes tail : List UInt8} {e : Ending} {f : Frame F}
    (hrun : decodeFrame.run ⟨bytes, e⟩ = (.ok f, ⟨tail, e⟩)) {s s' : Served} {answer : Answer F}
    (hanswer : answerTo env clock f s = (answer, s')) (hquits : answer.quits = true)
    (sent : List (Sent F)) :
    (handleConnection env clock ⟨⟨bytes, e⟩, s, sent⟩).1.served = s' := by
  rw [handleConnection_decoded hrun, hanswer, if_pos hquits,
    Connection.answered, hanswer]

/-- Both are executed. -/
theorem storage_smuggledSet (filler : List UInt8) (s : Served) (sent : List (Sent F)) :
    (handleConnection env clock ⟨⟨smuggledSet filler, .eof⟩, s, sent⟩).1.served.storage =
      Function.update s.storage [0x6B] (some (Entry.new [0x76])) := by
  have hset : (decodeFrame : Read (Frame F)).run ⟨smuggledSet filler, .eof⟩ =
      (.ok (request [[0x53, 0x45, 0x54], [0x6B], [0x76]]),
        ⟨0x51 :: ([0x55, 0x49, 0x54] ++ lf :: filler), .eof⟩) :=
    decodeFrame_inline rfl (by decide) rfl (by decide) _ _
  have hquit : (decodeFrame : Read (Frame F)).run
      ⟨0x51 :: ([0x55, 0x49, 0x54] ++ lf :: filler), .eof⟩ =
        (.ok (request [[0x51, 0x55, 0x49, 0x54]]), ⟨filler, .eof⟩) :=
    decodeFrame_inline rfl (by decide) rfl (by decide) _ _
  obtain ⟨setResult, hsetAnswer⟩ := answerTo_set (F := F) env clock [0x6B] [0x76] s
  obtain ⟨quitResult, hquitAnswer⟩ := answerTo_quit (F := F) env clock
    ⟨s.state, Function.update s.storage [0x6B] (some (Entry.new [0x76])), s.ticks + 1⟩
  obtain ⟨sent', hgo⟩ := handleConnection_frame env clock hset hsetAnswer (by rfl) sent
  rw [hgo, served_handleConnection_quit env clock hquit hquitAnswer (by rfl)]

theorem lt_length_smuggledSet {filler : List UInt8} (h : bulkLimit ≤ filler.length) :
    bulkLimit < (smuggledSet filler).length := by
  simp only [smuggledSet, List.length_cons, List.length_append]
  omega

/-- A rejected request that writes to the store. -/
theorem storage_rejected_smuggledSet {filler : List UInt8} (h : bulkLimit ≤ filler.length)
    (s : Served) :
    (handleConnection env clock
      (⟨⟨requestBytes [smuggledSet filler], .eof⟩, s, []⟩ : Connection F)).1.served.storage =
      Function.update s.storage [0x6B] (some (Entry.new [0x76])) := by
  have hover := lt_length_smuggledSet h
  rw [handleConnection_over_cap (singleton_within_count _) ⟨_, List.mem_singleton_self _, hover⟩ s,
    leftover_singleton hover]
  exact storage_smuggledSet env clock (filler ++ [cr, lf]) s _

end Smuggled

/-- **A rejected request that is executed**: `SET k v` in its payload is in the
store afterwards. -/
theorem rejected_smuggledSet_executes :
    let payload := smuggledSet (List.replicate bulkLimit 0x61)
    let final : Connection WholeDouble := (handleConnection ⟨none, none, none, none⟩
      (fun _ => .origin) ⟨⟨requestBytes [payload], .eof⟩, freshServed, []⟩).1
    [payload].length ≤ collectionLimit ∧ bulkLimit < payload.length ∧
      freshServed.storage [0x6B] = none ∧
      final.served.storage [0x6B] = some (Entry.new [0x76]) := by
  have hfiller : bulkLimit ≤ (List.replicate bulkLimit (0x61 : UInt8)).length :=
    List.length_replicate.ge
  generalize List.replicate bulkLimit (0x61 : UInt8) = filler at hfiller
  refine ⟨singleton_within_count _, lt_length_smuggledSet hfiller, rfl, ?_⟩
  rw [storage_rejected_smuggledSet _ _ hfiller freshServed, Function.update_self]

end RalphDb
