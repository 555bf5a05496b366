import RalphDb.Server.Pipeline

/-!
# RalphDb.Server.Upgrade

The same requests under RESP2 and under RESP3.

Apart from `HELLO` and `CLIENT LIST`, no command asks which version its
connection speaks.  So two connections that differ in the version alone stay so
(`serve_speaking`, `processed_speaking`): they answer alike, and only the
spelling of nulls tells the answers apart on the wire (`processed_respelled`).
-/

namespace RalphDb

open Base
open Base.Call

variable {F : Type}

/-! ## Nulls, respelled -/

mutual
/-- The frame with a null bulk string for null, at every depth. -/
def Frame.denull : Frame F → Frame F
  | .null => .bulkString none
  | .array (some elements) => .array (some (denullAll elements))
  | .set (some elements) => .set (some (denullAll elements))
  | .push elements => .push (denullAll elements)
  | .map (some entries) => .map (some (denullEntries entries))
  | .attr entries => .attr (denullEntries entries)
  | f => f

def Frame.denullAll : List (Frame F) → List (Frame F)
  | [] => []
  | item :: items => item.denull :: denullAll items

def Frame.denullEntries : List (Frame F × Frame F) → List (Frame F × Frame F)
  | [] => []
  | (key, value) :: entries => (key.denull, value.denull) :: denullEntries entries
end

theorem Frame.denullAll_eq_map (elements : List (Frame F)) :
    Frame.denullAll elements = elements.map Frame.denull := by
  induction elements with
  | nil => rfl
  | cons item items ih => simp [Frame.denullAll, ih]

section Respelled

variable [F64 F]

/-- Of the types that RESP2 has, the downgrade changes null alone. -/
theorem lower_eq_denull (f : Frame F) (h : f.Everywhere Frame.Plain) : f.lower = f.denull := by
  induction f using Frame.child_induction with
  | h f ih =>
    have hplain := h.here
    cases f with
    | array elements =>
        cases elements with
        | none => rfl
        | some elements =>
            have helements : elements.map Frame.lower = elements.map Frame.denull :=
              List.map_congr_left fun c hc => ih c hc (h.child hc)
            simp [Frame.lower, Frame.denull, Frame.lowerAll_eq_map, Frame.denullAll_eq_map,
              helements]
    | null => rfl
    | simpleString value => rfl
    | error value => rfl
    | integer value => rfl
    | bulkString value => rfl
    | _ => exact hplain.elim

/-- RESP2 writes a frame of its types as RESP3 writes it with nulls respelled. -/
theorem writes_denull {f : Frame F} (h : f.Everywhere Frame.Plain) :
    Writes (encodeFrame f.denull .resp3) ((encodeFrame f .resp2).run []).2 := by
  have hspelled : f.Everywhere (Frame.Spelled .resp2) := h.imp fun f hf => hf.spelled .resp2
  obtain ⟨w, hw⟩ := writes_encodeFrame f hspelled
  simpa [hw [], ← lower_eq_denull f h, ← encodeFrame_resp2 f hspelled] using hw

end Respelled

/-! ## Another version -/

/-- The connection, speaking `version`. -/
def ConnectionState.speaking (version : ProtocolVersion) (state : ConnectionState) :
    ConnectionState := { state with protocol := version }

def Served.speaking (version : ProtocolVersion) (s : Served) : Served :=
  { s with state := s.state.speaking version }

@[simp] theorem protocol_speaking (version : ProtocolVersion) (s : Served) :
    (s.speaking version).state.protocol = version := rfl

@[simp] theorem clientName_speaking (version : ProtocolVersion) (s : Served) :
    (s.speaking version).state.clientName = s.state.clientName := rfl

@[simp] theorem storage_speaking (version : ProtocolVersion) (s : Served) :
    (s.speaking version).storage = s.storage := rfl

/-- The commands that look at the version of the connection, in upper case as a
parsed command has them: `HELLO` and `CLIENT LIST`. -/
def Command.AsksVersion (command : Command) : Prop :=
  command.name = "HELLO" ∨
    command.name = "CLIENT" ∧
      ∃ subcommand, command.args = [subcommand] ∧
        toAsciiUppercase (fromUtf8Lossy subcommand) = "LIST"

/-- An answer of a handler, with the connection speaking `version`. -/
def answerSpeaking (version : ProtocolVersion)
    (answer : CommandResult F × ConnectionState) : CommandResult F × ConnectionState :=
  (answer.1, answer.2.speaking version)

theorem client_speaking {args : List (List UInt8)}
    (h : ¬ ∃ subcommand, args = [subcommand] ∧
      toAsciiUppercase (fromUtf8Lossy subcommand) = "LIST")
    (state : ConnectionState) (version : ProtocolVersion) :
    (client args (state.speaking version) : CommandResult F × ConnectionState) =
      answerSpeaking version (client args state) := by
  cases args with
  | nil => rfl
  | cons subcommand rest =>
      simp only [client]
      split
      · rcases rest with _ | ⟨name, _ | _⟩ <;> rfl
      · cases rest <;> rfl
      · cases rest with
        | nil => simp_all
        | cons arg rest => rfl
      · cases rest <;> rfl
      · rfl

/-- **The version is not looked at**: a command other than `HELLO` and
`CLIENT LIST` does the same whatever the connection speaks. -/
theorem serve_speaking {command : Command} (h : ¬ command.AsksVersion) (env : Environment)
    (clock : Nat → Instant) (s : Served) (version : ProtocolVersion) :
    (serve env clock command (s.speaking version) : CommandResult F × Served) =
      let served : CommandResult F × Served := serve env clock command s
      (served.1, served.2.speaking version) := by
  unfold serve execute
  split
  case h_3 hname => exact absurd (.inl hname) h
  case h_6 hname =>
    have hlist := fun hlist => h (.inr ⟨hname, hlist⟩)
    have hclient := client_speaking (F := F) hlist s.state version
    simp [Served.speaking, hclient, answerSpeaking]
  all_goals simp_all [onStorage, Served.speaking]

/-! ## Requests under both versions -/

section Requests

variable [F64 F]

theorem toArgs_bulkStrings (args : List (List UInt8)) (version : ProtocolVersion) :
    toArgs version (args.map fun arg => (.bulkString (some arg) : Frame F)) = .ok args := by
  induction args with
  | nil => rfl
  | cons arg args ih => simp [toArgs, toArgBytes, ih]

/-- A request is the same command under both versions. -/
theorem fromFrame_request (args : List (List UInt8)) (version version' : ProtocolVersion) :
    Command.fromFrameWithProtocol (request args : Frame F) version =
      Command.fromFrameWithProtocol (request args : Frame F) version' := by
  cases args with
  | nil => rfl
  | cons name args =>
      simp [request, Command.fromFrameWithProtocol, toArgs_bulkStrings]

/-- The request is not a command that looks at the version. -/
def Blind (F : Type) [F64 F] (args : List (List UInt8)) : Prop :=
  ∀ version command, Command.fromFrameWithProtocol (request args : Frame F) version = .ok command →
    ¬ command.AsksVersion

theorem blind_of_parses {args : List (List UInt8)} {version : ProtocolVersion} {command : Command}
    (h : Command.fromFrameWithProtocol (request args : Frame F) version = .ok command)
    (hasks : ¬ command.AsksVersion) : Blind F args := by
  intro version' command' h'
  rw [fromFrame_request args version' version, h] at h'
  rwa [← Except.ok.inj h']

theorem answerTo_speaking {args : List (List UInt8)} (h : Blind F args) (env : Environment)
    (clock : Nat → Instant) (s : Served) (version : ProtocolVersion) :
    answerTo env clock (request args : Frame F) (s.speaking version) =
      let answer : Answer F × Served := answerTo env clock (request args) s
      (answer.1, answer.2.speaking version) := by
  simp only [answerTo, protocol_speaking, fromFrame_request args version s.state.protocol]
  split
  · rfl
  · next command hparse => simp [serve_speaking (h _ command hparse)]

/-- The connection and store that requests leave under another version. -/
theorem processed_speaking {requests : List (List (List UInt8))}
    (h : ∀ args ∈ requests, Blind F args) (env : Environment) (clock : Nat → Instant) (s : Served)
    (version : ProtocolVersion) :
    (processed env clock requests (s.speaking version) : Processed F).served =
      (processed env clock requests s : Processed F).served.speaking version := by
  induction requests generalizing s with
  | nil => simp [processed]
  | cons args requests ih =>
      obtain ⟨hargs, hrest⟩ := List.forall_mem_cons.mp h
      have hlater := ih hrest (answerTo env clock (request args : Frame F) s).2
      simp only [processed, answerTo_speaking hargs env clock s]
      split
      · rfl
      · exact hlater

/-! ## What is flushed -/

/-- The frame of an answer. -/
def Answer.response : Answer F → Frame F
  | .result _ r => r.response
  | .refused message => .error message
  | .malformed => malformedFrame

def Answer.attributes : Answer F → Option (List (Frame F × Frame F))
  | .result _ r => r.attributes
  | _ => none

/-- The same answer, flushed under RESP2 and under RESP3: the bytes differ in
the spelling of nulls alone. -/
structure Respelled (old new : Sent F) : Prop where
  answer : new.answer = old.answer
  attributes : old.answer.attributes = none
  oldBytes : Writes (encodeFrame old.answer.response.denull .resp3) old.bytes
  newBytes : Writes (encodeFrame old.answer.response .resp3) new.bytes

/-- An answer without attributes, of the types that RESP2 has. -/
structure Answer.Plain (answer : Answer F) : Prop where
  attributes : answer.attributes = none
  response : answer.response.Everywhere Frame.Plain

theorem Answer.Plain.bytes {answer : Answer F} (h : answer.Plain) (version : ProtocolVersion) :
    answer.bytes version = ((encodeFrame answer.response version).run []).2 := by
  have hattributes := h.attributes
  cases answer <;> simp_all [Answer.bytes, Answer.response, Answer.attributes, encodeResponse_none]

theorem plain_answerTo {args : List (List UInt8)} (h : Blind F args) (env : Environment)
    (clock : Nat → Instant) (s : Served) :
    (answerTo env clock (request args : Frame F) s).1.Plain := by
  cases hparse : Command.fromFrameWithProtocol (request args : Frame F) s.state.protocol with
  | error message =>
      simp only [answerTo, hparse]
      exact ⟨rfl, .leaf rfl trivial⟩
  | ok command =>
      -- The answer is that of the connection speaking RESP2, which fits RESP2.
      have hserve := serve_speaking (F := F) (h _ command hparse) env clock s .resp2
      have hfits := fits_of_answers (answers_serve (F := F) env clock command (s.speaking .resp2))
      rw [hserve] at hfits
      obtain ⟨hattributes, hresponse⟩ := hfits.2 rfl
      simp only [answerTo, hparse]
      exact ⟨hattributes, hresponse⟩

/-- One request under both versions. -/
theorem respelled_sentFor {args : List (List UInt8)} (h : Blind F args) (env : Environment)
    (clock : Nat → Instant) (s : Served) :
    Respelled (sentFor env clock (request args : Frame F) (s.speaking .resp2))
      (sentFor env clock (request args : Frame F) (s.speaking .resp3)) := by
  have hplain := plain_answerTo h env clock s
  have hspelled := hplain.response.imp fun f hf => hf.spelled .resp3
  obtain ⟨w, hw⟩ := writes_encodeFrame _ hspelled
  simp only [sentFor, answerTo_speaking h env clock s]
  refine ⟨rfl, hplain.attributes, ?_, ?_⟩
  · simpa [hplain.bytes] using writes_denull hplain.response
  · simpa [hplain.bytes, hw []] using hw

/-- Requests under both versions. -/
theorem respelled_processed {requests : List (List (List UInt8))}
    (h : ∀ args ∈ requests, Blind F args) (env : Environment) (clock : Nat → Instant)
    (s : Served) :
    List.Forall₂ Respelled (processed env clock requests (s.speaking .resp2) : Processed F).sent
      (processed env clock requests (s.speaking .resp3) : Processed F).sent := by
  induction requests generalizing s with
  | nil => exact .nil
  | cons args requests ih =>
      obtain ⟨hargs, hrest⟩ := List.forall_mem_cons.mp h
      have hsent := respelled_sentFor hargs env clock s
      have hlater := ih hrest (answerTo env clock (request args : Frame F) s).2
      simp only [processed, answerTo_speaking hargs env clock s]
      split
      · exact .cons hsent .nil
      · exact .cons hsent hlater

/-- **Upgrading changes spelling, not meaning.**  Requests none of which is
`HELLO` or `CLIENT LIST`, answered on a RESP2 and on a RESP3 connection that
are otherwise alike, are the same commands with the same responses and leave
the same store and client name.  No answer has attributes, and the RESP2 bytes
of each are the RESP3 encoding of its response with nulls respelled. -/
theorem processed_respelled {requests : List (List (List UInt8))}
    (h : ∀ args ∈ requests, Blind F args) (env : Environment) (clock : Nat → Instant)
    (clientName : Option (List UInt8)) (clientId : Int64) (storage : DashMap) (ticks : Nat) :
    let old : Processed F :=
      processed env clock requests ⟨⟨.resp2, clientName, clientId⟩, storage, ticks⟩
    let new : Processed F :=
      processed env clock requests ⟨⟨.resp3, clientName, clientId⟩, storage, ticks⟩
    List.Forall₂ Respelled old.sent new.sent ∧
      new.served.storage = old.served.storage ∧
      new.served.state.clientName = old.served.state.clientName := by
  have hserved : (processed env clock requests
        ⟨⟨.resp3, clientName, clientId⟩, storage, ticks⟩ : Processed F).served =
      Served.speaking .resp3 _ :=
    processed_speaking h env clock ⟨⟨.resp2, clientName, clientId⟩, storage, ticks⟩ .resp3
  refine ⟨?_, ?_, ?_⟩
  · exact respelled_processed h env clock ⟨⟨.resp2, clientName, clientId⟩, storage, ticks⟩
  · simp [hserved]
  · simp [hserved]

end Requests

/-- `GET k` and `PING`. -/
def getPing : List (List (List UInt8)) :=
  [[[0x47, 0x45, 0x54], [0x6B]], [[0x50, 0x49, 0x4E, 0x47]]]

theorem blind_getPing : ∀ args ∈ getPing, Blind WholeDouble args := by
  have hget : Command.fromFrameWithProtocol
      (request [[0x47, 0x45, 0x54], [0x6B]] : Frame WholeDouble) .resp2 =
        .ok ⟨"GET", [[0x6B]]⟩ := rfl
  have hping : Command.fromFrameWithProtocol
      (request [[0x50, 0x49, 0x4E, 0x47]] : Frame WholeDouble) .resp2 = .ok ⟨"PING", []⟩ := rfl
  simp [getPing, blind_of_parses hget, blind_of_parses hping, Command.AsksVersion]

/-- The missing key is answered with a null, which the two versions spell
differently. -/
theorem processed_respelled_getPing :
    let env : Environment := ⟨none, none, none, none⟩
    let old : Processed WholeDouble :=
      processed env (fun _ => .origin) getPing ⟨⟨.resp2, none, 7⟩, fun _ => none, 0⟩
    let new : Processed WholeDouble :=
      processed env (fun _ => .origin) getPing ⟨⟨.resp3, none, 7⟩, fun _ => none, 0⟩
    List.Forall₂ Respelled old.sent new.sent ∧
      new.served.storage = old.served.storage ∧
      new.served.state.clientName = old.served.state.clientName :=
  processed_respelled blind_getPing _ _ none 7 _ 0

end RalphDb
