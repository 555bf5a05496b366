import RalphDb.Command.Answers
import RalphDb.Protocol.Spelling

/-!
# RalphDb.Command.Session

Sessions: the commands of one connection, one after the other.

After every command of a session the connection speaks the version that the
last successful `HELLO` asked for, and the reply is one that this version can
spell (`session_fits`).
-/

namespace RalphDb

open Base
open Base.Call

variable {F : Type}

/-! ## Sessions -/

/-- A connection and the store, between two commands; `ticks` counts the
readings taken of the clock. -/
structure Served where
  state : ConnectionState
  storage : DashMap
  ticks : Nat

/-- A new connection and an empty store. -/
def freshServed : Served := ⟨.fresh 1, fun _ => none, 0⟩

/-- Serve one command. -/
def serve (env : Environment) (clock : Nat → Instant) (command : Command) (s : Served) :
    CommandResult F × Served :=
  let answer := (execute env command s.state).runOn clock s.ticks s.storage
  (answer.1.1, ⟨answer.1.2, answer.2.2, answer.2.1⟩)

/-- A command that does not touch the store. -/
theorem serve_of_pure {env : Environment} {clock : Nat → Instant} {command : Command} {s : Served}
    {result : CommandResult F} {state : ConnectionState}
    (h : execute env command s.state = pure (result, state)) :
    serve env clock command s = (result, { s with state := state }) := by
  rw [serve, h]
  rfl

/-- A command, its result and the connection afterwards. -/
structure Exchange (F : Type) where
  command : Command
  result : CommandResult F
  state : ConnectionState

/-- The exchanges of a session. -/
def session (env : Environment) (clock : Nat → Instant) :
    List Command → Served → List (Exchange F)
  | [], _ => []
  | command :: commands, s =>
      let served := serve env clock command s
      ⟨command, served.1, served.2.state⟩ :: session env clock commands served.2

/-! ## The negotiated version -/

def Frame.isError : Frame F → Bool
  | .error _ => true
  | _ => false

/-- The version that the arguments of a successful `HELLO` ask for. -/
def requested (args : List (List UInt8)) : ProtocolVersion :=
  if helloVersion args = some 3 then .resp3 else .resp2

/-- A `HELLO` that was not refused. -/
def Exchange.negotiates (e : Exchange F) : Bool :=
  e.command.name == "HELLO" && !e.result.response.isError

/-- The version that the last `HELLO` that was not refused asks for. -/
def negotiatedFrom (version : ProtocolVersion) (exchanges : List (Exchange F)) : ProtocolVersion :=
  match (exchanges.filter Exchange.negotiates).getLast? with
  | some e => requested e.command.args
  | none => version

theorem negotiatedFrom_cons (version : ProtocolVersion) (e : Exchange F)
    (exchanges : List (Exchange F)) :
    negotiatedFrom version (e :: exchanges) =
      negotiatedFrom (negotiatedFrom version [e]) exchanges := by
  cases hrest : exchanges.filter Exchange.negotiates with
  | nil => cases hneg : e.negotiates <;> simp [negotiatedFrom, hneg, hrest]
  | cons e' rest =>
      have hlast : (e' :: rest).getLast? = some ((e' :: rest).getLast (List.cons_ne_nil _ _)) :=
        List.getLast?_eq_some_getLast _
      cases hneg : e.negotiates <;>
        simp [negotiatedFrom, hneg, hrest, List.getLast?_cons, hlast]

/-! ## What a version can carry -/

/-- The types that RESP2 has. -/
def Frame.Plain : Frame F → Prop
  | .simpleString _ => True
  | .error _ => True
  | .integer _ => True
  | .bulkString _ => True
  | .array _ => True
  | .null => True
  | _ => False

theorem Frame.Plain.spelled {f : Frame F} (h : f.Plain) (version : ProtocolVersion) :
    f.Spelled version := by
  cases version <;> cases f <;> first | exact trivial | exact h.elim

theorem Frame.Tame.plain {B : List UInt8 → Prop} {N : Nat → Prop} {f : Frame F}
    (h : f.Tame B N) : f.Plain := by
  cases f <;> first | exact trivial | exact h.elim

/-- The version can carry the result: it is encoded, and under RESP2 it has no
attributes and only types that RESP2 has. -/
def CommandResult.Fits [F64 F] (result : CommandResult F) (version : ProtocolVersion) : Prop :=
  (∃ w, Writes (encodeResponse result.response result.attributes version) w) ∧
    (version = .resp2 → result.attributes = none ∧ result.response.Everywhere Frame.Plain)

/-- A frame that holds only leaves has a property everywhere when it and they
have it. -/
theorem everywhere_of_leaves {p : Frame F → Prop} {f : Frame F} (hf : p f)
    (h : ∀ c ∈ f.children, c.children = [] ∧ p c) : f.Everywhere p :=
  ⟨hf, fun c hc => .leaf (h c hc).1 (h c hc).2⟩

/-- The demands of a property that the RESP3 replies of the connection commands
meet: one-line texts, integers and small collections have it. -/
structure Modest (p : Frame F → Prop) : Prop where
  line : ∀ value, '\n' ∉ value.toList → p (.simpleString value)
  integer : ∀ value, p (.integer value)
  array : ∀ elements, elements.length ≤ collectionLimit → p (.array (some elements))
  map : ∀ entries, entries.length ≤ collectionLimit → p (.map (some entries))
  push : ∀ elements, elements.length ≤ collectionLimit → p (.push elements)
  attr : ∀ attributes, attributes.length ≤ collectionLimit → p (.attr attributes)

theorem modest_spelled : Modest (Frame.Spelled .resp3 : Frame F → Prop) :=
  ⟨fun _ _ => trivial, fun _ => trivial, fun _ _ => trivial, fun _ _ => trivial,
    fun _ _ => trivial, fun _ _ => trivial⟩

theorem everywhere_helloPayload {p : Frame F → Prop} (hp : Modest p) (state : ConnectionState) :
    (Frame.map (some (helloPayload state)) : Frame F).Everywhere p := by
  have hsmall : 7 ≤ collectionLimit := by decide
  refine everywhere_of_leaves (hp.map _ hsmall) ?_
  simp only [Frame.children, helloPayload, Frame.flatten_cons, Frame.flatten_nil,
    List.forall_mem_cons, List.not_mem_nil, false_imp_iff, implies_true, and_true, true_and]
  refine ⟨hp.line _ ?_, hp.line _ ?_, hp.line _ ?_, hp.line _ ?_, hp.line _ ?_, hp.integer _,
    hp.line _ ?_, hp.integer _, hp.line _ ?_, hp.line _ ?_, hp.line _ ?_, hp.line _ ?_,
    hp.line _ ?_, hp.array [] (Nat.zero_le _)⟩
  all_goals decide

theorem everywhere_clientListAttributes {p : Frame F → Prop} (hp : Modest p)
    {state : ConnectionState} (hname : (nameFrame state : Frame F).Everywhere p) :
    (Frame.attr (clientListAttributes state) : Frame F).Everywhere p := by
  have hone : 1 ≤ collectionLimit := by decide
  have hthree : 3 ≤ collectionLimit := by decide
  have hentries : (Frame.map (some
      [(.simpleString "id", .integer state.clientId), (.simpleString "name", nameFrame state),
        (.simpleString "protocol", .simpleString "RESP3")]) : Frame F).Everywhere p := by
    refine ⟨hp.map _ hthree, ?_⟩
    simp only [Frame.children, Frame.flatten_cons, Frame.flatten_nil, List.forall_mem_cons,
      List.not_mem_nil, false_imp_iff, implies_true, and_true]
    refine ⟨.leaf rfl (hp.line _ ?_), .leaf rfl (hp.integer _), .leaf rfl (hp.line _ ?_), hname,
      .leaf rfl (hp.line _ ?_), .leaf rfl (hp.line _ ?_)⟩
    all_goals decide
  refine ⟨hp.attr _ hone, List.forall_mem_cons.mpr ⟨.leaf rfl (hp.line _ (by decide)), ?_⟩⟩
  exact List.forall_mem_singleton.mpr ⟨hp.push _ hone, List.forall_mem_singleton.mpr hentries⟩

/-- `CLIENT LIST` under RESP2. -/
theorem clientList_resp2 {state : ConnectionState} (h : state.protocol = .resp2) :
    (clientList [] state : CommandResult F) = .ok (.simpleString (clientListSummary state)) := by
  simp [clientList, h]

/-- `CLIENT LIST` under RESP3. -/
theorem clientList_resp3 {state : ConnectionState} (h : state.protocol = .resp3) :
    (clientList [] state : CommandResult F) =
      .withAttributes (.simpleString (clientListSummary state)) (clientListAttributes state) := by
  simp [clientList, h]

theorem spelled_nameFrame (state : ConnectionState) :
    (nameFrame state : Frame F).Everywhere (Frame.Spelled .resp3) := by
  cases hname : state.clientName <;> simp only [nameFrame, hname] <;> exact .leaf rfl trivial

theorem plain_configFrames (env : Environment) (pattern : String) :
    (Frame.array (some (configFrames env pattern)) : Frame F).Everywhere Frame.Plain := by
  refine everywhere_of_leaves trivial fun c hc => ?_
  obtain ⟨entry, _, hc⟩ := List.mem_flatMap.mp hc
  obtain rfl | rfl : c = _ ∨ c = _ := by simpa using hc
  · exact ⟨rfl, trivial⟩
  · exact ⟨rfl, trivial⟩

section Fits

variable [F64 F]

theorem encodeResponse_none (f : Frame F) (version : ProtocolVersion) :
    encodeResponse f none version = encodeFrame f version := by
  cases version <;> rfl

/-- A plain result without attributes fits both versions. -/
theorem fits_of_plain {result : CommandResult F} (hattributes : result.attributes = none)
    (hplain : result.response.Everywhere Frame.Plain) (version : ProtocolVersion) :
    result.Fits version := by
  refine ⟨?_, fun _ => ⟨hattributes, hplain⟩⟩
  rw [hattributes, encodeResponse_none]
  exact writes_encodeFrame _ (hplain.imp fun f hf => hf.spelled version)

/-- Every answer of `execute` fits the version of the connection afterwards. -/
theorem fits_of_answers {env : Environment} {B : List UInt8 → Prop} {N : Nat → Prop}
    {command : Command} {state state' : ConnectionState} {result : CommandResult F}
    (h : Answers env B N command state result state') : result.Fits state'.protocol := by
  cases h with
  | tame htame _ _ =>
      exact fits_of_plain htame.attributes (htame.response.imp fun f hf => hf.plain) _
  | quit _ =>
      refine fits_of_plain rfl ?_ _
      exact .leaf rfl trivial
  | infoSection _ _ =>
      refine fits_of_plain rfl ?_ _
      exact .leaf rfl trivial
  | clientList _ _ _ =>
      cases hversion : state.protocol with
      | resp2 =>
          rw [clientList_resp2 hversion]
          refine fits_of_plain rfl ?_ _
          exact .leaf rfl trivial
      | resp3 =>
          obtain ⟨w, hw⟩ := writes_encodeFrame (F := F) _
            (everywhere_clientListAttributes modest_spelled (spelled_nameFrame state))
          rw [clientList_resp3 hversion]
          exact ⟨⟨_, writes_bind hw (writes_writeAll _)⟩, fun hresp2 => by contradiction⟩
  | configGet _ _ _ _ => exact fits_of_plain rfl (plain_configFrames env _) _
  | hello2 _ _ =>
      refine fits_of_plain rfl ?_ _
      exact .leaf rfl trivial
  | hello3 _ _ =>
      exact ⟨writes_encodeFrame _ (everywhere_helloPayload modest_spelled _),
        fun hresp2 => by contradiction⟩

end Fits

/-- Only a `HELLO` that is not refused changes the version. -/
theorem protocol_of_answers {env : Environment} {B : List UInt8 → Prop} {N : Nat → Prop}
    {command : Command} {state state' : ConnectionState} {result : CommandResult F}
    (h : Answers env B N command state result state') :
    state'.protocol = negotiatedFrom state.protocol [⟨command, result, state'⟩] := by
  have hother : command.name ≠ "HELLO" →
      negotiatedFrom state.protocol [⟨command, result, state'⟩] = state.protocol := by
    intro hname
    simp [negotiatedFrom, Exchange.negotiates, hname]
  cases h with
  | tame _ hhello _ =>
      by_cases hname : command.name = "HELLO"
      · obtain ⟨message, hmessage⟩ := hhello hname
        simp [negotiatedFrom, Exchange.negotiates, hmessage, Frame.isError]
      · exact (hother hname).symm
  | quit hname => exact (hother (by rw [hname]; decide)).symm
  | infoSection hname _ => exact (hother (by rw [hname]; decide)).symm
  | clientList hname _ _ => exact (hother (by rw [hname]; decide)).symm
  | configGet hname _ _ _ => exact (hother (by rw [hname]; decide)).symm
  | hello2 hname hversion =>
      simp [negotiatedFrom, Exchange.negotiates, hname, Frame.isError, CommandResult.ok, requested,
        hversion]
  | hello3 hname hversion =>
      simp [negotiatedFrom, Exchange.negotiates, hname, Frame.isError, CommandResult.ok, requested,
        hversion]

/-- Only `QUIT` closes the connection. -/
theorem close_of_answers {env : Environment} {B : List UInt8 → Prop} {N : Nat → Prop}
    {command : Command} {state state' : ConnectionState} {result : CommandResult F}
    (h : Answers env B N command state result state') :
    result.close = (command.name == "QUIT") := by
  cases h with
  | tame htame _ hquit => simp [htame.close, hquit]
  | quit hname => simp [quitResult, hname]
  | infoSection hname _ => simp [CommandResult.error, hname]
  | clientList hname _ _ =>
      cases hversion : state.protocol <;>
        simp [clientList, CommandResult.withAttributes, CommandResult.ok, hversion, hname]
  | configGet hname _ _ _ => simp [CommandResult.ok, hname]
  | hello2 hname _ => simp [CommandResult.ok, hname]
  | hello3 hname _ => simp [CommandResult.ok, hname]

section Sessions

variable (env : Environment) (clock : Nat → Instant)

/-- One command of a session. -/
theorem answers_serve (command : Command) (s : Served) :
    Answers env (fun _ => True) (fun _ => True) command s.state
      (serve env clock command s : CommandResult F × Served).1
      (serve env clock command s : CommandResult F × Served).2.state :=
  (upholds_runOn (execute_answers env ⟨fun _ => trivial, trivial⟩ (fun _ _ => trivial) trivial
    fun _ _ => trivial) (fun _ _ _ => trivial) clock s.ticks).1

/-- A session from any connection: every reply fits, and the version is the one
negotiated on the way. -/
theorem session_fits_from [F64 F] (commands : List Command) (s : Served)
    {before after : List (Exchange F)} {e : Exchange F}
    (h : session env clock commands s = before ++ e :: after) :
    e.state.protocol = negotiatedFrom s.state.protocol (before ++ [e]) ∧
      e.result.Fits e.state.protocol := by
  induction commands generalizing s before with
  | nil => simp [session] at h
  | cons command commands ih =>
      have hanswers := answers_serve (F := F) env clock command s
      rw [session] at h
      cases before with
      | nil =>
          obtain ⟨rfl, _⟩ := List.cons.inj h
          exact ⟨protocol_of_answers hanswers, fits_of_answers hanswers⟩
      | cons e₀ before =>
          obtain ⟨rfl, hrest⟩ := List.cons.inj h
          obtain ⟨hprotocol, hfits⟩ := ih _ hrest
          rw [List.cons_append, negotiatedFrom_cons, ← protocol_of_answers hanswers]
          exact ⟨hprotocol, hfits⟩

/-- **Every reply of a session fits the negotiated version.**  After each
command the connection speaks the version of the last `HELLO` that was not
refused, RESP2 if there is none; the reply is encoded under it, and under RESP2
it has no attributes and only types of RESP2. -/
theorem session_fits [F64 F] (clientId : Int64) (storage : DashMap) (commands : List Command)
    {before after : List (Exchange F)} {e : Exchange F}
    (h : session env clock commands ⟨.fresh clientId, storage, 0⟩ = before ++ e :: after) :
    e.state.protocol = negotiatedFrom .resp2 (before ++ [e]) ∧
      (∃ w, Writes (encodeResponse e.result.response e.result.attributes e.state.protocol) w) ∧
      (e.state.protocol = .resp2 →
        e.result.attributes = none ∧ e.result.response.Everywhere Frame.Plain) :=
  session_fits_from env clock commands _ h

end Sessions

/-- `HELLO 3`, a refused `HELLO` and `CLIENT LIST`. -/
def helloCommands : List Command :=
  [⟨"HELLO", [[0x33]]⟩, ⟨"HELLO", [[0x39]]⟩, ⟨"CLIENT", [[0x4C, 0x49, 0x53, 0x54]]⟩]

/-- The reply to the last of them is encoded under RESP3. -/
theorem session_fits_helloCommands : ∃ w, Writes (encodeResponse
    (.simpleString (clientListSummary ⟨.resp3, none, 7⟩) : Frame WholeDouble)
    (some (clientListAttributes ⟨.resp3, none, 7⟩)) .resp3) w := by
  have hsession : session ⟨none, none, none, none⟩ (fun _ => .origin) helloCommands
      ⟨.fresh 7, fun _ => none, 0⟩ = [_, _] ++ (_ : Exchange WholeDouble) :: [] := rfl
  exact (session_fits _ _ 7 (fun _ => none) helloCommands hsession).2.1

end RalphDb
