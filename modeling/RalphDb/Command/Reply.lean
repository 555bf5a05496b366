import RalphDb.Command.Session
import RalphDb.Protocol.Request

/-!
# RalphDb.Command.Reply

Whether a client reads back the reply that was meant.

A reply is read back when its bytes are its attributes, where the version has
them, then its response, and nothing more.  Tame replies are.  Three commands
can break the framing: `INFO` and `CLIENT LIST` copy bytes of the client into a
line, which a line feed cuts in two, and `CONFIG GET` may send a configured
value over the bulk cap.  `readBack_iff` says that these are all.
-/

namespace RalphDb

open Base
open Base.Call
open Base.Fallible

variable {F : Type}

/-! ## Reading back -/

/-- The frame a client reads for a response: RESP2 has a null bulk string for
null, at every depth. -/
def Frame.seenBy [F64 F] : ProtocolVersion → Frame F → Frame F
  | .resp3, f => f
  | .resp2, f => f.lower

/-- `w` is read as the response of the result, after its attributes where the
version has them, and nothing is left. -/
def CommandResult.ReadFrom [F64 F] (result : CommandResult F) (version : ProtocolVersion)
    (w : List UInt8) (e : Ending) : Prop :=
  match version, result.attributes with
  | .resp3, some attributes => ∃ rest,
      decodeFrame.run ⟨w, e⟩ = (.ok (.attr attributes), ⟨rest, e⟩) ∧
        decodeFrame.run ⟨rest, e⟩ = (.ok result.response, ⟨[], e⟩)
  | version, _ => decodeFrame.run ⟨w, e⟩ = (.ok (result.response.seenBy version), ⟨[], e⟩)

/-- The reply is encoded, and its bytes are read back. -/
def CommandResult.ReadBack [F64 F] (result : CommandResult F) (version : ProtocolVersion) : Prop :=
  ∃ w, Writes (encodeResponse result.response result.attributes version) w ∧
    ∀ e, result.ReadFrom version w e

/-- A payload within the bulk cap. -/
def Short (value : List UInt8) : Prop := value.length ≤ bulkLimit

theorem simpleString_injective : Function.Injective (Frame.simpleString : String → Frame F) :=
  fun _ _ h => Frame.simpleString.inj h

theorem error_injective : Function.Injective (Frame.error : String → Frame F) :=
  fun _ _ h => Frame.error.inj h

section ReadBack

variable [F64 F] {version : ProtocolVersion}

theorem readBack_of_reads {response : Frame F} {close : Bool} {w : List UInt8}
    (hw : Writes (encodeFrame response version) w)
    (hr : Reads decodeFrame w (response.seenBy version)) :
    (⟨response, none, close⟩ : CommandResult F).ReadBack version := by
  refine ⟨w, ?_, fun e => ?_⟩
  · show Writes (encodeResponse response none version) w
    rw [encodeResponse_none]
    exact hw
  · have hread := hr.whole e
    cases version <;> exact hread

/-- Tame frames within the caps meet the demands of both versions. -/
theorem Frame.Tame.safe {f : Frame F} (h : f.Tame Short (· ≤ collectionLimit)) :
    f.WireSafe ∧ f.Resp2Safe := by
  cases f with
  | bulkString value => cases value <;> exact ⟨h, h⟩
  | array elements => cases elements <;> exact ⟨h, h⟩
  | simpleString value => exact ⟨h, h⟩
  | error value => exact ⟨h, h⟩
  | integer value => exact ⟨trivial, trivial⟩
  | null => exact ⟨trivial, trivial⟩
  | _ => exact h.elim

theorem modest_wireSafe : Modest (Frame.WireSafe : Frame F → Prop) :=
  ⟨fun _ h => h, fun _ => trivial, fun _ h => h, fun _ h => h, fun _ h => h, fun _ h => h⟩

/-- A tame response is read back. -/
theorem readBack_of_tame {response : Frame F} {close : Bool}
    (htame : response.Everywhere (Frame.Tame Short (· ≤ collectionLimit)))
    (version : ProtocolVersion) :
    (⟨response, none, close⟩ : CommandResult F).ReadBack version := by
  cases version with
  | resp3 =>
      obtain ⟨w, hw, hr⟩ := roundTrips_of_wireSafe response (htame.imp fun f hf => hf.safe.1)
      exact readBack_of_reads hw hr
  | resp2 =>
      have hspelled : response.Everywhere (Frame.Spelled .resp2) :=
        htame.imp fun f hf => hf.plain.spelled .resp2
      have hlower := wireSafe_lower response hspelled (htame.imp fun f hf => hf.safe.2)
      obtain ⟨w, hw, hr⟩ := roundTrips_of_wireSafe response.lower hlower
      rw [← encodeFrame_resp2 response hspelled] at hw
      exact readBack_of_reads hw hr

/-- What the encoder writes decides whether a reply without attributes is read
back. -/
theorem reads_of_readBack {response : Frame F} {close : Bool} {w : List UInt8}
    (h : (⟨response, none, close⟩ : CommandResult F).ReadBack version)
    (hw : Writes (encodeFrame response version) w) :
    decodeFrame.run ⟨w, .eof⟩ = (.ok (response.seenBy version), ⟨[], .eof⟩) := by
  obtain ⟨w', hw', hread⟩ := h
  have hw'' : Writes (encodeFrame response version) w' := by
    rw [← encodeResponse_none]
    exact hw'
  rw [hw.unique hw'']
  cases version <;> exact hread .eof

/-! ## Lines with a line feed -/

/-- A frame of a text with a line feed is not read from a line. -/
theorem not_reads_line {tag : UInt8} {frameOf : String → Frame F}
    (hdispatch : decodeTagged (decodeFrame : Read (Frame F)) tag =
      decodeLine fun line => .ok (frameOf line))
    (hinj : Function.Injective frameOf) {text : String} (h : '\n' ∈ text.toList) {w : List UInt8}
    {e : Ending} {r : Reader} : decodeFrame.run ⟨tag :: w, e⟩ ≠ (.ok (frameOf text), r) := by
  intro hread
  rw [decodeFrame_cons, hdispatch] at hread
  obtain ⟨line, hline, heq⟩ := decodeLine_eq_ok hread
  obtain rfl : line = text := hinj (Except.ok.inj heq)
  exact hline h

theorem not_readBack_error {text : String} (h : '\n' ∈ text.toList) (version : ProtocolVersion) :
    ¬ (CommandResult.error text : CommandResult F).ReadBack version := by
  intro hback
  have hw : Writes (encodeFrame (.error text : Frame F) version) (lineBytes 0x2D text) := by
    cases version <;> exact writes_writeLine "-" 0x2D (by decide) text
  have hread := reads_of_readBack hback hw
  cases version <;> exact not_reads_line rfl error_injective h hread

theorem not_readBack_simpleString {text : String} (h : '\n' ∈ text.toList)
    (version : ProtocolVersion) :
    ¬ (CommandResult.ok (.simpleString text) : CommandResult F).ReadBack version := by
  intro hback
  have hw : Writes (encodeFrame (.simpleString text : Frame F) version) (lineBytes 0x2B text) := by
    cases version <;> exact writes_writeLine "+" 0x2B (by decide) text
  have hread := reads_of_readBack hback hw
  cases version <;> exact not_reads_line rfl simpleString_injective h hread

/-! ## Requests as replies -/

theorem lower_request (args : List (List UInt8)) :
    (request args : Frame F).lower = request args := by
  rw [request, Frame.lower, Frame.lowerAll_eq_map, List.map_map]
  rfl

theorem seenBy_request (args : List (List UInt8)) (version : ProtocolVersion) :
    (request args : Frame F).seenBy version = request args := by
  cases version with
  | resp3 => rfl
  | resp2 => exact lower_request args

/-- An array of bulk strings is read back exactly when they are within the
cap. -/
theorem readBack_request_iff {args : List (List UInt8)} (hcount : args.length ≤ collectionLimit)
    (version : ProtocolVersion) :
    (CommandResult.ok (request args) : CommandResult F).ReadBack version ↔
      ∀ arg ∈ args, Short arg := by
  constructor
  · intro hback
    by_contra hlong
    obtain ⟨value, hvalue⟩ :
        ∃ value, args.find? (fun arg => bulkLimit < arg.length) = some value := by
      rw [← Option.isSome_iff_exists, List.find?_isSome]
      simpa [Short] using hlong
    obtain ⟨hover, before, after, rfl, hbefore⟩ := List.find?_eq_some_iff_append.mp hvalue
    have hread := reads_of_readBack hback (writes_request _ version)
    obtain ⟨message, hrefused⟩ := request_oversized (F := F) hcount
      (fun arg harg => by simpa using hbefore arg harg) (by simpa using hover) [] .eof
    rw [List.append_nil, hread] at hrefused
    simp at hrefused
  · intro hshort
    refine readBack_of_reads (writes_request args version) ?_
    rw [seenBy_request]
    exact reads_request ⟨hcount, hshort⟩

end ReadBack

/-! ## Texts of the client in a line -/

theorem lf_mem_infoSection (bytes : List UInt8) :
    '\n' ∈ (infoSection [bytes]).toList ↔ lf ∈ bytes := by
  rw [infoSection, lf_mem_toAsciiLowercase, lf_mem_fromUtf8Lossy]

theorem lf_mem_infoError (bytes : List UInt8) :
    '\n' ∈ ("ERR unsupported INFO section '" ++ infoSection [bytes] ++ "'").toList ↔
      lf ∈ bytes := by
  have hhead : '\n' ∉ "ERR unsupported INFO section '".toList := by decide
  have htail : '\n' ∉ "'".toList := by decide
  rw [← lf_mem_infoSection]
  simp only [String.toList_append, List.mem_append, hhead, htail, false_or, or_false]

theorem info_eq_error {bytes : List UInt8} (hlf : lf ∈ bytes) :
    (info [bytes] : CommandResult F) =
      .error ("ERR unsupported INFO section '" ++ infoSection [bytes] ++ "'") := by
  have hmem := (lf_mem_infoSection bytes).mpr hlf
  have hdefault : infoSection [bytes] ≠ "default" := by
    intro heq
    rw [heq] at hmem
    exact absurd hmem (by decide)
  have hserver : infoSection [bytes] ≠ "server" := by
    intro heq
    rw [heq] at hmem
    exact absurd hmem (by decide)
  rw [info, if_neg (by simp)]
  split
  · next heq => exact absurd heq hdefault
  · next heq => exact absurd heq hserver
  · rfl

theorem lf_mem_clientListSummary (state : ConnectionState) :
    '\n' ∈ (clientListSummary state).toList ↔ ∃ name, state.clientName = some name ∧ lf ∈ name := by
  have hid : '\n' ∉ "id=".toList := by decide
  have hnumber : '\n' ∉ (toString state.clientId.toInt).toList := lf_not_mem_toString_int _
  have hprotocol : '\n' ∉ " protocol=".toList := by decide
  have hversion : '\n' ∉ state.protocol.text.toList := by cases state.protocol <;> decide
  have hname : '\n' ∉ " name=".toList := by decide
  have hnull : '\n' ∉ " name=(null)".toList := by decide
  cases hclient : state.clientName with
  | none =>
      simp only [clientListSummary, hclient, String.toList_append, List.mem_append, hid, hnumber,
        hprotocol, hversion, hnull, or_false, reduceCtorEq, false_and, exists_false]
  | some name =>
      simp only [clientListSummary, hclient, String.toList_append, List.mem_append, hid, hnumber,
        hprotocol, hversion, hname, or_false, false_or, lf_mem_fromUtf8Lossy, Option.some.injEq,
        exists_eq_left']

/-! ## The configuration -/

/-- The entries that a pattern selects. -/
def configSelected (env : Environment) (pattern : String) : List (String × String) :=
  (configEntries env).filter fun entry => matchesPattern pattern entry.1

/-- The texts of these entries, each key before its value. -/
def configTexts (env : Environment) (pattern : String) : List (List UInt8) :=
  (configSelected env pattern).flatMap fun entry => [utf8 entry.1, utf8 entry.2]

theorem configFrames_eq (env : Environment) (pattern : String) :
    (Frame.array (some (configFrames env pattern)) : Frame F) =
      request (configTexts env pattern) := by
  simp [request, configTexts, configFrames, configSelected, List.map_flatMap]

theorem length_configTexts_le (env : Environment) (pattern : String) :
    (configTexts env pattern).length ≤ collectionLimit := by
  have hselected : (configSelected env pattern).length ≤ 7 := List.length_filter_le _ _
  have htexts : (configTexts env pattern).length = 2 * (configSelected env pattern).length := by
    simp [configTexts, List.length_flatMap, List.map_const', Nat.mul_comm]
  have hlimit : 14 ≤ collectionLimit := by decide
  omega

theorem short_configKey {env : Environment} {entry : String × String}
    (h : entry ∈ configEntries env) : Short (utf8 entry.1) := by
  have hlimit : 56 ≤ bulkLimit := by decide
  have hlength : entry.1.toList.length ≤ 14 := by
    have hkey : entry.1 ∈ ["server.name", "server.version", "server.bind", "server.port",
        "server.threads", "save", "appendonly"] := List.mem_map_of_mem (f := Prod.fst) h
    generalize entry.1 = key at hkey
    revert key
    decide
  have hbytes := length_utf8_le entry.1
  show (utf8 entry.1).length ≤ bulkLimit
  omega

/-- The selected texts are short exactly when the selected values are. -/
theorem short_configTexts_iff (env : Environment) (pattern : String) :
    (∀ text ∈ configTexts env pattern, Short text) ↔
      ∀ entry ∈ configSelected env pattern, Short (utf8 entry.2) := by
  have hkeys : ∀ entry ∈ configSelected env pattern, Short (utf8 entry.1) :=
    fun entry hentry => short_configKey (List.mem_filter.mp hentry).1
  simp only [configTexts, List.mem_flatMap, List.mem_cons, List.not_mem_nil, or_false]
  constructor
  · exact fun h entry hentry => h _ ⟨entry, hentry, .inr rfl⟩
  · intro h text htext
    obtain ⟨entry, hentry, rfl | rfl⟩ := htext
    · exact hkeys entry hentry
    · exact h entry hentry

/-! ## Which commands break the framing -/

/-- The commands whose reply is not read back: an `INFO` section or a client
name with a line feed is sent in a line, or a configured value over the cap is
sent as a bulk string. -/
inductive BreaksFraming (env : Environment) (command : Command) (state : ConnectionState) : Prop
  | info {bytes : List UInt8} (hname : command.name = "INFO") (hargs : command.args = [bytes])
      (hlf : lf ∈ bytes)
  | clientList {subcommand name : List UInt8} (hname : command.name = "CLIENT")
      (hargs : command.args = [subcommand])
      (hlist : toAsciiUppercase (fromUtf8Lossy subcommand) = "LIST")
      (hclient : state.clientName = some name) (hlf : lf ∈ name)
  | configGet {subcommand pattern : List UInt8} {text : String} {entry : String × String}
      (hname : command.name = "CONFIG") (hargs : command.args = [subcommand, pattern])
      (hget : toAsciiUppercase (fromUtf8Lossy subcommand) = "GET")
      (htext : fromUtf8 pattern = some text) (hentry : entry ∈ configSelected env text)
      (hlong : ¬ Short (utf8 entry.2))

theorem covers_short : Covers Short (· ≤ collectionLimit) := by
  refine ⟨fun n => ?_, ?_⟩
  · have hlimit : 80 ≤ bulkLimit := by decide
    have hbytes := length_utf8_le (toString n.toInt)
    have hdigits := length_toString_i64_le n
    show (utf8 (toString n.toInt)).length ≤ bulkLimit
    omega
  · show (utf8 infoBody).length ≤ bulkLimit
    decide

section Framing

variable [F64 F] {env : Environment} {command : Command} {state state' : ConnectionState}
  {result : CommandResult F}

theorem wireSafe_nameFrame (hclient : ∀ name ∈ state.clientName, Short name) :
    (nameFrame state : Frame F).Everywhere Frame.WireSafe :=
  (tame_nameFrame hclient).imp fun _ hf => hf.safe.1

/-- The reply of `CLIENT LIST`, when the name has no line feed. -/
theorem readBack_clientList (hclient : ∀ name ∈ state.clientName, Short name)
    (hlf : ¬ ∃ name, state.clientName = some name ∧ lf ∈ name) :
    (clientList [] state : CommandResult F).ReadBack state.protocol := by
  have hline : '\n' ∉ (clientListSummary state).toList :=
    fun hmem => hlf ((lf_mem_clientListSummary state).mp hmem)
  cases hversion : state.protocol with
  | resp2 =>
      rw [clientList_resp2 hversion]
      exact readBack_of_tame (tame_simpleString hline).response _
  | resp3 =>
      obtain ⟨w, hw, hr⟩ := roundTrips_of_wireSafe (F := F) _
        (everywhere_clientListAttributes modest_wireSafe (wireSafe_nameFrame hclient))
      obtain ⟨w', hw', hr'⟩ := roundTrips_of_wireSafe
        (.simpleString (clientListSummary state) : Frame F) (.leaf rfl hline)
      rw [clientList_resp3 hversion]
      exact ⟨w ++ w', writes_bind hw hw', fun e => ⟨w', hr w' e, hr'.whole e⟩⟩

/-- A command that does not break the framing is read back. -/
theorem readBack_of_answers (hclient : ∀ name ∈ state.clientName, Short name)
    (h : Answers env Short (· ≤ collectionLimit) command state result state')
    (hbreaks : ¬ BreaksFraming env command state) : result.ReadBack state'.protocol := by
  cases h with
  | tame htame _ _ =>
      obtain ⟨response, attributes, close⟩ := result
      obtain rfl : attributes = none := htame.attributes
      exact readBack_of_tame htame.response _
  | quit _ => exact readBack_of_tame (tame_fixedString (by decide)).response _
  | infoSection hname hargs =>
      refine readBack_of_tame (tame_error fun hmem => ?_).response _
      exact hbreaks (.info hname hargs ((lf_mem_infoError _).mp hmem))
  | clientList hname hargs hlist =>
      refine readBack_clientList hclient fun hlf => ?_
      obtain ⟨name, hname', hlf⟩ := hlf
      exact hbreaks (.clientList hname hargs hlist hname' hlf)
  | configGet hname hargs hget htext =>
      rw [configFrames_eq, readBack_request_iff (length_configTexts_le _ _), short_configTexts_iff]
      intro entry hentry
      by_contra hlong
      exact hbreaks (.configGet hname hargs hget htext hentry hlong)
  | hello2 _ _ => exact readBack_of_tame (tame_fixedString (by decide)).response _
  | hello3 _ _ =>
      obtain ⟨w, hw, hr⟩ := roundTrips_of_wireSafe (F := F) _
        (everywhere_helloPayload modest_wireSafe { state with protocol := .resp3 })
      exact readBack_of_reads hw hr

/-! ## Broken replies -/

theorem not_readBack_clientList {name : List UInt8} (hshort : ∀ name ∈ state.clientName, Short name)
    (hclient : state.clientName = some name) (hlf : lf ∈ name) :
    ¬ (clientList [] state : CommandResult F).ReadBack state.protocol := by
  have hmem : '\n' ∈ (clientListSummary state).toList :=
    (lf_mem_clientListSummary state).mpr ⟨name, hclient, hlf⟩
  cases hversion : state.protocol with
  | resp2 =>
      rw [clientList_resp2 hversion]
      exact not_readBack_simpleString hmem _
  | resp3 =>
      obtain ⟨w₁, hw₁, hr₁⟩ := roundTrips_of_wireSafe (F := F) _
        (everywhere_clientListAttributes modest_wireSafe (wireSafe_nameFrame hshort))
      have hline := writes_writeLine "+" 0x2B (by decide) (clientListSummary state)
      rw [clientList_resp3 hversion]
      intro hback
      obtain ⟨w, hw, hread⟩ := hback
      -- the attributes are read back, so what is left for the response is its line
      rw [hw.unique (writes_bind hw₁ hline)] at hread
      obtain ⟨rest, hattributes, hresponse⟩ := hread .eof
      rw [hr₁] at hattributes
      obtain rfl := congrArg Reader.unread (Prod.mk.inj hattributes).2
      simp only [CommandResult.withAttributes, lineBytes] at hresponse
      exact not_reads_line rfl simpleString_injective hmem hresponse

/-- A command that breaks the framing is not read back. -/
theorem not_readBack_of_breaks (clock : Nat → Instant) (s : Served)
    (hclient : ∀ name ∈ s.state.clientName, Short name)
    (h : BreaksFraming env command s.state) :
    ¬ (serve env clock command s : CommandResult F × Served).1.ReadBack
      (serve env clock command s : CommandResult F × Served).2.state.protocol := by
  obtain ⟨name, args⟩ := command
  cases h with
  | @info bytes hname hargs hlf =>
      obtain rfl : name = "INFO" := hname
      obtain rfl : args = [bytes] := hargs
      have hrun : (execute env ⟨"INFO", [bytes]⟩ s.state : StorageCall (CommandResult F × _)) =
          pure (info [bytes], s.state) := rfl
      rw [serve_of_pure hrun, info_eq_error hlf]
      exact not_readBack_error ((lf_mem_infoError bytes).mpr hlf) _
  | @clientList subcommand clientName hname hargs hlist hclientName hlf =>
      obtain rfl : name = "CLIENT" := hname
      obtain rfl : args = [subcommand] := hargs
      have hlisted : (client [subcommand] s.state : CommandResult F × _) =
          (clientList [] s.state, s.state) := by simp only [client, hlist]
      have hrun : (execute env ⟨"CLIENT", [subcommand]⟩ s.state :
          StorageCall (CommandResult F × _)) = pure (client [subcommand] s.state) := rfl
      rw [hlisted] at hrun
      rw [serve_of_pure hrun]
      exact not_readBack_clientList hclient hclientName hlf
  | @configGet subcommand pattern text entry hname hargs hget htext hentry hlong =>
      obtain rfl : name = "CONFIG" := hname
      obtain rfl : args = [subcommand, pattern] := hargs
      have hselected : (config env [subcommand, pattern] : CommandResult F) =
          .ok (.array (some (configFrames env text))) := by simp [config, hget, htext]
      have hrun : (execute env ⟨"CONFIG", [subcommand, pattern]⟩ s.state :
          StorageCall (CommandResult F × _)) =
            pure (config env [subcommand, pattern], s.state) := rfl
      rw [serve_of_pure hrun, hselected, configFrames_eq,
        readBack_request_iff (length_configTexts_le _ _), short_configTexts_iff]
      exact fun hall => hlong (hall entry hentry)

/-- **When a reply is read back.**  For every connection, store and command
within the caps, the reply is read back exactly when the command is none of
those that break the framing. -/
theorem readBack_iff (env : Environment) (clock : Nat → Instant) (command : Command) (s : Served)
    (hargs : WithinCaps command.args) (hclient : ∀ name ∈ s.state.clientName, Short name)
    (hstorage : ∀ key, Sound (Stored Short) (s.storage key)) :
    (serve env clock command s : CommandResult F × Served).1.ReadBack
        (serve env clock command s : CommandResult F × Served).2.state.protocol ↔
      ¬ BreaksFraming env command s.state := by
  have hanswers := (upholds_runOn (execute_answers (F := F) env covers_short hargs.sizes
    hargs.count hclient) hstorage clock s.ticks).1
  constructor
  · exact fun hback hbreaks => not_readBack_of_breaks clock s hclient hbreaks hback
  · exact readBack_of_answers hclient hanswers

end Framing

/-- `ECHO` of a reply is read back as one bulk string. -/
theorem readBack_iff_echo :
    (serve ⟨none, none, none, none⟩ (fun _ => .origin)
      ⟨"ECHO", [[0x0D, 0x0A, 0x2B, 0x6F, 0x6B, 0x0D, 0x0A]]⟩ freshServed :
        CommandResult WholeDouble × Served).1.ReadBack .resp2 := by
  refine (readBack_iff _ _ _ freshServed ⟨by decide, ?_⟩ (fun _ hname => by contradiction)
    fun _ _ hentry => by contradiction).mpr fun hbreaks => ?_
  · exact List.forall_mem_singleton.mpr (by decide)
  · cases hbreaks <;> contradiction

/-- `INFO` of a section with a line feed, here `x`, CRLF, `+ok`, is not. -/
theorem not_readBack_info :
    ¬ (serve ⟨none, none, none, none⟩ (fun _ => .origin)
      ⟨"INFO", [[0x78, 0x0D, 0x0A, 0x2B, 0x6F, 0x6B]]⟩ freshServed :
        CommandResult WholeDouble × Served).1.ReadBack .resp2 :=
  not_readBack_of_breaks _ freshServed (fun _ hname => by contradiction)
    (.info rfl rfl (by decide))

end RalphDb
