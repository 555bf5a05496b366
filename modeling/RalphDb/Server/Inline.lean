import RalphDb.Protocol.Inline
import RalphDb.Server.Upgrade

/-!
# RalphDb.Server.Inline

Inline commands and requests agree.

A client may send the arguments of a command as a request or as an inline
command: one line with blanks between the tokens, before the first and after the
last (`SpacedLine`).  However the line is laid out, it is decoded to the frame
of the request and nothing after it is taken (`inline_agrees`), so the loop
serves both alike (`handleConnection_inline`).
-/

namespace RalphDb

open Base
open Base.Fallible

variable {F : Type}

/-! ## Lines -/

/-- A run of spaces and tabs, which may be empty. -/
def Blanks (bytes : List UInt8) : Prop := ∀ b ∈ bytes, isBlank b = true

/-- A token that an inline command can hold. -/
structure InlineToken (token : List UInt8) : Prop where
  nonempty : token ≠ []
  solid : ∀ b ∈ token, isBlank b = false
  oneLine : lf ∉ token

/-- The tokens in order, with blanks between them and perhaps after the last. -/
inductive Spaced : List (List UInt8) → List UInt8 → Prop
  | last {token trailing : List UInt8} (isToken : InlineToken token) (blank : Blanks trailing) :
      Spaced [token] (token ++ trailing)
  | next {token gap content : List UInt8} {tokens : List (List UInt8)}
      (isToken : InlineToken token) (blank : Blanks gap) (nonempty : gap ≠ [])
      (rest : Spaced tokens content) : Spaced (token :: tokens) (token ++ gap ++ content)

/-- A line with these tokens.  A bare line feed ends it unless a carriage return
comes before. -/
inductive SpacedLine (tokens : List (List UInt8)) : List UInt8 → Prop
  | crlf {leading content : List UInt8} (blank : Blanks leading) (spaced : Spaced tokens content) :
      SpacedLine tokens (leading ++ content ++ [cr, lf])
  | bare {leading content : List UInt8} (blank : Blanks leading) (spaced : Spaced tokens content)
      (noCr : ¬ [cr] <:+ leading ++ content) : SpacedLine tokens (leading ++ content ++ [lf])

theorem lf_not_mem_blanks {bytes : List UInt8} (h : Blanks bytes) : lf ∉ bytes := by
  intro hmem
  have hblank := h lf hmem
  simp [isBlank, lf] at hblank

theorem Spaced.lf_not_mem {tokens : List (List UInt8)} {content : List UInt8}
    (h : Spaced tokens content) : lf ∉ content := by
  induction h with
  | last isToken blank => simp [isToken.oneLine, lf_not_mem_blanks blank]
  | next isToken blank nonempty rest ih => simp [isToken.oneLine, lf_not_mem_blanks blank, ih]

theorem Spaced.tokens_ne_nil {tokens : List (List UInt8)} {content : List UInt8}
    (h : Spaced tokens content) : tokens ≠ [] := by
  cases h <;> simp

/-! ## Tokens -/

/-- Blanks before a content add no token. -/
theorem runs_blanks {bytes content : List UInt8} {tokens : List (List UInt8)} (h : Blanks bytes)
    (hruns : Runs content tokens) : Runs (bytes ++ content) tokens := by
  induction bytes with
  | nil => exact hruns
  | cons b bytes ih =>
      obtain ⟨hb, hbytes⟩ := List.forall_mem_cons.mp h
      exact .blank hb (ih hbytes)

/-- However they are spaced, the tokens are the maximal runs. -/
theorem Spaced.runs {tokens : List (List UInt8)} {content : List UInt8}
    (h : Spaced tokens content) : Runs content tokens := by
  induction h with
  | @last token trailing isToken blank =>
      cases trailing with
      | nil =>
          rw [List.append_nil]
          exact .last isToken.nonempty isToken.solid
      | cons b trailing =>
          obtain ⟨hb, htrailing⟩ := List.forall_mem_cons.mp blank
          have hrest : Runs (trailing ++ []) [] := runs_blanks htrailing .nil
          rw [List.append_nil] at hrest
          exact .run isToken.nonempty isToken.solid hb hrest
  | @next token gap content tokens isToken blank nonempty rest ih =>
      obtain ⟨b, gap, rfl⟩ := List.exists_cons_of_ne_nil nonempty
      obtain ⟨hb, hgap⟩ := List.forall_mem_cons.mp blank
      rw [List.append_assoc]
      exact .run isToken.nonempty isToken.solid hb (runs_blanks hgap ih)

/-- The content of a line, its tokens and its terminator. -/
theorem SpacedLine.line {tokens : List (List UInt8)} {line : List UInt8}
    (h : SpacedLine tokens line) : ∃ content, Runs content tokens ∧ Line content line := by
  have hcontent : ∀ {leading content}, Blanks leading → Spaced tokens content →
      Runs (leading ++ content) tokens ∧ lf ∉ leading ++ content := fun blank spaced =>
    ⟨runs_blanks blank spaced.runs, by simp [lf_not_mem_blanks blank, spaced.lf_not_mem]⟩
  cases h with
  | crlf blank spaced =>
      obtain ⟨hruns, hlf⟩ := hcontent blank spaced
      exact ⟨_, hruns, hlf, .inl rfl⟩
  | bare blank spaced noCr =>
      obtain ⟨hruns, hlf⟩ := hcontent blank spaced
      exact ⟨_, hruns, hlf, .inr ⟨noCr, rfl⟩⟩

theorem SpacedLine.tokens_ne_nil {tokens : List (List UInt8)} {line : List UInt8}
    (h : SpacedLine tokens line) : tokens ≠ [] := by
  cases h with
  | crlf blank spaced => exact spaced.tokens_ne_nil
  | bare blank spaced noCr => exact spaced.tokens_ne_nil

/-- A line without its first byte. -/
theorem line_tail {b : UInt8} {text line : List UInt8} (h : Line (b :: text) line) :
    ∃ l, line = b :: l ∧ Line text l := by
  obtain ⟨hlf, rfl | ⟨hcr, rfl⟩⟩ := h
  · exact ⟨text ++ [cr, lf], rfl, by simp_all, .inl rfl⟩
  · refine ⟨text ++ [lf], rfl, by simp_all, .inr ⟨fun hsuffix => hcr ?_, rfl⟩⟩
    exact hsuffix.trans (List.suffix_cons b text)

/-! ## Agreement -/

/-- The command of a request, the same under both versions. -/
def requestCommand (args : List (List UInt8)) : Except String Command :=
  match args with
  | [] => .error "ERR missing command"
  | name :: args =>
      match fromUtf8 name with
      | none => .error "ERR invalid command name encoding"
      | some name => .ok ⟨toAsciiUppercase name, args⟩

section Agreement

variable [F64 F]

theorem fromFrame_requestCommand (args : List (List UInt8)) (version : ProtocolVersion) :
    Command.fromFrameWithProtocol (request args : Frame F) version = requestCommand args := by
  cases args with
  | nil => rfl
  | cons name args =>
      cases h : fromUtf8 name <;>
        simp [request, Command.fromFrameWithProtocol, commandName, requestCommand,
          toArgs_bulkStrings, h]

/-- A line is decoded to the request of its tokens. -/
theorem decodeFrame_spacedLine {tokens : List (List UInt8)} {line : List UInt8}
    (h : SpacedLine tokens line) (htag : ∀ tag ∈ line.head?, tag ∉ typeBytes) (rest : List UInt8)
    (e : Ending) :
    (decodeFrame : Read (Frame F)).run ⟨line ++ rest, e⟩ = (.ok (request tokens), ⟨rest, e⟩) := by
  obtain ⟨content, hruns, hline⟩ := h.line
  obtain rfl := runs_iff.mp hruns
  cases content with
  | nil => exact absurd rfl h.tokens_ne_nil
  | cons tag text =>
      obtain ⟨l, rfl, htext⟩ := line_tail hline
      have hwire : Wire (inlineFrame (tag :: text) : Frame F) (tag :: l) :=
        .inline (htag tag rfl) htext h.tokens_ne_nil
      exact reads_of_wire _ hwire rest e

/-- **Inline commands and requests agree**: a line with the tokens and the
request with them as its arguments, as either version encodes it, are decoded
to one frame and leave what follows; that frame is one command, or one error,
under both versions. -/
theorem inline_agrees {tokens : List (List UInt8)} {line : List UInt8}
    (hline : SpacedLine tokens line) (hcaps : WithinCaps tokens)
    (htag : ∀ tag ∈ line.head?, tag ∉ typeBytes) (rest : List UInt8) (e : Ending) :
    (decodeFrame : Read (Frame F)).run ⟨line ++ rest, e⟩ = (.ok (request tokens), ⟨rest, e⟩) ∧
    (∀ version, ∃ w, Writes (encodeFrame (request tokens : Frame F) version) w ∧
      (decodeFrame : Read (Frame F)).run ⟨w ++ rest, e⟩ = (.ok (request tokens), ⟨rest, e⟩)) ∧
    ∀ version, Command.fromFrameWithProtocol (request tokens : Frame F) version =
      requestCommand tokens :=
  ⟨decodeFrame_spacedLine hline htag rest e,
    fun version => ⟨_, writes_request tokens version, reads_request hcaps rest e⟩,
    fromFrame_requestCommand tokens⟩

/-- The loop serves a line as it serves the request. -/
theorem handleConnection_inline {tokens : List (List UInt8)} {line : List UInt8}
    (hline : SpacedLine tokens line) (hcaps : WithinCaps tokens)
    (htag : ∀ tag ∈ line.head?, tag ∉ typeBytes) (env : Environment) (clock : Nat → Instant)
    (rest : List UInt8) (e : Ending) (s : Served) (sent : List (Sent F)) :
    handleConnection env clock ⟨⟨line ++ rest, e⟩, s, sent⟩ =
      handleConnection env clock ⟨⟨requestBytes tokens ++ rest, e⟩, s, sent⟩ := by
  rw [handleConnection_decoded (decodeFrame_spacedLine hline htag rest e),
    handleConnection_decoded (reads_request hcaps rest e)]

end Agreement

/-- `ECHO`, a tab, a carriage return, two spaces and the terminator: a token may
be a carriage return. -/
theorem inline_agrees_echo :
    (decodeFrame : Read (Frame WholeDouble)).run
        ⟨[0x20, 0x45, 0x43, 0x48, 0x4F, 0x09, 0x0D, 0x20, 0x20, 0x0D, 0x0A, 0x2A], .eof⟩ =
      (.ok (request [[0x45, 0x43, 0x48, 0x4F], [0x0D]]), ⟨[0x2A], .eof⟩) := by
  have hspaced : Spaced [[0x45, 0x43, 0x48, 0x4F], [0x0D]]
      ([0x45, 0x43, 0x48, 0x4F] ++ [0x09] ++ ([0x0D] ++ [0x20, 0x20])) :=
    .next ⟨by simp, by simp [isBlank], by decide⟩ (by simp [Blanks, isBlank]) (by simp)
      (.last ⟨by simp, by simp [isBlank], by decide⟩ (by simp [Blanks, isBlank]))
  have hline : SpacedLine [[0x45, 0x43, 0x48, 0x4F], [0x0D]]
      ([0x20] ++ ([0x45, 0x43, 0x48, 0x4F] ++ [0x09] ++ ([0x0D] ++ [0x20, 0x20])) ++
        [0x0D, 0x0A]) :=
    .crlf (by simp [Blanks, isBlank]) hspaced
  have hcaps : WithinCaps [[0x45, 0x43, 0x48, 0x4F], [0x0D]] := ⟨by decide, by decide⟩
  exact (inline_agrees (F := WholeDouble) hline hcaps (by simp [typeBytes]) [0x2A] .eof).1

end RalphDb
