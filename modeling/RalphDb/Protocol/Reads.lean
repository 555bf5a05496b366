import RalphDb.Protocol.Decode

/-!
# RalphDb.Protocol.Reads

What the parts of the decoder read.

* **lines** — a line is read back whatever follows it, and the bytes of the
  stream up to its end are no line;
* **consumption** — no part un-reads a byte, and `decode_frame` reads its type
  byte before it calls itself: its body is `Guarded`, so `decodeFrame_eq` is
  the recursion of the source;
* **delimitation** — every part is self-delimiting, hence `decode_frame` is:
  an accepted frame means the same whatever follows it, and no strict prefix
  of its bytes is accepted (`selfDelimiting_decodeFrame`).
-/

namespace RalphDb

open Base
open Base.Fallible

variable {F : Type}

/-! ## Lines -/

/-- The line before a line feed: one carriage return at its end belongs to the
terminator. -/
def dropCr (line : List UInt8) : List UInt8 := if [cr] <:+ line then line.dropLast else line

theorem dropCr_append_cr (line : List UInt8) : dropCr (line ++ [cr]) = line := by
  rw [dropCr, if_pos (List.suffix_append line [cr]), List.dropLast_concat]

/-- A line keeps its bytes, less at most one carriage return. -/
theorem mem_of_mem_dropCr {line : List UInt8} {b : UInt8} (h : b ∈ dropCr line) : b ∈ line := by
  unfold dropCr at h
  split at h
  · exact List.dropLast_subset line h
  · exact h

theorem stripTerminator_append_lf (line : List UInt8) :
    stripTerminator (line ++ [lf]) = .ok (dropCr line) := by
  have hlf : [lf] <:+ line ++ [lf] := List.suffix_append line [lf]
  have hcrlf : [cr, lf] <:+ line ++ [lf] ↔ [cr] <:+ line := by
    show [cr] ++ [lf] <:+ line ++ [lf] ↔ [cr] <:+ line
    exact List.suffix_append_self_iff
  unfold stripTerminator
  by_cases h : [cr] <:+ line
  · rw [if_pos (hcrlf.mpr h)]
    obtain ⟨front, rfl⟩ := h
    rw [dropCr_append_cr]
    simp
  · rw [if_neg (fun hc => h (hcrlf.mp hc)), if_pos hlf, dropCr, if_neg h]
    simp

/-- Bytes without a line feed are no line. -/
theorem stripTerminator_of_no_lf {buffer : List UInt8} (h : lf ∉ buffer) :
    stripTerminator buffer = .error (invalidData "missing CRLF in frame") := by
  have hcrlf : ¬ [cr, lf] <:+ buffer := fun hsuf => h (hsuf.subset (by simp))
  have hlf : ¬ [lf] <:+ buffer := fun hsuf => h (hsuf.subset (by simp))
  rw [stripTerminator, if_neg hcrlf, if_neg hlf]

/-- The bytes up to the first line feed are read as one line, whatever
follows. -/
theorem readLineBytes_lf {line : List UInt8} (h : lf ∉ line) (rest : List UInt8) (e : Ending) :
    readLineBytes.run ⟨line ++ lf :: rest, e⟩ = (.ok (dropCr line), ⟨rest, e⟩) := by
  rw [readLineBytes, bind_run_ok (readUntil_append h rest e), if_neg (by simp), ofExcept_run,
    stripTerminator_append_lf]

/-- Without a line feed there is no line, and nothing is left. -/
theorem readLineBytes_no_lf {bs : List UInt8} (h : lf ∉ bs) (e : Ending) :
    ∃ err, readLineBytes.run ⟨bs, e⟩ = (.error err, ⟨[], e⟩) := by
  have hsplit : splitAfter lf bs = none := splitAfter_eq_none.mpr h
  cases e with
  | eof =>
      have hread : (readUntil lf).run ⟨bs, .eof⟩ = (.ok bs, ⟨[], .eof⟩) := by
        simp [readUntil, hsplit]
      rw [readLineBytes, bind_run_ok hread]
      split
      · exact ⟨_, rfl⟩
      · exact ⟨_, by rw [ofExcept_run, stripTerminator_of_no_lf h]⟩
  | wouldBlock =>
      have hread : (readUntil lf).run ⟨bs, .wouldBlock⟩ =
          (.error Ending.wouldBlock.error, ⟨[], .wouldBlock⟩) := by
        simp [readUntil, hsplit]
      exact ⟨_, bind_run_error hread _⟩
  | timedOut =>
      have hread : (readUntil lf).run ⟨bs, .timedOut⟩ =
          (.error Ending.timedOut.error, ⟨[], .timedOut⟩) := by
        simp [readUntil, hsplit]
      exact ⟨_, bind_run_error hread _⟩

/-- A line that is read was the bytes up to the first line feed. -/
theorem readLineBytes_eq_ok {bs line : List UInt8} {e : Ending} {r : Reader}
    (h : readLineBytes.run ⟨bs, e⟩ = (.ok line, r)) :
    ∃ raw rest, lf ∉ raw ∧ bs = raw ++ lf :: rest ∧ line = dropCr raw ∧ r = ⟨rest, e⟩ := by
  by_cases hlf : lf ∈ bs
  · cases hs : splitAfter lf bs with
    | none => exact absurd hlf (splitAfter_eq_none.mp hs)
    | some p =>
        obtain ⟨raw, hraw, _, hbs⟩ := splitAfter_eq_some (show _ = some (p.1, p.2) from hs)
        rw [hbs, readLineBytes_lf hraw] at h
        obtain ⟨hline, hr⟩ := Prod.mk.inj h
        exact ⟨raw, p.2, hraw, hbs, (Except.ok.inj hline).symm, hr.symm⟩
  · obtain ⟨err, herr⟩ := readLineBytes_no_lf hlf e
    rw [herr] at h
    simp at h

theorem utf8OrInvalid_eq_ok {bytes : List UInt8} {message s : String}
    (h : utf8OrInvalid bytes message = .ok s) : utf8 s = bytes := by
  unfold utf8OrInvalid at h
  split at h
  · next s' hs' =>
      rw [← Except.ok.inj h]
      exact utf8_of_fromUtf8 hs'
  · contradiction

@[simp] theorem utf8OrInvalid_utf8 (s message : String) :
    utf8OrInvalid (utf8 s) message = .ok s := by
  rw [utf8OrInvalid, fromUtf8_utf8]

/-- A text that was read as a line has no line feed. -/
theorem readLine_eq_ok {r r' : Reader} {s : String} (h : readLine.run r = (.ok s, r')) :
    '\n' ∉ s.toList := by
  obtain ⟨bytes, r₁, hbytes, hs⟩ := bind_eq_ok.mp h
  obtain ⟨raw, rest, hraw, _, hline, _⟩ := readLineBytes_eq_ok hbytes
  have hutf8 : utf8 s = bytes := utf8OrInvalid_eq_ok (Prod.mk.inj hs).1
  intro hc
  have hmem : lf ∈ utf8 s := (lf_mem_utf8 s).mpr hc
  rw [hutf8, hline] at hmem
  exact hraw (mem_of_mem_dropCr hmem)

theorem decodeLine_eq_ok {frameOf : String → Except IoError (Frame F)} {f : Frame F} {r r' : Reader}
    (h : (decodeLine frameOf).run r = (.ok f, r')) :
    ∃ line, '\n' ∉ line.toList ∧ frameOf line = .ok f := by
  obtain ⟨line, r₁, hline, hf⟩ := bind_eq_ok.mp h
  exact ⟨line, readLine_eq_ok hline, (ofExcept_eq_ok.mp hf).1⟩

/-! ## Dispatch -/

/-- **Case analysis of the dispatch.**  What relates the decoder of every kind
of frame over the recursive calls `x` to that over the calls `y` relates the
two dispatches, whatever the type byte. -/
theorem decodeTagged_cases [F64 F] {motive : Read (Frame F) → Read (Frame F) → Prop}
    (x y : Read (Frame F)) (tag : UInt8)
    (line : ∀ frameOf, motive (decodeLine frameOf) (decodeLine frameOf))
    (bulk : motive decodeBulk decodeBulk)
    (verbatim : motive decodeVerbatim decodeVerbatim)
    (inline : ∀ firstByte, motive (decodeInlineFrame firstByte) (decodeInlineFrame firstByte))
    (frames : ∀ null message build, motive (decodeAggregate null message x build)
      (decodeAggregate null message y build))
    (entries : ∀ null message build, motive (decodeAggregate null message (decodeEntry x) build)
      (decodeAggregate null message (decodeEntry y) build)) :
    motive (decodeTagged x tag) (decodeTagged y tag) := by
  unfold decodeTagged
  split
  · exact line _
  · exact line _
  · exact line _
  · exact bulk
  · exact frames _ _ _
  · exact line _
  · exact line _
  · exact line _
  · exact entries _ _ _
  · exact frames _ _ _
  · exact frames _ _ _
  · exact entries _ _ _
  · exact verbatim
  · exact line _
  · exact inline _

/-! ## Consumption -/

section Measure

variable {μ : Reader → Nat} (hμ : ReadMeasure μ)

include hμ

theorem shrinks_readLineBytes : Shrinks μ readLineBytes := by
  refine shrinks_bind (hμ.readUntil lf) fun buffer => ?_
  split
  · exact shrinks_fail _
  · exact shrinks_ofExcept _

theorem shrinks_readLine : Shrinks μ readLine :=
  shrinks_bind (shrinks_readLineBytes hμ) fun _ => shrinks_ofExcept _

theorem shrinks_decodeLine (frameOf : String → Except IoError (Frame F)) :
    Shrinks μ (decodeLine frameOf) :=
  shrinks_bind (shrinks_readLine hμ) fun _ => shrinks_ofExcept _

theorem shrinks_readPayload (length : Nat) (message : String) :
    Shrinks μ (readPayload length message) := by
  refine shrinks_bind (hμ.readExact _) fun buffer =>
    shrinks_bind (hμ.readExact _) fun crlf => ?_
  split
  · exact shrinks_pure _
  · exact shrinks_fail _

theorem shrinks_decodeBulk : Shrinks μ (decodeBulk : Read (Frame F)) := by
  refine shrinks_bind (shrinks_readLine hμ) fun line =>
    shrinks_bind (shrinks_ofExcept _) fun length => ?_
  split
  · exact shrinks_pure _
  · split
    · exact shrinks_fail _
    · exact shrinks_bind (shrinks_ofExcept _) fun _ =>
        shrinks_bind (shrinks_readPayload hμ _ _) fun _ => shrinks_pure _

theorem shrinks_decodeVerbatim : Shrinks μ (decodeVerbatim : Read (Frame F)) := by
  refine shrinks_bind (shrinks_readLine hμ) fun line =>
    shrinks_bind (shrinks_ofExcept _) fun length => ?_
  split
  · exact shrinks_fail _
  · refine shrinks_bind (shrinks_ofExcept _) fun length => ?_
    split
    · exact shrinks_fail _
    · exact shrinks_bind (shrinks_readPayload hμ _ _) fun _ => shrinks_ofExcept _

theorem shrinks_decodeInlineFrame (firstByte : UInt8) :
    Shrinks μ (decodeInlineFrame firstByte : Read (Frame F)) := by
  refine shrinks_bind (shrinks_readLineBytes hμ) fun remaining => ?_
  dsimp only
  split
  · exact shrinks_fail _
  · exact shrinks_pure _

theorem shrinks_decodeAggregate {α : Type} {null : Option (Frame F)} {message : String}
    {build : List α → Frame F} {entry : Read α} (h : Shrinks μ entry) :
    Shrinks μ (decodeAggregate null message entry build) := by
  refine shrinks_bind (shrinks_readLine hμ) fun line =>
    shrinks_bind (shrinks_ofExcept _) fun length => ?_
  split
  · split
    · split
      · exact shrinks_pure _
      · exact shrinks_fail _
    · exact shrinks_fail _
  · exact shrinks_bind (shrinks_ofExcept _) fun _ =>
      shrinks_bind (shrinks_times h _) fun _ => shrinks_pure _

omit hμ in
theorem shrinks_decodeEntry {decodeFrame : Read (Frame F)} (h : Shrinks μ decodeFrame) :
    Shrinks μ (decodeEntry decodeFrame) :=
  shrinks_bind h fun _ => shrinks_bind h fun _ => shrinks_pure _

theorem shrinks_decodeTagged [F64 F] {decodeFrame : Read (Frame F)} (h : Shrinks μ decodeFrame)
    (tag : UInt8) : Shrinks μ (decodeTagged decodeFrame tag) :=
  decodeTagged_cases (motive := fun z _ => Shrinks μ z) decodeFrame decodeFrame tag
    (shrinks_decodeLine hμ) (shrinks_decodeBulk hμ) (shrinks_decodeVerbatim hμ)
    (shrinks_decodeInlineFrame hμ) (fun _ _ _ => shrinks_decodeAggregate hμ h)
    (fun _ _ _ => shrinks_decodeAggregate hμ (shrinks_decodeEntry h))

theorem shrinks_decodeFrameBody [F64 F] {decodeFrame : Read (Frame F)}
    (h : Shrinks μ decodeFrame) : Shrinks μ (decodeFrameBody decodeFrame) :=
  shrinks_bind hμ.readByte (shrinks_decodeTagged hμ h)

theorem shrinks_decodeFrame [F64 F] : Shrinks μ (decodeFrame : Read (Frame F)) :=
  shrinks_fix fun _ => shrinks_decodeFrameBody hμ

end Measure

section Aggregate

variable {α : Type} {null : Option (Frame F)} {message : String} {build : List α → Frame F}

theorem agree_decodeAggregate {n : Nat} {entry entry' : Read α} (h : Shrinks Reader.size entry)
    (hag : Agree Reader.size n entry entry') :
    Agree Reader.size n (decodeAggregate null message entry build)
      (decodeAggregate null message entry' build) := by
  refine agree_bind (shrinks_readLine readMeasure_size) (agree_refl _ _) fun line =>
    agree_bind (shrinks_ofExcept _) (agree_refl _ _) fun length => ?_
  split
  · exact agree_refl _ _
  · exact agree_bind (shrinks_ofExcept _) (agree_refl _ _) fun _ =>
      agree_bind (shrinks_times h _) (agree_times h hag _) fun _ => agree_refl _ _

theorem agree_decodeEntry {n : Nat} {x y : Read (Frame F)} (h : Shrinks Reader.size x)
    (hag : Agree Reader.size n x y) : Agree Reader.size n (decodeEntry x) (decodeEntry y) :=
  agree_bind h hag fun _ => agree_bind h hag fun _ => agree_refl _ _

end Aggregate

/-- The body of `decode_frame` reads its type byte before any recursive call. -/
theorem guarded_decodeFrameBody [F64 F] :
    Guarded Reader.size (decodeFrameBody : Read (Frame F) → Read (Frame F)) where
  shrinks _ := shrinks_decodeFrameBody readMeasure_size
  agree _ x y hx hxy := agree_readByte_bind fun tag =>
    decodeTagged_cases x y tag
      (fun _ => agree_refl _ _) (agree_refl _ _) (agree_refl _ _) (fun _ => agree_refl _ _)
      (fun _ _ _ => agree_decodeAggregate hx hxy)
      (fun _ _ _ => agree_decodeAggregate (shrinks_decodeEntry hx) (agree_decodeEntry hx hxy))

/-- **The recursion of `decode_frame`.** -/
theorem decodeFrame_eq [F64 F] :
    (decodeFrame : Read (Frame F)) = decodeFrameBody decodeFrame := fix_eq guarded_decodeFrameBody

/-- The type byte decides. -/
theorem decodeFrame_cons [F64 F] (tag : UInt8) (w : List UInt8) (e : Ending) :
    (decodeFrame : Read (Frame F)).run ⟨tag :: w, e⟩ =
      (decodeTagged decodeFrame tag).run ⟨w, e⟩ := by
  have hbody := congrArg (fun x : Read (Frame F) => x.run ⟨tag :: w, e⟩) decodeFrame_eq
  exact hbody.trans (bind_run_ok (readByte_cons tag w e) _)

@[simp] theorem decodeFrame_nil [F64 F] (e : Ending) :
    (decodeFrame : Read (Frame F)).run ⟨[], e⟩ = (.error e.error, ⟨[], e⟩) := by
  rw [decodeFrame_eq, decodeFrameBody, bind_run_error (readByte_nil e)]

/-- A call that finds a byte takes one. -/
theorem size_decodeFrame_lt [F64 F] {r : Reader} (h : r.unread ≠ []) :
    ((decodeFrame : Read (Frame F)).run r).2.size < r.size := by
  obtain ⟨unread, e⟩ := r
  cases unread with
  | nil => exact absurd rfl h
  | cons tag w =>
      rw [decodeFrame_cons]
      exact Nat.lt_succ_of_le
        (shrinks_decodeTagged readMeasure_size (shrinks_decodeFrame readMeasure_size) tag ⟨w, e⟩)

/-- A call leaves the end of the stream as it is. -/
theorem ending_decodeFrame [F64 F] (r : Reader) :
    ((decodeFrame : Read (Frame F)).run r).2.ending = r.ending := by
  have hle := shrinks_decodeFrame (F := F) (readMeasure_ending r.ending) r
  by_contra hne
  simp [hne] at hle

/-- A line that starts with no type byte is read as its tokens. -/
theorem decodeFrame_inline [F64 F] {tag : UInt8} {line : List UInt8} {tokens : List (List UInt8)}
    (htag : decodeTagged (decodeFrame : Read (Frame F)) tag = decodeInlineFrame tag)
    (hlf : lf ∉ line) (htokens : inlineTokens (tag :: dropCr line) = tokens) (hne : tokens ≠ [])
    (rest : List UInt8) (e : Ending) :
    (decodeFrame : Read (Frame F)).run ⟨tag :: (line ++ lf :: rest), e⟩ =
      (.ok (.array (some (tokens.map fun token => .bulkString (some token)))), ⟨rest, e⟩) := by
  have hempty : ¬ tokens.isEmpty = true := by simpa using hne
  rw [decodeFrame_cons, htag, decodeInlineFrame, bind_run_ok (readLineBytes_lf hlf rest e)]
  simp only [htokens, hempty, if_false, pure_run, Bool.false_eq_true]

/-! ## Delimitation -/

theorem selfDelimiting_readLineBytes : SelfDelimiting readLineBytes readLineBytes := by
  intro b e line r h
  obtain ⟨raw, rest, hraw, rfl, rfl, rfl⟩ := readLineBytes_eq_ok h
  refine ⟨raw ++ [lf], rest, by simp, rfl, ?_, ?_⟩
  · intro t e'
    rw [List.append_assoc]
    exact readLineBytes_lf hraw t e'
  · intro p hp hne e'
    -- a strict prefix of the line and its terminator lacks the line feed
    have hp' : p <+: raw := by
      cases List.prefix_concat_iff.mp hp with
      | inl heq => exact absurd heq hne
      | inr hpre => exact hpre
    exact readLineBytes_no_lf (fun hc => hraw (hp'.subset hc)) e'

theorem selfDelimiting_readLine : SelfDelimiting readLine readLine :=
  selfDelimiting_bind selfDelimiting_readLineBytes fun _ => selfDelimiting_ofExcept _

theorem selfDelimiting_decodeLine (frameOf : String → Except IoError (Frame F)) :
    SelfDelimiting (decodeLine frameOf) (decodeLine frameOf) :=
  selfDelimiting_bind selfDelimiting_readLine fun _ => selfDelimiting_ofExcept _

theorem selfDelimiting_readPayload (length : Nat) (message : String) :
    SelfDelimiting (readPayload length message) (readPayload length message) := by
  refine selfDelimiting_bind (selfDelimiting_readExact _) fun buffer =>
    selfDelimiting_bind (selfDelimiting_readExact _) fun crlf => ?_
  split
  · exact selfDelimiting_pure _
  · exact selfDelimiting_fail _ _

theorem selfDelimiting_decodeBulk :
    SelfDelimiting (decodeBulk : Read (Frame F)) decodeBulk := by
  refine selfDelimiting_bind selfDelimiting_readLine fun line =>
    selfDelimiting_bind (selfDelimiting_ofExcept _) fun length => ?_
  split
  · exact selfDelimiting_pure _
  · split
    · exact selfDelimiting_fail _ _
    · exact selfDelimiting_bind (selfDelimiting_ofExcept _) fun _ =>
        selfDelimiting_bind (selfDelimiting_readPayload _ _) fun _ => selfDelimiting_pure _

theorem selfDelimiting_decodeVerbatim :
    SelfDelimiting (decodeVerbatim : Read (Frame F)) decodeVerbatim := by
  refine selfDelimiting_bind selfDelimiting_readLine fun line =>
    selfDelimiting_bind (selfDelimiting_ofExcept _) fun length => ?_
  split
  · exact selfDelimiting_fail _ _
  · refine selfDelimiting_bind (selfDelimiting_ofExcept _) fun length => ?_
    split
    · exact selfDelimiting_fail _ _
    · exact selfDelimiting_bind (selfDelimiting_readPayload _ _) fun _ =>
        selfDelimiting_ofExcept _

theorem selfDelimiting_decodeInlineFrame (firstByte : UInt8) :
    SelfDelimiting (decodeInlineFrame firstByte : Read (Frame F))
      (decodeInlineFrame firstByte) := by
  refine selfDelimiting_bind selfDelimiting_readLineBytes fun remaining => ?_
  dsimp only
  split
  · exact selfDelimiting_fail _ _
  · exact selfDelimiting_pure _

theorem selfDelimiting_decodeAggregate {α : Type} {null : Option (Frame F)} {message : String}
    {build : List α → Frame F} {entry entry' : Read α} (h : SelfDelimiting entry entry') :
    SelfDelimiting (decodeAggregate null message entry build)
      (decodeAggregate null message entry' build) := by
  refine selfDelimiting_bind selfDelimiting_readLine fun line =>
    selfDelimiting_bind (selfDelimiting_ofExcept _) fun length => ?_
  split
  · split
    · split
      · exact selfDelimiting_pure _
      · exact selfDelimiting_fail _ _
    · exact selfDelimiting_fail _ _
  · exact selfDelimiting_bind (selfDelimiting_ofExcept _) fun _ =>
      selfDelimiting_bind (selfDelimiting_times h _) fun _ => selfDelimiting_pure _

theorem selfDelimiting_decodeEntry {x y : Read (Frame F)} (h : SelfDelimiting x y) :
    SelfDelimiting (decodeEntry x) (decodeEntry y) :=
  selfDelimiting_bind h fun _ => selfDelimiting_bind h fun _ => selfDelimiting_pure _

theorem selfDelimiting_decodeFrameBody [F64 F] {x y : Read (Frame F)} (h : SelfDelimiting x y) :
    SelfDelimiting (decodeFrameBody x) (decodeFrameBody y) :=
  selfDelimiting_bind selfDelimiting_readByte fun tag =>
    decodeTagged_cases x y tag
      selfDelimiting_decodeLine selfDelimiting_decodeBulk selfDelimiting_decodeVerbatim
      selfDelimiting_decodeInlineFrame
      (fun _ _ _ => selfDelimiting_decodeAggregate h)
      (fun _ _ _ => selfDelimiting_decodeAggregate (selfDelimiting_decodeEntry h))

/-- **`decode_frame` is self-delimiting**: an accepted frame is a piece of the
stream that means the same whatever follows it, and no strict prefix of which
is accepted. -/
theorem selfDelimiting_decodeFrame [F64 F] :
    SelfDelimiting (decodeFrame : Read (Frame F)) decodeFrame := by
  -- each unfolding delimits as the recursion itself does, by induction on the depth
  have hdepth : ∀ n, SelfDelimiting (decodeFrameWithin n : Read (Frame F)) decodeFrame := by
    intro n
    induction n with
    | zero => exact selfDelimiting_fail _ _
    | succ n ih =>
        rw [decodeFrame_eq]
        exact selfDelimiting_decodeFrameBody ih
  intro b e f r h
  exact hdepth (b.length + 1) b e f r h

/-- **A cut frame is refused, and nothing of it is read again**: on a strict
prefix of the bytes of a frame the decoder fails at the end of the stream.
**What follows a frame changes nothing**: with more bytes behind them the
accepted bytes are the same frame. -/
theorem decodeFrame_cut_or_extended [F64 F] :
    (∀ (w : List UInt8) (e : Ending) (f : Frame F), decodeFrame.run ⟨w, e⟩ = (.ok f, ⟨[], e⟩) →
      ∀ p, p <+: w → p ≠ w →
        ∃ err, (decodeFrame : Read (Frame F)).run ⟨p, .eof⟩ = (.error err, ⟨[], .eof⟩)) ∧
    (∀ (b rest : List UInt8) (e : Ending) (f : Frame F),
      decodeFrame.run ⟨b, e⟩ = (.ok f, ⟨rest, e⟩) →
      ∀ s, decodeFrame.run ⟨b ++ s, e⟩ = (.ok f, ⟨rest ++ s, e⟩)) := by
  constructor
  · intro w e f h p hp hne
    obtain ⟨w', rest, hw, hrest, _, hcut⟩ := selfDelimiting_decodeFrame w e f _ h
    obtain rfl : [] = rest := congrArg Reader.unread hrest
    rw [hw, List.append_nil] at hp hne
    exact hcut p hp hne .eof
  · intro b rest e f h s
    obtain ⟨w, rest', rfl, hrest, hreads, _⟩ := selfDelimiting_decodeFrame b e f _ h
    obtain rfl : rest = rest' := congrArg Reader.unread hrest
    rw [List.append_assoc]
    exact hreads (rest ++ s) e

/-- `GET k`, inline, cut before its line feed and followed by `+`. -/
theorem decodeFrame_cut_or_extended_get :
    (∃ err, (decodeFrame : Read (Frame WholeDouble)).run ⟨[0x47, 0x45, 0x54, 0x20, 0x6B], .eof⟩ =
      (.error err, ⟨[], .eof⟩)) ∧
    decodeFrame.run ⟨[0x47, 0x45, 0x54, 0x20, 0x6B, 0x0A, 0x2B], .eof⟩ =
      (.ok (.array (some [.bulkString (some [0x47, 0x45, 0x54]), .bulkString (some [0x6B])]) :
        Frame WholeDouble), ⟨[0x2B], .eof⟩) := by
  have hlf : lf ∉ ([0x45, 0x54, 0x20, 0x6B] : List UInt8) := by decide
  have htokens : inlineTokens (0x47 :: dropCr [0x45, 0x54, 0x20, 0x6B]) =
      [[0x47, 0x45, 0x54], [0x6B]] := by decide
  have hget := decodeFrame_inline (F := WholeDouble) rfl hlf htokens (by decide) [] .eof
  exact ⟨decodeFrame_cut_or_extended.1 _ .eof _ hget _ ⟨[0x0A], rfl⟩ (by decide),
    decodeFrame_cut_or_extended.2 _ [] .eof _ hget [0x2B]⟩

end RalphDb
