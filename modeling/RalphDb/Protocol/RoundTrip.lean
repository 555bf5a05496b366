import RalphDb.Protocol.Grammar
import RalphDb.Protocol.Encode

/-!
# RalphDb.Protocol.RoundTrip

Encoding under RESP3, then decoding, is the identity on wire-safe frames,
whatever bytes follow.

The proof is one induction over the frame.  At each node the encoder writes a
length line, then payload bytes or the encodings of the children: a spelling
of the node in the grammar of the wire (`spells_of_wireSafe`).  The decoder
reads every spelling.
-/

namespace RalphDb

open Base
open Base.Fallible

variable {F : Type}

/-! ## What the wire can carry -/

/-- The demands of the wire on one node of a frame: its texts are one line,
its payload and its entries are within the caps, a verbatim format is three
ASCII bytes, a big number is not empty and a double prints back. -/
def Frame.WireSafe [F64 F] : Frame F → Prop
  | .simpleString value => '\n' ∉ value.toList
  | .error value => '\n' ∉ value.toList
  | .bulkString (some value) => value.length ≤ bulkLimit
  | .array (some elements) => elements.length ≤ collectionLimit
  | .map (some entries) => entries.length ≤ collectionLimit
  | .set (some elements) => elements.length ≤ collectionLimit
  | .push elements => elements.length ≤ collectionLimit
  | .attr attributes => attributes.length ≤ collectionLimit
  | .double value => F64.PrintsBack value
  | .verbatimString format payload =>
      (utf8 format).length = 3 ∧ (∀ b ∈ utf8 format, b < 0x80) ∧
        (utf8 format).length + 1 + payload.length ≤ bulkLimit
  | .bigNumber value => value ≠ "" ∧ '\n' ∉ value.toList
  | _ => True

/-! ## Lines and lengths -/

/-- The bytes of a line: its type byte, its text, CRLF. -/
def lineBytes (tag : UInt8) (text : String) : List UInt8 := tag :: (utf8 text ++ [cr, lf])

theorem writes_writeLine (tag : String) (b : UInt8) (htag : utf8 tag = [b]) (text : String) :
    Writes (writeLine tag text) (lineBytes b text) := by
  have hcrlf : utf8 "\r\n" = [cr, lf] := by decide
  have hbytes : utf8 (tag ++ text ++ "\r\n") = lineBytes b text := by
    rw [utf8_append, utf8_append, htag, hcrlf]
    rfl
  rw [writeLine, writeText, hbytes]
  exact writes_writeAll _

theorem line_crlf {text : String} (h : '\n' ∉ text.toList) :
    Line (utf8 text) (utf8 text ++ [cr, lf]) :=
  ⟨fun hc => h ((lf_mem_utf8 text).mp hc), .inl rfl⟩

theorem reads_readLine {text : String} (h : '\n' ∉ text.toList) :
    Reads readLine (utf8 text ++ [cr, lf]) text := reads_line (line_crlf h)

/-- A printed number, as a line. -/
theorem numberLine_toString (n : Int) : NumberLine n (utf8 (toString n) ++ [cr, lf]) :=
  ⟨toString n, numeral_toString n, line_crlf (lf_not_mem_toString_int n)⟩

/-- A printed length, as a line. -/
theorem numberLine_length (n : Nat) : NumberLine n (utf8 (toString n) ++ [cr, lf]) :=
  numberLine_toString n

theorem parseLength_toString {n : Nat} (h : n < 2 ^ 63) :
    parseLength (toString n) = .ok (Int64.ofNat n) := by
  rw [parseLength, toString_natCast h, parseI64_toString]

/-! ## Counted payloads -/

/-- The bytes of a counted payload after its type byte: the length line, the
bytes, CRLF. -/
def countedBytes (value : List UInt8) : List UInt8 :=
  utf8 (toString value.length) ++ [cr, lf] ++ (value ++ [cr, lf])

theorem writes_writeBulk (value : List UInt8) :
    Writes (writeBulk value) (0x24 :: countedBytes value) :=
  writes_bind (writes_writeLine "$" 0x24 (by decide) _)
    (writes_bind (writes_writeAll value) (writes_writeAll _))

/-- The bytes between colon and all of a verbatim string. -/
def verbatimBody (format : String) (payload : List UInt8) : List UInt8 :=
  utf8 format ++ 0x3A :: payload

theorem length_verbatimBody (format : String) (payload : List UInt8) :
    (verbatimBody format payload).length = (utf8 format).length + 1 + payload.length := by
  simp only [verbatimBody, List.length_append, List.length_cons]
  omega

theorem writes_writeVerbatim {format : String} (hlen : (utf8 format).length = 3)
    (payload : List UInt8) :
    Writes (writeVerbatim format payload) (0x3D :: countedBytes (verbatimBody format payload)) := by
  have hcolon : utf8 ":" = [0x3A] := by decide
  have hw := writes_bind (writes_writeLine "=" 0x3D (by decide)
      (toString ((utf8 format).length + 1 + payload.length)))
    (writes_bind (writes_writeAll (utf8 format))
      (writes_bind (writes_writeAll (utf8 ":"))
        (writes_bind (writes_writeAll payload) (writes_writeAll [cr, lf]))))
  have heq : 0x3D :: countedBytes (verbatimBody format payload) =
      lineBytes 0x3D (toString ((utf8 format).length + 1 + payload.length)) ++
        (utf8 format ++ (utf8 ":" ++ (payload ++ [cr, lf]))) := by
    rw [countedBytes, length_verbatimBody, hcolon]
    simp [verbatimBody, lineBytes]
  rw [heq, writeVerbatim, if_neg (by simp [hlen])]
  exact hw

/-! ## Spellings -/

section Spells

variable [F64 F]

/-- The encoder writes bytes that the decoder reads as the frame. -/
def RoundTrips (f : Frame F) : Prop :=
  ∃ w, Writes (encodeFrame f .resp3) w ∧ Reads decodeFrame w f

/-- The encoder writes a spelling of the frame. -/
def Spells (f : Frame F) : Prop := ∃ w, Writes (encodeFrame f .resp3) w ∧ Wire f w

theorem spells_frames {elements : List (Frame F)} (h : ∀ c ∈ elements, Spells c) :
    ∃ w, Writes (encodeFrames elements .resp3) w ∧ Pieces Wire elements w := by
  induction elements with
  | nil => exact ⟨[], writes_pure, .nil⟩
  | cons item items ih =>
      obtain ⟨w₁, hw₁, hs₁⟩ := h item List.mem_cons_self
      obtain ⟨w₂, hw₂, hs₂⟩ := ih fun c hc => h c (List.mem_cons_of_mem _ hc)
      exact ⟨w₁ ++ w₂, writes_bind hw₁ hw₂, .cons hs₁ hs₂⟩

theorem spells_entries {entries : List (Frame F × Frame F)}
    (h : ∀ c ∈ Frame.flatten entries, Spells c) :
    ∃ w, Writes (encodeEntries entries .resp3) w ∧ Pieces Wire (Frame.flatten entries) w := by
  induction entries with
  | nil => exact ⟨[], writes_pure, .nil⟩
  | cons entry entries ih =>
      obtain ⟨key, value⟩ := entry
      simp only [Frame.flatten_cons, List.mem_cons] at h
      obtain ⟨w₁, hw₁, hs₁⟩ := h key (.inl rfl)
      obtain ⟨w₂, hw₂, hs₂⟩ := h value (.inr (.inl rfl))
      obtain ⟨w₃, hw₃, hs₃⟩ := ih fun c hc => h c (.inr (.inr hc))
      exact ⟨w₁ ++ (w₂ ++ w₃), writes_bind hw₁ (writes_bind hw₂ hw₃), .cons hs₁ (.cons hs₂ hs₃)⟩

/-- An aggregate whose children spell themselves. -/
theorem spells_aggregate {f : Frame F} {frames : List (Frame F)} (tag : String) (b : UInt8)
    (n : Nat) {body : Write} (htag : utf8 tag = [b])
    (hbody : ∃ w, Writes body w ∧ Pieces Wire frames w)
    (hencode : encodeFrame f .resp3 = writeLine tag (toString n) >>= fun _ => body)
    (hwire : ∀ {l w : List UInt8}, NumberLine n l → Pieces Wire frames w →
      Wire f (b :: (l ++ w))) : Spells f := by
  obtain ⟨w, hw, hs⟩ := hbody
  refine ⟨lineBytes b (toString n) ++ w, ?_, hwire (numberLine_length n) hs⟩
  rw [hencode]
  exact writes_bind (writes_writeLine tag b htag _) hw

/-- A frame that is one line. -/
theorem spells_line {f : Frame F} (tag : String) (b : UInt8) (text : String)
    (htag : utf8 tag = [b]) (htext : '\n' ∉ text.toList)
    (hencode : encodeFrame f .resp3 = writeLine tag text)
    (hwire : ∀ {l : List UInt8}, Line (utf8 text) l → Wire f (b :: l)) : Spells f := by
  refine ⟨lineBytes b text, ?_, hwire (line_crlf htext)⟩
  rw [hencode]
  exact writes_writeLine tag b htag text

/-- The null of its kind. -/
theorem spells_nil {f : Frame F} (tag : String) (b : UInt8) (htag : utf8 tag = [b])
    (hencode : encodeFrame f .resp3 = writeLine tag "-1")
    (hwire : ∀ {l : List UInt8}, NumberLine (-1) l → Wire f (b :: l)) : Spells f := by
  have htext : toString (-1 : Int) = "-1" := by decide
  have hnum : Numeral "-1" (-1) := htext ▸ numeral_toString (-1)
  exact spells_line tag b "-1" htag (by decide) hencode fun hl => hwire ⟨"-1", hnum, hl⟩

/-- **The encoder writes a spelling** of a wire-safe frame, by induction over
what it holds. -/
theorem spells_of_wireSafe (f : Frame F) (h : f.Everywhere Frame.WireSafe) : Spells f := by
  induction f using Frame.child_induction with
  | h f ih =>
    have hsafe := h.here
    have hchildren : ∀ c ∈ f.children, Spells c := fun c hc => ih c hc (h.child hc)
    cases f with
    | simpleString value => exact spells_line "+" 0x2B value (by decide) hsafe rfl .simpleString
    | error value => exact spells_line "-" 0x2D value (by decide) hsafe rfl .error
    | integer value =>
        exact spells_line ":" 0x3A _ (by decide) (lf_not_mem_toString_int value.toInt) rfl
          fun hl => .integer ⟨_, numeral_toString _, hl⟩
    | bulkString value =>
        cases value with
        | none => exact spells_nil "$" 0x24 (by decide) rfl .nullBulk
        | some value =>
            exact ⟨_, writes_writeBulk value, .bulkString hsafe (numberLine_length _)⟩
    | array elements =>
        cases elements with
        | none => exact spells_nil "*" 0x2A (by decide) rfl .nullArray
        | some elements =>
            exact spells_aggregate "*" 0x2A elements.length (by decide) (spells_frames hchildren)
              rfl (.array hsafe)
    | null => exact spells_line "_" 0x5F "" (by decide) (by decide) rfl .null
    | boolean value =>
        cases value with
        | true => exact spells_line "#" 0x23 "t" (by decide) (by decide) rfl .true
        | false => exact spells_line "#" 0x23 "f" (by decide) (by decide) rfl .false
    | double value =>
        exact spells_line "," 0x2C _ (by decide) hsafe.2 rfl (.double hsafe.1)
    | map entries =>
        cases entries with
        | none => exact spells_nil "%" 0x25 (by decide) rfl .nullMap
        | some entries =>
            exact spells_aggregate "%" 0x25 entries.length (by decide) (spells_entries hchildren)
              rfl (.map hsafe)
    | set elements =>
        cases elements with
        | none => exact spells_nil "~" 0x7E (by decide) rfl .nullSet
        | some elements =>
            exact spells_aggregate "~" 0x7E elements.length (by decide) (spells_frames hchildren)
              rfl (.set hsafe)
    | push elements =>
        exact spells_aggregate ">" 0x3E elements.length (by decide) (spells_frames hchildren)
          rfl (.push hsafe)
    | attr attributes =>
        exact spells_aggregate "|" 0x7C attributes.length (by decide) (spells_entries hchildren)
          rfl (.attr hsafe)
    | verbatimString format payload =>
        obtain ⟨hlen, hascii, hcap⟩ := hsafe
        have hfour : (utf8 format).length + 1 + payload.length = 4 + payload.length := by omega
        rw [hfour] at hcap
        refine ⟨_, writes_writeVerbatim hlen payload, .verbatimString hlen hascii hcap ?_⟩
        rw [length_verbatimBody, hfour]
        exact_mod_cast numberLine_length (4 + payload.length)
    | bigNumber value =>
        exact spells_line "(" 0x28 value (by decide) hsafe.2 rfl (.bigNumber hsafe.1)

end Spells

/-! ## Round trip -/

theorem roundTrips_of_wireSafe [F64 F] (f : Frame F) (h : f.Everywhere Frame.WireSafe) :
    RoundTrips f := by
  obtain ⟨w, hw, hs⟩ := spells_of_wireSafe f h
  exact ⟨w, hw, reads_of_wire f hs⟩

/-- **RESP3 round trip.**  A wire-safe frame is encoded, and its bytes are
read back as the frame, whatever follows them. -/
theorem decodeFrame_encodeFrame [F64 F] (f : Frame F) (h : f.Everywhere Frame.WireSafe) :
    ∃ w, (encodeFrame f .resp3).run [] = (.ok (), w) ∧
      ∀ rest e, decodeFrame.run ⟨w ++ rest, e⟩ = (.ok f, ⟨rest, e⟩) := by
  obtain ⟨w, hw, hr⟩ := roundTrips_of_wireSafe f h
  exact ⟨w, hw [], hr⟩

/-- A text that ends in a carriage return, a double and a null map, nested. -/
def nestedFrame : Frame WholeDouble :=
  .array (some [.simpleString "OK\r", .push [.double ⟨-3, by decide, by decide⟩, .map none]])

theorem wireSafe_nestedFrame : nestedFrame.Everywhere Frame.WireSafe := by
  have htwo : 2 ≤ collectionLimit := by decide
  have hpush : (Frame.push [.double ⟨-3, by decide, by decide⟩, .map none] :
      Frame WholeDouble).Everywhere Frame.WireSafe := by
    refine ⟨htwo, List.forall_mem_cons.mpr ⟨.leaf rfl (LawfulF64.printsBack _ rfl), ?_⟩⟩
    exact List.forall_mem_singleton.mpr (.leaf rfl trivial)
  refine ⟨htwo, List.forall_mem_cons.mpr ⟨.leaf rfl ?_, List.forall_mem_singleton.mpr hpush⟩⟩
  show '\n' ∉ "OK\r".toList
  decide

theorem decodeFrame_encodeFrame_nestedFrame :
    ∃ w, (encodeFrame nestedFrame .resp3).run [] = (.ok (), w) ∧
      ∀ rest e, decodeFrame.run ⟨w ++ rest, e⟩ = (.ok nestedFrame, ⟨rest, e⟩) :=
  decodeFrame_encodeFrame nestedFrame wireSafe_nestedFrame

end RalphDb
