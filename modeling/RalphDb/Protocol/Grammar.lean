import RalphDb.Protocol.Shape

/-!
# RalphDb.Protocol.Grammar

The grammar of the wire, and that the decoder accepts exactly it.

`Wire f w` says that the bytes `w` spell the frame `f`.  A frame has many
spellings: a line ends in CRLF or in a bare line feed, and a number has a sign
or none and any leading zeros.  `Wire` is a relation of its own; the decoder
is not mentioned in it.

* **soundness** — `takes_decodeFrame`: what the decoder has taken spells its
  answer;
* **completeness** — `reads_of_wire`: a spelling is read as its frame,
  whatever follows;
* both together are `decodeFrame_eq_ok_iff`.
-/

namespace RalphDb

open Base
open Base.Fallible

variable {F α : Type}

/-! ## Lines and numbers -/

/-- `l` is the line `s` with its terminator: CRLF, or a bare line feed when
`s` does not end in a carriage return. -/
def Line (s l : List UInt8) : Prop :=
  lf ∉ s ∧ (l = s ++ [cr, lf] ∨ ¬ [cr] <:+ s ∧ l = s ++ [lf])

/-- A line is the bytes up to a line feed, less one carriage return. -/
theorem line_iff {s l : List UInt8} :
    Line s l ↔ ∃ raw, lf ∉ raw ∧ l = raw ++ [lf] ∧ s = dropCr raw := by
  constructor
  · rintro ⟨hlf, rfl | ⟨hcr, rfl⟩⟩
    · have hraw : lf ∉ s ++ [cr] := by simp [hlf, show lf ≠ cr by decide]
      exact ⟨s ++ [cr], hraw, by simp, (dropCr_append_cr s).symm⟩
    · exact ⟨s, hlf, rfl, by rw [dropCr, if_neg hcr]⟩
  · rintro ⟨raw, hraw, rfl, rfl⟩
    refine ⟨fun h => hraw (mem_of_mem_dropCr h), ?_⟩
    by_cases hcr : [cr] <:+ raw
    · obtain ⟨front, rfl⟩ := hcr
      rw [dropCr_append_cr]
      exact .inl (by simp)
    · rw [dropCr, if_neg hcr]
      exact .inr ⟨hcr, rfl⟩

/-- `l` is a line with a numeral of `n`. -/
def NumberLine (n : Int) (l : List UInt8) : Prop :=
  ∃ text, Numeral text n ∧ Line (utf8 text) l

/-! ## The grammar -/

/-- `w` spells the frame `f`. -/
inductive Wire [F64 F] : Frame F → List UInt8 → Prop
  | simpleString {value : String} {l : List UInt8} (line : Line (utf8 value) l) :
      Wire (.simpleString value) (0x2B :: l)
  | error {value : String} {l : List UInt8} (line : Line (utf8 value) l) :
      Wire (.error value) (0x2D :: l)
  | integer {value : Int64} {l : List UInt8} (number : NumberLine value.toInt l) :
      Wire (.integer value) (0x3A :: l)
  | nullBulk {l : List UInt8} (number : NumberLine (-1) l) :
      Wire (.bulkString none) (0x24 :: l)
  | bulkString {value l : List UInt8} (cap : value.length ≤ bulkLimit)
      (number : NumberLine value.length l) :
      Wire (.bulkString (some value)) (0x24 :: (l ++ (value ++ [cr, lf])))
  | nullArray {l : List UInt8} (number : NumberLine (-1) l) : Wire (.array none) (0x2A :: l)
  | array {elements : List (Frame F)} {l w : List UInt8} (cap : elements.length ≤ collectionLimit)
      (number : NumberLine elements.length l) (frames : Pieces Wire elements w) :
      Wire (.array (some elements)) (0x2A :: (l ++ w))
  | null {l : List UInt8} (line : Line [] l) : Wire .null (0x5F :: l)
  | true {l : List UInt8} (line : Line [0x74] l) : Wire (.boolean true) (0x23 :: l)
  | false {l : List UInt8} (line : Line [0x66] l) : Wire (.boolean false) (0x23 :: l)
  | double {value : F} {text : String} {l : List UInt8} (parses : F64.fromStr text = some value)
      (line : Line (utf8 text) l) : Wire (.double value) (0x2C :: l)
  | nullMap {l : List UInt8} (number : NumberLine (-1) l) : Wire (.map none) (0x25 :: l)
  | map {entries : List (Frame F × Frame F)} {l w : List UInt8}
      (cap : entries.length ≤ collectionLimit)
      (number : NumberLine entries.length l)
      (frames : Pieces Wire (Frame.flatten entries) w) :
      Wire (.map (some entries)) (0x25 :: (l ++ w))
  | nullSet {l : List UInt8} (number : NumberLine (-1) l) : Wire (.set none) (0x7E :: l)
  | set {elements : List (Frame F)} {l w : List UInt8} (cap : elements.length ≤ collectionLimit)
      (number : NumberLine elements.length l) (frames : Pieces Wire elements w) :
      Wire (.set (some elements)) (0x7E :: (l ++ w))
  | push {elements : List (Frame F)} {l w : List UInt8} (cap : elements.length ≤ collectionLimit)
      (number : NumberLine elements.length l) (frames : Pieces Wire elements w) :
      Wire (.push elements) (0x3E :: (l ++ w))
  | attr {attributes : List (Frame F × Frame F)} {l w : List UInt8}
      (cap : attributes.length ≤ collectionLimit)
      (number : NumberLine attributes.length l)
      (frames : Pieces Wire (Frame.flatten attributes) w) :
      Wire (.attr attributes) (0x7C :: (l ++ w))
  | verbatimString {format : String} {payload l : List UInt8}
      (three : (utf8 format).length = 3) (ascii : ∀ b ∈ utf8 format, b < 0x80)
      (cap : 4 + payload.length ≤ bulkLimit)
      (number : NumberLine (4 + payload.length) l) :
      Wire (.verbatimString format payload)
        (0x3D :: (l ++ (utf8 format ++ 0x3A :: payload ++ [cr, lf])))
  | bigNumber {value : String} {l : List UInt8} (nonempty : value ≠ "")
      (line : Line (utf8 value) l) : Wire (.bigNumber value) (0x28 :: l)
  | inline {tag : UInt8} {text l : List UInt8} (untagged : tag ∉ typeBytes) (line : Line text l)
      (tokens : inlineTokens (tag :: text) ≠ []) : Wire (inlineFrame (tag :: text)) (tag :: l)

/-! ## Reading lines -/

theorem takes_readLineBytes : Takes readLineBytes Line := by
  intro b e s r hrun
  obtain ⟨raw, rest, hraw, rfl, rfl, rfl⟩ := readLineBytes_eq_ok hrun
  exact ⟨raw ++ [lf], rest, by simp, rfl, line_iff.mpr ⟨raw, hraw, rfl, rfl⟩⟩

theorem reads_readLineBytes {s l : List UInt8} (h : Line s l) : Reads readLineBytes l s := by
  obtain ⟨raw, hraw, rfl, rfl⟩ := line_iff.mp h
  intro rest e
  rw [List.append_assoc]
  exact readLineBytes_lf hraw rest e

theorem takes_readLine : Takes readLine fun text l => Line (utf8 text) l := by
  refine takes_bind takes_readLineBytes fun bytes l hl => takes_ofExcept fun text htext => ?_
  rw [utf8OrInvalid_eq_ok htext, List.append_nil]
  exact hl

theorem reads_line {text : String} {l : List UInt8} (h : Line (utf8 text) l) :
    Reads readLine l text := by
  intro rest e
  rw [readLine, bind_run_ok (reads_readLineBytes h rest e), ofExcept_run, utf8OrInvalid_utf8]

theorem parseLength_eq_ok {text : String} {n : Int64} :
    parseLength text = .ok n ↔ Numeral text n.toInt := by
  rw [← parseI64_eq_some, parseLength]
  cases parseI64 text <;> simp

/-- A length line, and what the rest makes of the length. -/
theorem takes_length {f : Int64 → Read α} {W : α → List UInt8 → Prop}
    (h : ∀ (n : Int64) l, NumberLine n.toInt l → Takes (f n) fun a w => W a (l ++ w)) :
    Takes (readLine >>= fun text => ofExcept (parseLength text) >>= f) W :=
  takes_bind takes_readLine fun text l hl => takes_ofExcept_bind fun n hn =>
    h n l ⟨text, parseLength_eq_ok.mp hn, hl⟩

theorem reads_length {f : Int64 → Read α} {n : Int64} {l w : List UInt8} {a : α}
    (hl : NumberLine n.toInt l) (hf : Reads (f n) w a) :
    Reads (readLine >>= fun text => ofExcept (parseLength text) >>= f) (l ++ w) a := by
  obtain ⟨text, hnum, hline⟩ := hl
  exact reads_bind (reads_line hline)
    (reads_ofExcept_bind (parseLength_eq_ok.mpr hnum) hf)

/-! ## Soundness -/

theorem takes_readPayload (n : Nat) (message : String) :
    Takes (readPayload n message) fun buffer w => buffer.length = n ∧ w = buffer ++ [cr, lf] := by
  refine takes_bind (takes_readExact n) fun buffer v ⟨hlen, hv⟩ =>
    takes_bind (takes_readExact 2) fun crlf w ⟨_, hw⟩ => ?_
  split
  · next hcrlf =>
      refine takes_pure ⟨hlen, ?_⟩
      simp [hv, hw, hcrlf]
  · exact takes_fail _

theorem takes_decodeLine {frameOf : String → Except IoError (Frame F)}
    {W : Frame F → List UInt8 → Prop}
    (h : ∀ text f l, frameOf text = .ok f → Line (utf8 text) l → W f l) :
    Takes (decodeLine frameOf) W := by
  refine takes_bind takes_readLine fun text l hl => takes_ofExcept fun f hf => ?_
  rw [List.append_nil]
  exact h text f l hf hl

/-- An aggregate: the null of its kind, or a length line and the entries. -/
theorem takes_decodeAggregate {null : Option (Frame F)} {message : String} {entry : Read α}
    {build : List α → Frame F} {V : α → List UInt8 → Prop} {W : Frame F → List UInt8 → Prop}
    (hentry : Takes entry V) (hnull : ∀ f l, null = some f → NumberLine (-1) l → W f l)
    (hbuild : ∀ items l w, items.length ≤ collectionLimit → NumberLine items.length l →
      Pieces V items w → W (build items) (l ++ w)) :
    Takes (decodeAggregate null message entry build) W := by
  refine takes_length fun n l hl => ?_
  split
  · split
    · next frame =>
        split
        · next hn =>
            refine takes_pure ?_
            rw [List.append_nil]
            exact hnull frame l rfl (by rw [hn] at hl; exact hl)
        · exact takes_fail _
    · exact takes_fail _
  · refine takes_ofExcept_bind fun count hcount =>
      takes_bind (takes_times hentry count) fun items w ⟨hitems, hw⟩ => takes_pure ?_
    obtain ⟨hn, hcap⟩ := (ensureNonNegative_ok_iff (by decide)).mp hcount
    rw [List.append_nil]
    rw [hn, ← hitems] at hl
    exact hbuild items l w (hitems ▸ hcap) hl hw

/-- The two frames of an entry, spelled one after the other. -/
def EntryWire (W : Frame F → List UInt8 → Prop) (entry : Frame F × Frame F) (w : List UInt8) :
    Prop := ∃ u v, W entry.1 u ∧ W entry.2 v ∧ w = u ++ v

theorem pieces_flatten {W : Frame F → List UInt8 → Prop} {entries : List (Frame F × Frame F)}
    {w : List UInt8} : Pieces (EntryWire W) entries w ↔ Pieces W (Frame.flatten entries) w := by
  induction entries generalizing w with
  | nil => exact ⟨fun h => by cases h; exact .nil, fun h => by cases h; exact .nil⟩
  | cons entry entries ih =>
      constructor
      · intro h
        obtain _ | ⟨⟨u, v, hu, hv, rfl⟩, htail⟩ := h
        rw [List.append_assoc]
        exact .cons hu (.cons hv (ih.mp htail))
      · intro h
        obtain _ | ⟨hu, _ | ⟨hv, htail⟩⟩ := h
        rw [← List.append_assoc]
        exact .cons ⟨_, _, hu, hv, rfl⟩ (ih.mpr htail)

theorem takes_decodeEntry {x : Read (Frame F)} {W : Frame F → List UInt8 → Prop}
    (hx : Takes x W) : Takes (decodeEntry x) (EntryWire W) :=
  takes_bind hx fun _ u hu => takes_bind hx fun _ v hv => takes_pure
    ⟨u, v, hu, hv, by rw [List.append_nil]⟩

section Soundness

variable [F64 F]

theorem takes_decodeBulk : Takes (decodeBulk : Read (Frame F)) fun f w => Wire f (0x24 :: w) := by
  refine takes_length fun n l hl => ?_
  split
  · next hn =>
      refine takes_pure ?_
      rw [List.append_nil]
      exact .nullBulk (by rw [hn] at hl; exact hl)
  · split
    · exact takes_fail _
    · refine takes_ofExcept_bind fun count hcount =>
        takes_bind (takes_readPayload count _) fun value w ⟨hvalue, hw⟩ => takes_pure ?_
      obtain ⟨hn, hcap⟩ := (ensureNonNegative_ok_iff (by decide)).mp hcount
      rw [List.append_nil, hw]
      rw [hn, ← hvalue] at hl
      exact .bulkString (hvalue ▸ hcap) hl

theorem takes_splitVerbatim {buffer l : List UInt8} {f : Frame F}
    (hcap : buffer.length ≤ bulkLimit) (hl : NumberLine buffer.length l)
    (h : splitVerbatim buffer = .ok f) : Wire f (0x3D :: (l ++ (buffer ++ [cr, lf]))) := by
  unfold splitVerbatim at h
  split at h
  · contradiction
  · next hcolon =>
      split at h
      · contradiction
      · next format hformat =>
          split at h
          · next hascii =>
              have htake : utf8 format = buffer.take 3 := utf8OrInvalid_eq_ok hformat
              have hget : buffer[3]? = some 0x3A := by simpa using hcolon
              have hlt : 3 < buffer.length := (List.getElem?_eq_some_iff.mp hget).1
              -- the body is the format, the colon and what `f` keeps as payload
              have hbody : buffer = utf8 format ++ 0x3A :: buffer.drop 4 := by
                have hdrop : buffer.drop 3 = 0x3A :: buffer.drop 4 := by
                  rw [List.drop_eq_getElem_cons hlt, (List.getElem?_eq_some_iff.mp hget).2]
                rw [htake, ← hdrop, List.take_append_drop]
              have hthree : (utf8 format).length = 3 := by
                rw [htake, List.length_take]
                omega
              have hlen : buffer.length = 4 + (buffer.drop 4).length := by
                rw [List.length_drop]
                omega
              obtain rfl := Except.ok.inj h
              rw [hlen] at hcap
              have hl' : NumberLine (4 + (buffer.drop 4).length) l := by
                rw [hlen] at hl
                exact_mod_cast hl
              have hw := Wire.verbatimString (F := F) hthree (by simpa using hascii) hcap hl'
              rw [← hbody] at hw
              exact hw
          · contradiction

theorem takes_decodeVerbatim :
    Takes (decodeVerbatim : Read (Frame F)) fun f w => Wire f (0x3D :: w) := by
  refine takes_length fun n l hl => ?_
  split
  · exact takes_fail _
  · refine takes_ofExcept_bind fun count hcount => ?_
    split
    · exact takes_fail _
    · refine takes_bind (takes_readPayload count _) fun buffer w ⟨hbuffer, hw⟩ =>
        takes_ofExcept fun f hf => ?_
      obtain ⟨hn, hcap⟩ := (ensureNonNegative_ok_iff (by decide)).mp hcount
      rw [List.append_nil, hw]
      rw [hn, ← hbuffer] at hl
      exact takes_splitVerbatim (hbuffer ▸ hcap) hl hf

theorem takes_decodeInlineFrame {tag : UInt8} (htag : tag ∉ typeBytes) :
    Takes (decodeInlineFrame tag : Read (Frame F)) fun f w => Wire f (tag :: w) := by
  refine takes_bind takes_readLineBytes fun text l hl => ?_
  dsimp only
  split
  · exact takes_fail _
  · next htokens =>
      refine takes_pure ?_
      rw [List.append_nil]
      exact .inline htag hl (by simpa using htokens)

theorem takes_booleanOfLine {text : String} {f : Frame F} {l : List UInt8}
    (h : booleanOfLine text = .ok f) (hl : Line (utf8 text) l) : Wire f (0x23 :: l) := by
  have ht : utf8 "t" = [0x74] := by decide
  have hf : utf8 "f" = [0x66] := by decide
  unfold booleanOfLine at h
  split at h
  · exact Except.ok.inj h ▸ .true (ht ▸ hl)
  · exact Except.ok.inj h ▸ .false (hf ▸ hl)
  · contradiction

/-! ## The dispatch -/

/-- Every type byte over calls that take their grammar takes its own. -/
theorem takes_decodeTagged {x : Read (Frame F)} (hx : Takes x Wire) (tag : UInt8) :
    Takes (decodeTagged x tag) fun f w => Wire f (tag :: w) := by
  have hentry := takes_decodeEntry hx
  unfold decodeTagged
  split
  · exact takes_decodeLine fun text f l hf hl => Except.ok.inj hf ▸ .simpleString hl
  · exact takes_decodeLine fun text f l hf hl => Except.ok.inj hf ▸ .error hl
  · refine takes_decodeLine fun text f l hf hl => ?_
    unfold integerOfLine at hf
    split at hf
    · next n hn => exact Except.ok.inj hf ▸ .integer ⟨text, parseI64_eq_some.mp hn, hl⟩
    · contradiction
  · exact takes_decodeBulk
  · exact takes_decodeAggregate hx (fun _ _ hf hl => Option.some.inj hf ▸ .nullArray hl)
      fun _ _ _ hcap hl hw => .array hcap hl hw
  · exact takes_decodeLine fun text f l => takes_booleanOfLine
  · refine takes_decodeLine fun text f l hf hl => ?_
    unfold doubleOfLine at hf
    split at hf
    · next x hx => exact Except.ok.inj hf ▸ .double hx hl
    · contradiction
  · refine takes_decodeLine fun text f l hf hl => ?_
    unfold nullOfLine at hf
    split at hf
    · next htext => exact Except.ok.inj hf ▸ .null (by rw [htext] at hl; exact hl)
    · contradiction
  · exact takes_decodeAggregate hentry (fun _ _ hf hl => Option.some.inj hf ▸ .nullMap hl)
      fun _ _ _ hcap hl hw => .map hcap hl (pieces_flatten.mp hw)
  · exact takes_decodeAggregate hx (fun _ _ hf hl => Option.some.inj hf ▸ .nullSet hl)
      fun _ _ _ hcap hl hw => .set hcap hl hw
  · exact takes_decodeAggregate hx (fun _ _ hf => by contradiction)
      fun _ _ _ hcap hl hw => .push hcap hl hw
  · exact takes_decodeAggregate hentry (fun _ _ hf => by contradiction)
      fun _ _ _ hcap hl hw => .attr hcap hl (pieces_flatten.mp hw)
  · exact takes_decodeVerbatim
  · refine takes_decodeLine fun text f l hf hl => ?_
    unfold bignumOfLine at hf
    split at hf
    · contradiction
    · next htext => exact Except.ok.inj hf ▸ .bigNumber htext hl
  · next h0 h1 h2 h3 h4 h5 h6 h7 h8 h9 h10 h11 h12 h13 =>
      refine takes_decodeInlineFrame ?_
      simp only [typeBytes, List.mem_cons, List.not_mem_nil, or_false, not_or]
      exact ⟨h0, h1, h2, h3, h4, h5, h6, h7, h8, h9, h10, h11, h12, h13⟩

/-- **Soundness**: what the decoder has taken spells its answer. -/
theorem takes_decodeFrame : Takes (decodeFrame : Read (Frame F)) Wire := by
  -- so has each unfolding, by induction on the depth
  have hdepth : ∀ n, Takes (decodeFrameWithin n : Read (Frame F)) Wire := by
    intro n
    induction n with
    | zero => exact takes_fail _
    | succ n ih =>
        refine takes_bind takes_readByte fun tag w hw => ?_
        rw [hw]
        exact takes_decodeTagged ih tag
  intro b e f r h
  exact hdepth (b.length + 1) b e f r h

end Soundness

/-! ## Completeness -/

theorem lt_of_le_bulkLimit {n : Nat} (h : n ≤ bulkLimit) : n < 2 ^ 63 :=
  Nat.lt_of_le_of_lt h (Int64.toNatClampNeg_lt _)

theorem lt_of_le_collectionLimit {n : Nat} (h : n ≤ collectionLimit) : n < 2 ^ 63 :=
  Nat.lt_of_le_of_lt h (Int64.toNatClampNeg_lt _)

/-- A length in the range of `i64` is no negative `i64`. -/
theorem ofNat_not_neg {n : Nat} (h : n < 2 ^ 63) : ¬ Int64.ofNat n < 0 := by
  rw [Int64.lt_iff_toInt_lt, Int64.toInt_ofNat_of_lt h]
  simp

/-- A length within a cap is accepted as it is. -/
theorem ensureNonNegative_ofNat {n : Nat} {max : Int64} (h : n ≤ max.toNatClampNeg)
    (hmax : 0 ≤ max) (kind : String) : ensureNonNegative (Int64.ofNat n) max kind = .ok n := by
  have hn : n < 2 ^ 63 := Nat.lt_of_le_of_lt h max.toNatClampNeg_lt
  exact (ensureNonNegative_ok_iff hmax).mpr ⟨Int64.toInt_ofNat_of_lt hn, h⟩

/-- A length line whose number is the length `n`. -/
theorem reads_length_ofNat {f : Int64 → Read α} {n : Nat} {l w : List UInt8} {a : α}
    (hn : n < 2 ^ 63) (hl : NumberLine n l) (hf : Reads (f (Int64.ofNat n)) w a) :
    Reads (readLine >>= fun text => ofExcept (parseLength text) >>= f) (l ++ w) a := by
  rw [← Int64.toInt_ofNat_of_lt hn] at hl
  exact reads_length hl hf

/-- A length line whose number is `-1`. -/
theorem reads_length_minus_one {f : Int64 → Read α} {l : List UInt8} {a : α}
    (hl : NumberLine (-1) l) (hf : f (-1) = pure a) :
    Reads (readLine >>= fun text => ofExcept (parseLength text) >>= f) l a := by
  have hpure : Reads (f (-1)) [] a := hf ▸ reads_pure a
  have hread := reads_length (n := -1) hl hpure
  rw [List.append_nil] at hread
  exact hread

theorem reads_decodeLine {frameOf : String → Except IoError (Frame F)} {text : String}
    {l : List UInt8} {f : Frame F} (hl : Line (utf8 text) l) (hf : frameOf text = .ok f) :
    Reads (decodeLine frameOf) l f := by
  intro rest e
  rw [decodeLine, bind_run_ok (reads_line hl rest e), ofExcept_run, hf]

theorem reads_readPayload (buffer : List UInt8) (message : String) :
    Reads (readPayload buffer.length message) (buffer ++ [cr, lf]) buffer := by
  intro rest e
  have hbody := reads_readExact (w := buffer) rfl ([cr, lf] ++ rest) e
  have hcrlf := reads_readExact (w := [cr, lf]) (n := 2) rfl rest e
  rw [List.append_assoc, readPayload, bind_run_ok hbody, bind_run_ok hcrlf, if_pos rfl, pure_run]

theorem reads_decodeBulk {value l : List UInt8} (hcap : value.length ≤ bulkLimit)
    (hl : NumberLine value.length l) :
    Reads (decodeBulk : Read (Frame F)) (l ++ (value ++ [cr, lf])) (.bulkString (some value)) := by
  have hn := lt_of_le_bulkLimit hcap
  have hpos := ofNat_not_neg hn
  refine reads_length_ofNat hn hl ?_
  rw [if_neg (fun hc => hpos (by rw [hc]; decide)),
    if_neg (fun hc => hpos (Int64.lt_trans hc (by decide)))]
  refine reads_ofExcept_bind (ensureNonNegative_ofNat hcap (by decide) _) ?_
  exact reads_bind_pure (fun buffer => Frame.bulkString (some buffer)) (reads_readPayload value _)

/-- The body of a verbatim string splits at its colon. -/
theorem splitVerbatim_append {format : String} (hlen : (utf8 format).length = 3)
    (hascii : ∀ b ∈ utf8 format, b < 0x80) (payload : List UInt8) :
    splitVerbatim (utf8 format ++ 0x3A :: payload) =
      .ok (.verbatimString format payload : Frame F) := by
  have hcolon : (utf8 format ++ 0x3A :: payload)[3]? = some 0x3A := by
    rw [List.getElem?_append_right (by omega), hlen]
    rfl
  have htake : (utf8 format ++ 0x3A :: payload).take 3 = utf8 format := by
    rw [← hlen, List.take_left]
  have hdrop : (utf8 format ++ 0x3A :: payload).drop 4 = payload := by
    rw [List.drop_append, hlen, List.drop_eq_nil_of_le (by omega)]
    rfl
  have hall : (utf8 format).all (· < 0x80) = true := by simpa using hascii
  rw [splitVerbatim, if_neg (by rw [hcolon]; simp), htake, utf8OrInvalid_utf8, hdrop]
  simp only [hall, if_true]

theorem reads_decodeVerbatim {format : String} {payload l : List UInt8}
    (hlen : (utf8 format).length = 3) (hascii : ∀ b ∈ utf8 format, b < 0x80)
    (hcap : 4 + payload.length ≤ bulkLimit) (hl : NumberLine (4 + payload.length) l) :
    Reads (decodeVerbatim : Read (Frame F)) (l ++ (utf8 format ++ 0x3A :: payload ++ [cr, lf]))
      (.verbatimString format payload) := by
  have hbody : (utf8 format ++ 0x3A :: payload).length = 4 + payload.length := by
    simp only [List.length_append, List.length_cons]
    omega
  have hn := lt_of_le_bulkLimit hcap
  refine reads_length_ofNat hn (by exact_mod_cast hl) ?_
  rw [if_neg (ofNat_not_neg hn)]
  refine reads_ofExcept_bind (ensureNonNegative_ofNat hcap (by decide) _) ?_
  rw [if_neg (by omega), ← hbody]
  intro rest e
  rw [bind_run_ok (reads_readPayload _ _ rest e), ofExcept_run]
  exact congrArg (·, _) (splitVerbatim_append hlen hascii payload)

theorem reads_decodeAggregate {nil : Option (Frame F)} {message : String} {entry : Read α}
    {build : List α → Frame F} {items : List α} {l w : List UInt8}
    (hcap : items.length ≤ collectionLimit) (hl : NumberLine items.length l)
    (hitems : Reads (times items.length entry) w items) :
    Reads (decodeAggregate nil message entry build) (l ++ w) (build items) := by
  have hn := lt_of_le_collectionLimit hcap
  refine reads_length_ofNat hn hl ?_
  rw [if_neg (ofNat_not_neg hn)]
  refine reads_ofExcept_bind (ensureNonNegative_ofNat hcap (by decide) _) ?_
  exact reads_bind_pure build hitems

/-- The entries of a map, from the frames they flatten to. -/
theorem reads_entries {x : Read (Frame F)} {W : Frame F → List UInt8 → Prop}
    {entries : List (Frame F × Frame F)} {w : List UInt8}
    (h : Pieces W (Frame.flatten entries) w)
    (hx : ∀ f ∈ Frame.flatten entries, ∀ v, W f v → Reads x v f) :
    Reads (times entries.length (decodeEntry x)) w entries := by
  refine reads_times (pieces_flatten.mpr h) ?_
  rintro ⟨key, value⟩ hentry _ ⟨u, v, hu, hv, rfl⟩
  have hmem : ∀ f ∈ [key, value], f ∈ Frame.flatten entries := fun f hf =>
    List.mem_flatMap.mpr ⟨(key, value), hentry, hf⟩
  exact reads_bind (hx key (hmem key (by simp)) u hu)
    (reads_bind_pure (key, ·) (hx value (hmem value (by simp)) v hv))

/-- The dispatch reads a frame whose type byte stands first. -/
theorem reads_decodeFrame [F64 F] {tag : UInt8} {w : List UInt8} {f : Frame F}
    (h : Reads (decodeTagged decodeFrame tag) w f) : Reads decodeFrame (tag :: w) f := by
  rw [decodeFrame_eq]
  exact reads_bind (reads_readByte tag) h

/-- An aggregate, after its type byte. -/
theorem reads_aggregate [F64 F] {tag : UInt8} (nil : Option (Frame F)) (message : String)
    (build : List α → Frame F) {entry : Read α} {items : List α} {l w : List UInt8}
    (hdecode : decodeTagged decodeFrame tag = decodeAggregate nil message entry build)
    (hcap : items.length ≤ collectionLimit) (hl : NumberLine items.length l)
    (hitems : Reads (times items.length entry) w items) :
    Reads decodeFrame (tag :: (l ++ w)) (build items) := by
  refine reads_decodeFrame ?_
  rw [hdecode]
  exact reads_decodeAggregate hcap hl hitems

/-- A byte that is no type byte starts an inline command. -/
theorem decodeTagged_inline [F64 F] {x : Read (Frame F)} {tag : UInt8} (h : tag ∉ typeBytes) :
    decodeTagged x tag = decodeInlineFrame tag := by
  unfold decodeTagged
  split <;> first | rfl | exact absurd (by decide) h

theorem reads_decodeInlineFrame [F64 F] {tag : UInt8} {text l : List UInt8} (hl : Line text l)
    (htokens : inlineTokens (tag :: text) ≠ []) :
    Reads (decodeInlineFrame tag : Read (Frame F)) l (inlineFrame (tag :: text)) := by
  have hempty : ¬ (inlineTokens (tag :: text)).isEmpty = true := by simpa using htokens
  intro rest e
  rw [decodeInlineFrame, bind_run_ok (reads_readLineBytes hl rest e)]
  simp only [hempty, if_false, Bool.false_eq_true]
  rfl

/-- **Completeness**: a spelling is read as its frame, whatever follows. -/
theorem reads_of_wire [F64 F] (f : Frame F) {w : List UInt8} (h : Wire f w) :
    Reads decodeFrame w f := by
  induction f using Frame.child_induction generalizing w with
  | h f ih =>
    cases h with
    | simpleString line => exact reads_decodeFrame (reads_decodeLine line rfl)
    | error line => exact reads_decodeFrame (reads_decodeLine line rfl)
    | integer number =>
        obtain ⟨text, hnum, hline⟩ := number
        refine reads_decodeFrame (reads_decodeLine hline ?_)
        rw [integerOfLine, parseI64_eq_some.mpr hnum]
    | nullBulk number => exact reads_decodeFrame (reads_length_minus_one number rfl)
    | bulkString cap number => exact reads_decodeFrame (reads_decodeBulk cap number)
    | nullArray number => exact reads_decodeFrame (reads_length_minus_one number rfl)
    | array cap number frames =>
        exact reads_aggregate (some (.array none)) "invalid array length"
          (fun items => .array (some items)) rfl cap number
          (reads_times frames fun c hc _ hw => ih c hc hw)
    | null line =>
        have hline : Line (utf8 "") _ := line
        exact reads_decodeFrame (reads_decodeLine hline rfl)
    | true line =>
        have hline : Line (utf8 "t") _ := line
        exact reads_decodeFrame (reads_decodeLine hline rfl)
    | false line =>
        have hline : Line (utf8 "f") _ := line
        exact reads_decodeFrame (reads_decodeLine hline rfl)
    | double parses line =>
        refine reads_decodeFrame (reads_decodeLine line ?_)
        rw [doubleOfLine, parses]
    | nullMap number => exact reads_decodeFrame (reads_length_minus_one number rfl)
    | map cap number frames =>
        exact reads_aggregate (some (.map none)) "invalid map length"
          (fun entries => .map (some entries)) rfl cap number
          (reads_entries frames fun c hc _ hw => ih c hc hw)
    | nullSet number => exact reads_decodeFrame (reads_length_minus_one number rfl)
    | set cap number frames =>
        exact reads_aggregate (some (.set none)) "invalid set length"
          (fun items => .set (some items)) rfl cap number
          (reads_times frames fun c hc _ hw => ih c hc hw)
    | push cap number frames =>
        exact reads_aggregate none "invalid push length" .push
          rfl cap number (reads_times frames fun c hc _ hw => ih c hc hw)
    | attr cap number frames =>
        exact reads_aggregate none "invalid attribute length" .attr
          rfl cap number (reads_entries frames fun c hc _ hw => ih c hc hw)
    | verbatimString three ascii cap number =>
        exact reads_decodeFrame (reads_decodeVerbatim three ascii cap number)
    | bigNumber nonempty line =>
        refine reads_decodeFrame (reads_decodeLine line ?_)
        rw [bignumOfLine, if_neg nonempty]
    | inline untagged line tokens =>
        refine reads_decodeFrame ?_
        rw [decodeTagged_inline untagged]
        exact reads_decodeInlineFrame line tokens

/-- **The decoder accepts exactly its grammar.** -/
theorem decodeFrame_eq_ok_iff [F64 F] (b rest : List UInt8) (f : Frame F) (e : Ending) :
    decodeFrame.run ⟨b, e⟩ = (.ok f, ⟨rest, e⟩) ↔ ∃ w, b = w ++ rest ∧ Wire f w := by
  constructor
  · intro h
    obtain ⟨w, rest', hb, hrest, hw⟩ := takes_decodeFrame b e f ⟨rest, e⟩ h
    obtain rfl : rest = rest' := congrArg Reader.unread hrest
    exact ⟨w, hb, hw⟩
  · rintro ⟨w, rfl, hw⟩
    exact reads_of_wire f hw rest e

end RalphDb
