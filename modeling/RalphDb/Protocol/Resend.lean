import RalphDb.Protocol.RoundTrip

/-!
# RalphDb.Protocol.Resend

What the decoder accepts can be sent on.

A frame that was read satisfies every demand of the wire but two: an inline
command is not checked against the caps, and the `f64` of a double may be NaN.
Within the caps and without NaN it is wire-safe (`wireSafe_of_wire`), so RESP3
spells it, in one canonical way whatever spelling it was read from.
-/

namespace RalphDb

open Base
open Base.Fallible

variable {F : Type}

/-- The caps on the bulk strings and the collections of a frame. -/
def Frame.Sized : Frame F → Prop
  | .bulkString (some value) => value.length ≤ bulkLimit
  | .array (some elements) => elements.length ≤ collectionLimit
  | .map (some entries) => entries.length ≤ collectionLimit
  | .set (some elements) => elements.length ≤ collectionLimit
  | .push elements => elements.length ≤ collectionLimit
  | .attr attributes => attributes.length ≤ collectionLimit
  | _ => True

/-- A double that is not NaN, or no double. -/
def Frame.NotNan [F64 F] : Frame F → Prop
  | .double value => F64.isNan value = false
  | _ => True

theorem lf_not_mem_of_line {text : String} {l : List UInt8} (h : Line (utf8 text) l) :
    '\n' ∉ text.toList := fun hc => h.1 ((lf_mem_utf8 text).mpr hc)

/-- A spelled frame within the caps and without NaN is wire-safe. -/
theorem wireSafe_of_wire [F64 F] [LawfulF64 F] (f : Frame F) {w : List UInt8} (h : Wire f w)
    (hsized : f.Everywhere Frame.Sized) (hnan : f.Everywhere Frame.NotNan) :
    f.Everywhere Frame.WireSafe := by
  induction f using Frame.child_induction generalizing w with
  | h f ih =>
    have hchildren : ∀ {v : List UInt8}, Pieces Wire f.children v →
        ∀ c ∈ f.children, c.Everywhere Frame.WireSafe := by
      intro v hv c hc
      obtain ⟨u, hu, _⟩ := hv.exists_of_mem hc
      exact ih c hc hu (hsized.child hc) (hnan.child hc)
    have hnode := hsized.here
    cases h with
    | simpleString line => exact .leaf rfl (lf_not_mem_of_line line)
    | error line => exact .leaf rfl (lf_not_mem_of_line line)
    | bigNumber nonempty line => exact .leaf rfl ⟨nonempty, lf_not_mem_of_line line⟩
    | double parses line => exact .leaf rfl (LawfulF64.printsBack _ hnan.here)
    | verbatimString three ascii cap number =>
        refine .leaf rfl ⟨three, ascii, ?_⟩
        omega
    | bulkString cap number => exact .leaf rfl cap
    | array cap number frames => exact ⟨cap, hchildren frames⟩
    | map cap number frames => exact ⟨cap, hchildren frames⟩
    | set cap number frames => exact ⟨cap, hchildren frames⟩
    | push cap number frames => exact ⟨cap, hchildren frames⟩
    | attr cap number frames => exact ⟨cap, hchildren frames⟩
    | inline untagged line tokens =>
        -- the tokens are bulk strings, within the cap by hypothesis
        refine ⟨hnode, fun c hc => ?_⟩
        have hc' := (hsized.child hc).here
        obtain ⟨token, _, rfl⟩ := List.mem_map.mp hc
        exact .leaf rfl hc'
    | _ => exact .leaf rfl trivial

/-- **An accepted frame is sent on unchanged**: RESP3 spells it, the decoder
reads it back with nothing left, and encoding what it has read writes the same
bytes again. -/
theorem encodeFrame_of_decodeFrame [F64 F] [LawfulF64 F] {b : List UInt8} {e : Ending} {f : Frame F}
    {r : Reader} (h : decodeFrame.run ⟨b, e⟩ = (.ok f, r)) (hsized : f.Everywhere Frame.Sized)
    (hnan : f.Everywhere Frame.NotNan) :
    ∃ c, (encodeFrame f .resp3).run [] = (.ok (), c) ∧
      decodeFrame.run ⟨c, e⟩ = (.ok f, ⟨[], e⟩) ∧
      ∀ (g : Frame F) (r' : Reader), decodeFrame.run ⟨c, e⟩ = (.ok g, r') →
        (encodeFrame g .resp3).run [] = (.ok (), c) := by
  obtain ⟨w, rest, _, _, hwire⟩ := takes_decodeFrame b e f r h
  obtain ⟨c, hwrites, hreads⟩ := roundTrips_of_wireSafe f (wireSafe_of_wire f hwire hsized hnan)
  have hback := hreads.whole e
  refine ⟨c, hwrites [], hback, fun g r' hg => ?_⟩
  rw [hback] at hg
  obtain rfl : f = g := Except.ok.inj (Prod.mk.inj hg).1
  exact hwrites []

/-- An array whose length and whose integer have a lenient spelling:
`*01\n:+5\n`. -/
def lenientBytes : List UInt8 := [0x2A, 0x30, 0x31, 0x0A, 0x3A, 0x2B, 0x35, 0x0A]

theorem wire_lenientBytes : Wire (.array (some [.integer 5]) : Frame WholeDouble) lenientBytes := by
  have hone : NumberLine 1 [0x30, 0x31, 0x0A] :=
    ⟨"01", .bare rfl (parseDigits_eq_some.mp rfl), by decide, .inr ⟨by decide, by decide⟩⟩
  have hfive : NumberLine (5 : Int64).toInt [0x2B, 0x35, 0x0A] :=
    ⟨"+5", .plus rfl (parseDigits_eq_some.mp rfl), by decide, .inr ⟨by decide, by decide⟩⟩
  have hinteger : Wire (.integer 5 : Frame WholeDouble) [0x3A, 0x2B, 0x35, 0x0A] :=
    .integer hfive
  have hframes : Pieces Wire [(.integer 5 : Frame WholeDouble)] ([0x3A, 0x2B, 0x35, 0x0A] ++ []) :=
    .cons hinteger .nil
  have hcap : [(.integer 5 : Frame WholeDouble)].length ≤ collectionLimit := by decide
  exact .array hcap hone hframes

theorem encodeFrame_of_decodeFrame_lenient :
    ∃ c, (encodeFrame (.array (some [.integer 5]) : Frame WholeDouble) .resp3).run [] =
        (.ok (), c) ∧
      decodeFrame.run ⟨c, .eof⟩ =
        (.ok (.array (some [.integer 5]) : Frame WholeDouble), ⟨[], .eof⟩) ∧
      ∀ (g : Frame WholeDouble) (r' : Reader), decodeFrame.run ⟨c, .eof⟩ = (.ok g, r') →
        (encodeFrame g .resp3).run [] = (.ok (), c) :=
  have hone : 1 ≤ collectionLimit := by decide
  encodeFrame_of_decodeFrame ((reads_of_wire _ wire_lenientBytes).whole .eof)
    ⟨hone, List.forall_mem_singleton.mpr (.leaf rfl trivial)⟩
    ⟨trivial, List.forall_mem_singleton.mpr (.leaf rfl trivial)⟩

end RalphDb
