import RalphDb.Protocol.RoundTrip

/-!
# RalphDb.Protocol.Spelling

Which frames a protocol version can spell, and what RESP2 spells instead of a
frame it has no type for.

* **success** — the encoder succeeds exactly on frames all of whose nodes the
  version spells (`writes_encodeFrame_iff`).  RESP3 spells everything but a
  verbatim string with a bad format tag; RESP2 refuses six types;
* **downgrade** — under RESP2 a null, a boolean and a double become frames of
  another type.  `Frame.lower` makes that replacement once, and the RESP2
  encoder is the RESP3 encoder after it (`encodeFrame_resp2`).
-/

namespace RalphDb

open Base
open Base.Fallible

variable {F : Type}

/-! ## Success -/

/-- The version has a spelling for this node. -/
def Frame.Spelled : ProtocolVersion → Frame F → Prop
  | .resp3, .verbatimString format _ => (utf8 format).length = 3
  | .resp3, _ => True
  | .resp2, .map _ => False
  | .resp2, .set _ => False
  | .resp2, .push _ => False
  | .resp2, .attr _ => False
  | .resp2, .verbatimString _ _ => False
  | .resp2, .bigNumber _ => False
  | .resp2, _ => True

section Success

variable [F64 F] {version : ProtocolVersion}

/-- A length line, then a body that succeeds. -/
theorem writes_line_bind {tag text : String} {body : Write} (h : ∃ w, Writes body w) :
    ∃ w, Writes (writeLine tag text >>= fun _ => body) w := by
  obtain ⟨w, hw⟩ := h
  exact ⟨_, writes_bind (writes_writeAll _) hw⟩

theorem writes_encodeFrames {elements : List (Frame F)}
    (h : ∀ c ∈ elements, ∃ w, Writes (encodeFrame c version) w) :
    ∃ w, Writes (encodeFrames elements version) w := by
  induction elements with
  | nil => exact ⟨[], writes_pure⟩
  | cons item items ih =>
      obtain ⟨w₁, hw₁⟩ := h item List.mem_cons_self
      obtain ⟨w₂, hw₂⟩ := ih fun c hc => h c (List.mem_cons_of_mem _ hc)
      exact ⟨w₁ ++ w₂, writes_bind hw₁ hw₂⟩

theorem writes_encodeEntries {entries : List (Frame F × Frame F)}
    (h : ∀ c ∈ Frame.flatten entries, ∃ w, Writes (encodeFrame c version) w) :
    ∃ w, Writes (encodeEntries entries version) w := by
  induction entries with
  | nil => exact ⟨[], writes_pure⟩
  | cons entry entries ih =>
      obtain ⟨key, value⟩ := entry
      simp only [Frame.flatten_cons, List.mem_cons] at h
      obtain ⟨w₁, hw₁⟩ := h key (.inl rfl)
      obtain ⟨w₂, hw₂⟩ := h value (.inr (.inl rfl))
      obtain ⟨w₃, hw₃⟩ := ih fun c hc => h c (.inr (.inr hc))
      exact ⟨w₁ ++ (w₂ ++ w₃), writes_bind hw₁ (writes_bind hw₂ hw₃)⟩

/-- A frame that the version spells at every node is encoded. -/
theorem writes_encodeFrame (f : Frame F) (h : f.Everywhere (Frame.Spelled version)) :
    ∃ w, Writes (encodeFrame f version) w := by
  induction f using Frame.child_induction with
  | h f ih =>
    have hspelled := h.here
    have hchildren : ∀ c ∈ f.children, ∃ w, Writes (encodeFrame c version) w :=
      fun c hc => ih c hc (h.child hc)
    cases f with
    | simpleString value => cases version <;> exact ⟨_, writes_writeAll _⟩
    | error value => cases version <;> exact ⟨_, writes_writeAll _⟩
    | integer value => cases version <;> exact ⟨_, writes_writeAll _⟩
    | bulkString value =>
        cases value with
        | none => cases version <;> exact ⟨_, writes_writeAll _⟩
        | some value => cases version <;> exact ⟨_, writes_writeBulk value⟩
    | array elements =>
        cases elements with
        | none => cases version <;> exact ⟨_, writes_writeAll _⟩
        | some elements => cases version <;> exact writes_line_bind (writes_encodeFrames hchildren)
    | null => cases version <;> exact ⟨_, writes_writeAll _⟩
    | boolean value => cases version <;> exact ⟨_, writes_writeAll _⟩
    | double value =>
        cases version with
        | resp2 => exact ⟨_, writes_writeBulk _⟩
        | resp3 => exact ⟨_, writes_writeAll _⟩
    | map entries =>
        cases version with
        | resp2 => exact hspelled.elim
        | resp3 =>
            cases entries with
            | none => exact ⟨_, writes_writeAll _⟩
            | some entries => exact writes_line_bind (writes_encodeEntries hchildren)
    | set elements =>
        cases version with
        | resp2 => exact hspelled.elim
        | resp3 =>
            cases elements with
            | none => exact ⟨_, writes_writeAll _⟩
            | some elements => exact writes_line_bind (writes_encodeFrames hchildren)
    | push elements =>
        cases version with
        | resp2 => exact hspelled.elim
        | resp3 => exact writes_line_bind (writes_encodeFrames hchildren)
    | attr attributes =>
        cases version with
        | resp2 => exact hspelled.elim
        | resp3 => exact writes_line_bind (writes_encodeEntries hchildren)
    | verbatimString format payload =>
        cases version with
        | resp2 => exact hspelled.elim
        | resp3 => exact ⟨_, writes_writeVerbatim hspelled payload⟩
    | bigNumber value =>
        cases version with
        | resp2 => exact hspelled.elim
        | resp3 => exact ⟨_, writes_writeAll _⟩

/-- `x` succeeds on some output. -/
def Succeeds (x : Write) : Prop := ∃ out out', x.run out = (.ok (), out')

theorem succeeds_bind {x y : Write} (h : Succeeds (x >>= fun _ => y)) :
    Succeeds x ∧ Succeeds y := by
  obtain ⟨out, out', h⟩ := h
  obtain ⟨_, mid, hx, hy⟩ := bind_eq_ok.mp h
  exact ⟨⟨out, mid, hx⟩, ⟨mid, out', hy⟩⟩

theorem not_succeeds_fail (e : IoError) : ¬ Succeeds (fail e) := by
  intro h
  obtain ⟨out, out', h⟩ := h
  simp at h

theorem succeeds_of_encodeFrames {elements : List (Frame F)}
    (h : Succeeds (encodeFrames elements version)) :
    ∀ c ∈ elements, Succeeds (encodeFrame c version) := by
  induction elements with
  | nil => exact fun c hc => absurd hc List.not_mem_nil
  | cons item items ih =>
      obtain ⟨hitem, hitems⟩ := succeeds_bind h
      exact List.forall_mem_cons.mpr ⟨hitem, ih hitems⟩

theorem succeeds_of_encodeEntries {entries : List (Frame F × Frame F)}
    (h : Succeeds (encodeEntries entries version)) :
    ∀ c ∈ Frame.flatten entries, Succeeds (encodeFrame c version) := by
  induction entries with
  | nil => exact fun c hc => absurd hc List.not_mem_nil
  | cons entry entries ih =>
      obtain ⟨hkey, hrest⟩ := succeeds_bind h
      obtain ⟨hvalue, hentries⟩ := succeeds_bind hrest
      exact List.forall_mem_cons.mpr ⟨hkey, List.forall_mem_cons.mpr ⟨hvalue, ih hentries⟩⟩

/-- A node with no spelling is refused. -/
theorem not_succeeds_of_not_spelled {f : Frame F} (h : ¬ f.Spelled version) :
    ¬ Succeeds (encodeFrame f version) := by
  cases version with
  | resp2 =>
      cases f with
      | map entries => cases entries <;> exact not_succeeds_fail _
      | set elements => cases elements <;> exact not_succeeds_fail _
      | push elements => exact not_succeeds_fail _
      | attr attributes => exact not_succeeds_fail _
      | verbatimString format payload => exact not_succeeds_fail _
      | bigNumber value => exact not_succeeds_fail _
      | _ => exact absurd trivial h
  | resp3 =>
      cases f with
      | verbatimString format payload =>
          have hlen : (utf8 format).length ≠ 3 := h
          have hfail : encodeFrame (.verbatimString format payload : Frame F) .resp3 =
              fail ⟨.invalidInput, "verbatim format tag must be exactly 3 bytes"⟩ := by
            show writeVerbatim format payload = _
            rw [writeVerbatim, if_pos hlen]
          rw [hfail]
          exact not_succeeds_fail _
      | _ => exact absurd trivial h

/-- A frame is encoded only when everything directly inside it is. -/
theorem succeeds_children {f : Frame F} (hspelled : f.Spelled version)
    (h : Succeeds (encodeFrame f version)) :
    ∀ c ∈ f.children, Succeeds (encodeFrame c version) := by
  cases f with
  | array elements =>
      cases elements with
      | none => exact fun c hc => absurd hc List.not_mem_nil
      | some elements => cases version <;> exact succeeds_of_encodeFrames (succeeds_bind h).2
  | map entries =>
      cases version with
      | resp2 => exact hspelled.elim
      | resp3 =>
          cases entries with
          | none => exact fun c hc => absurd hc List.not_mem_nil
          | some entries => exact succeeds_of_encodeEntries (succeeds_bind h).2
  | set elements =>
      cases version with
      | resp2 => exact hspelled.elim
      | resp3 =>
          cases elements with
          | none => exact fun c hc => absurd hc List.not_mem_nil
          | some elements => exact succeeds_of_encodeFrames (succeeds_bind h).2
  | push elements =>
      cases version with
      | resp2 => exact hspelled.elim
      | resp3 => exact succeeds_of_encodeFrames (succeeds_bind h).2
  | attr attributes =>
      cases version with
      | resp2 => exact hspelled.elim
      | resp3 => exact succeeds_of_encodeEntries (succeeds_bind h).2
  | _ => exact fun c hc => absurd hc List.not_mem_nil

/-- An encoder that succeeds has spelled every node. -/
theorem spelled_of_succeeds (f : Frame F) (h : Succeeds (encodeFrame f version)) :
    f.Everywhere (Frame.Spelled version) := by
  induction f using Frame.child_induction with
  | h f ih =>
    have hspelled : f.Spelled version :=
      Classical.byContradiction fun hn => not_succeeds_of_not_spelled hn h
    exact ⟨hspelled, fun c hc => ih c hc (succeeds_children hspelled h c hc)⟩

/-- **When the encoder succeeds.** -/
theorem writes_encodeFrame_iff (f : Frame F) :
    (∃ w, Writes (encodeFrame f version) w) ↔ f.Everywhere (Frame.Spelled version) :=
  ⟨fun ⟨_, hw⟩ => spelled_of_succeeds f ⟨[], _, hw []⟩, writes_encodeFrame f⟩

end Success

/-! ## Downgrade -/

section Downgrade

variable [F64 F]

mutual
/-- The frame RESP2 spells instead: a null bulk string for null, `1` or `0`
for a boolean, the printed text for a double, at every depth. -/
def Frame.lower : Frame F → Frame F
  | .null => .bulkString none
  | .boolean value => .integer (if value then 1 else 0)
  | .double value => .bulkString (some (utf8 (F64.toStr value)))
  | .array (some elements) => .array (some (lowerAll elements))
  | f => f

def Frame.lowerAll : List (Frame F) → List (Frame F)
  | [] => []
  | item :: items => item.lower :: lowerAll items
end

theorem Frame.lowerAll_eq_map (elements : List (Frame F)) :
    Frame.lowerAll elements = elements.map Frame.lower := by
  induction elements with
  | nil => rfl
  | cons item items ih => rw [Frame.lowerAll, List.map_cons, ih]

theorem encodeFrames_lower {elements : List (Frame F)}
    (h : ∀ c ∈ elements, encodeFrame c .resp2 = encodeFrame c.lower .resp3) :
    encodeFrames elements .resp2 = encodeFrames (Frame.lowerAll elements) .resp3 := by
  induction elements with
  | nil => rfl
  | cons item items ih =>
      obtain ⟨hitem, hitems⟩ := List.forall_mem_cons.mp h
      rw [encodeFrames, Frame.lowerAll, encodeFrames, hitem, ih hitems]

/-- **RESP2 is RESP3 after the downgrade**, byte for byte. -/
theorem encodeFrame_resp2 (f : Frame F) (h : f.Everywhere (Frame.Spelled .resp2)) :
    encodeFrame f .resp2 = encodeFrame f.lower .resp3 := by
  induction f using Frame.child_induction with
  | h f ih =>
    have hspelled := h.here
    cases f with
    | bulkString value => cases value <;> rfl
    | array elements =>
        cases elements with
        | none => rfl
        | some elements =>
            have hitems : encodeFrames elements .resp2 =
                encodeFrames (Frame.lowerAll elements) .resp3 :=
              encodeFrames_lower fun c hc => ih c hc (h.child hc)
            have hlen : (Frame.lowerAll elements).length = elements.length := by
              rw [Frame.lowerAll_eq_map, List.length_map]
            rw [Frame.lower, encodeFrame, encodeFrame, hitems, hlen]
    | boolean value => cases value <;> rfl
    | map entries => exact hspelled.elim
    | set elements => exact hspelled.elim
    | push elements => exact hspelled.elim
    | attr attributes => exact hspelled.elim
    | verbatimString format payload => exact hspelled.elim
    | bigNumber value => exact hspelled.elim
    | _ => rfl

/-- The demands of the wire on one node that RESP2 spells: its texts are one
line, its payload, its printed double and its elements are within the caps. -/
def Frame.Resp2Safe : Frame F → Prop
  | .simpleString value => '\n' ∉ value.toList
  | .error value => '\n' ∉ value.toList
  | .bulkString (some value) => value.length ≤ bulkLimit
  | .array (some elements) => elements.length ≤ collectionLimit
  | .double value => (utf8 (F64.toStr value)).length ≤ bulkLimit
  | _ => True

theorem wireSafe_lower (f : Frame F) (h : f.Everywhere (Frame.Spelled .resp2))
    (hsafe : f.Everywhere Frame.Resp2Safe) : f.lower.Everywhere Frame.WireSafe := by
  induction f using Frame.child_induction with
  | h f ih =>
    have hspelled := h.here
    have hhere := hsafe.here
    cases f with
    | array elements =>
        cases elements with
        | none => exact .leaf rfl trivial
        | some elements =>
            rw [Frame.lower, Frame.lowerAll_eq_map]
            refine ⟨?_, fun c hc => ?_⟩
            · show (elements.map Frame.lower).length ≤ collectionLimit
              rw [List.length_map]
              exact hhere
            · obtain ⟨item, hitem, rfl⟩ := List.mem_map.mp hc
              exact ih item hitem (h.child hitem) (hsafe.child hitem)
    | bulkString value =>
        cases value with
        | none => exact .leaf rfl trivial
        | some value => exact .leaf rfl hhere
    | map entries => exact hspelled.elim
    | set elements => exact hspelled.elim
    | push elements => exact hspelled.elim
    | attr attributes => exact hspelled.elim
    | verbatimString format payload => exact hspelled.elim
    | bigNumber value => exact hspelled.elim
    | _ => exact .leaf rfl hhere

/-- **RESP2 encoding is exact.**  It succeeds on the frames that RESP2 spells,
writes for them what RESP3 writes for the downgraded frame, and that frame is
read back, whatever follows it. -/
theorem encodeFrame_resp2_exact (f : Frame F) :
    ((∃ w, (encodeFrame f .resp2).run [] = (.ok (), w)) ↔ f.Everywhere (Frame.Spelled .resp2)) ∧
      (f.Everywhere (Frame.Spelled .resp2) → encodeFrame f .resp2 = encodeFrame f.lower .resp3) ∧
      (f.Everywhere (Frame.Spelled .resp2) → f.Everywhere Frame.Resp2Safe →
        ∃ w, (encodeFrame f .resp2).run [] = (.ok (), w) ∧
          ∀ rest e, decodeFrame.run ⟨w ++ rest, e⟩ = (.ok f.lower, ⟨rest, e⟩)) := by
  refine ⟨⟨?_, ?_⟩, encodeFrame_resp2 f, ?_⟩
  · intro h
    obtain ⟨w, hw⟩ := h
    exact spelled_of_succeeds f ⟨[], w, hw⟩
  · intro h
    obtain ⟨w, hw⟩ := writes_encodeFrame f h
    exact ⟨w, hw []⟩
  · intro h hsafe
    obtain ⟨w, hw, hr⟩ := roundTrips_of_wireSafe f.lower (wireSafe_lower f h hsafe)
    rw [encodeFrame_resp2 f h]
    exact ⟨w, hw [], hr⟩

end Downgrade

/-- An error, a null and a boolean, in an array. -/
def mixedReply : Frame WholeDouble := .array (some [.error "ERR", .null, .boolean true])

/-- What RESP2 makes of it. -/
example : mixedReply.lower = .array (some [.error "ERR", .bulkString none, .integer 1]) := rfl

theorem spelled_mixedReply : mixedReply.Everywhere (Frame.Spelled .resp2) :=
  ⟨trivial, List.forall_mem_cons.mpr ⟨.leaf rfl trivial,
    List.forall_mem_cons.mpr ⟨.leaf rfl trivial,
      List.forall_mem_singleton.mpr (.leaf rfl trivial)⟩⟩⟩

theorem resp2Safe_mixedReply : mixedReply.Everywhere Frame.Resp2Safe := by
  have hthree : 3 ≤ collectionLimit := by decide
  have herr : '\n' ∉ "ERR".toList := by decide
  exact ⟨hthree, List.forall_mem_cons.mpr ⟨.leaf rfl herr,
    List.forall_mem_cons.mpr ⟨.leaf rfl trivial,
      List.forall_mem_singleton.mpr (.leaf rfl trivial)⟩⟩⟩

theorem encodeFrame_resp2_exact_mixedReply :
    ∃ w, (encodeFrame mixedReply .resp2).run [] = (.ok (), w) ∧
      ∀ rest e, decodeFrame.run ⟨w ++ rest, e⟩ = (.ok mixedReply.lower, ⟨rest, e⟩) :=
  (encodeFrame_resp2_exact mixedReply).2.2 spelled_mixedReply resp2Safe_mixedReply

end RalphDb
