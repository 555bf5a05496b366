import RalphDb.Protocol.Inline
import RalphDb.Protocol.Nesting

/-!
# RalphDb.Protocol.Stream

Streams of frames.

A peer reads a stream by calling `decode_frame` until it fails.  Since frames
are self-delimiting, it reads the frames that were written one after the other
(`readFrames_append`), and from a stream that was cut anywhere it reads the first
of them and no others (`readFrames_prefix`).  A frame takes two bytes of its
stream for each frame directly inside it (`size_children_le`).
-/

namespace RalphDb

open Base
open Base.Fallible

variable {F : Type} [F64 F]

/-- A call that accepts takes a byte. -/
theorem size_lt_of_decoded {f : Frame F} {r r' : Reader} (h : decodeFrame.run r = (.ok f, r')) :
    r'.size < r.size := by
  have hbytes : r.unread ≠ [] := by
    intro hnil
    obtain ⟨unread, e⟩ := r
    obtain rfl : unread = [] := hnil
    rw [decodeFrame_nil] at h
    cases h
  have hlt := size_decodeFrame_lt (F := F) hbytes
  rw [h] at hlt
  exact hlt

/-- The frames of a stream, up to the first call that fails. -/
def readFrames (r : Reader) : List (Frame F) :=
  match _hrun : (decodeFrame : Read (Frame F)).run r with
  | (.ok frame, r') => frame :: readFrames r'
  | (.error _, _) => []
termination_by r.size
decreasing_by exact size_lt_of_decoded _hrun

theorem readFrames_ok {f : Frame F} {r r' : Reader} (h : decodeFrame.run r = (.ok f, r')) :
    readFrames r = f :: readFrames r' := by
  rw [readFrames]
  split
  · next heq =>
      rw [h] at heq
      obtain ⟨rfl, rfl⟩ : f = _ ∧ r' = _ := by simpa using heq
      rfl
  · next heq =>
      rw [h] at heq
      cases heq

theorem readFrames_error {err : IoError} {r r' : Reader}
    (h : (decodeFrame : Read (Frame F)).run r = (.error err, r')) :
    (readFrames r : List (Frame F)) = [] := by
  rw [readFrames]
  split
  · next heq =>
      rw [h] at heq
      cases heq
  · rfl

@[simp] theorem readFrames_nil (e : Ending) : (readFrames ⟨[], e⟩ : List (Frame F)) = [] :=
  readFrames_error (decodeFrame_nil e)

/-- A frame, and the frames after it. -/
theorem readFrames_append {f : Frame F} {w : List UInt8} (h : Reads decodeFrame w f)
    (rest : List UInt8) (e : Ending) :
    readFrames ⟨w ++ rest, e⟩ = f :: readFrames ⟨rest, e⟩ :=
  readFrames_ok (h rest e)

/-- **A cut stream** is read as the first of its frames: what was received before
the cut never makes another frame. -/
theorem readFrames_prefix {p w : List UInt8} (h : p <+: w) (e : Ending) :
    (readFrames ⟨p, e⟩ : List (Frame F)) <+: readFrames ⟨w, e⟩ := by
  induction hlength : p.length using Nat.strong_induction_on generalizing p w with
  | _ n ih =>
    rcases hrun : (decodeFrame : Read (Frame F)).run ⟨p, e⟩ with ⟨err | f, r⟩
    · rw [readFrames_error hrun]
      exact List.nil_prefix
    · obtain ⟨w₁, rest, rfl, rfl, hreads, _⟩ := selfDelimiting_decodeFrame p e f r hrun
      obtain ⟨tail, rfl⟩ := h
      have hlt : rest.length < n := hlength ▸ size_lt_of_decoded hrun
      rw [readFrames_ok hrun, List.append_assoc, readFrames_append hreads]
      exact List.cons_prefix_cons.mpr ⟨rfl, ih _ hlt (List.prefix_append rest tail) rfl⟩

/-- The bytes that a call took are read as its frame wherever they stand. -/
theorem reads_of_run {f : Frame F} {b rest : List UInt8} {e : Ending}
    (h : decodeFrame.run ⟨b, e⟩ = (.ok f, ⟨rest, e⟩)) :
    ∃ w, b = w ++ rest ∧ Reads decodeFrame w f := by
  obtain ⟨w, rest', hsplit, hrest, hreads, _⟩ := selfDelimiting_decodeFrame b e f _ h
  obtain rfl : rest = rest' := congrArg Reader.unread hrest
  exact ⟨w, hsplit, hreads⟩

/-! ## Every frame inside costs two bytes -/

/-- A frame is a type byte, a line and perhaps more. -/
theorem two_le_length_of_wire {f : Frame F} {w : List UInt8} (h : Wire f w) : 2 ≤ w.length := by
  have hcounted : ∀ {n : Int} {tag : UInt8} {l v : List UInt8}, NumberLine n l →
      2 ≤ (tag :: (l ++ v)).length := by
    intro n tag l v hnumber
    have hlen := hnumber.two_le_length
    rw [List.length_cons, List.length_append]
    omega
  cases h with
  | simpleString line | error line | null line | true line | false line | double _ line
  | bigNumber _ line | inline _ line _ => exact Nat.succ_le_succ line.length_pos
  | integer number | nullBulk number | nullArray number | nullMap number | nullSet number =>
      exact Nat.le_succ_of_le number.two_le_length
  | bulkString _ number | array _ number _ | map _ number _ | set _ number _ | push _ number _
  | attr _ number _ | verbatimString _ _ _ number => exact hcounted number

/-- Tokens are apart from each other. -/
theorem two_mul_length_runs_le {content : List UInt8} {tokens : List (List UInt8)}
    (h : Runs content tokens) : 2 * tokens.length ≤ content.length + 1 := by
  induction h with
  | nil => exact Nat.zero_le _
  | blank blank rest ih =>
      rw [List.length_cons]
      omega
  | last nonempty solid =>
      have hpos := List.length_pos_iff.mpr nonempty
      rw [List.length_singleton]
      omega
  | run nonempty solid blank rest ih =>
      have hpos := List.length_pos_iff.mpr nonempty
      rw [List.length_append, List.length_cons, List.length_cons]
      omega

theorem two_mul_children_le {f : Frame F} {w : List UInt8} (h : Wire f w) :
    2 * f.children.length ≤ w.length := by
  have haggregate : ∀ {tag : UInt8} {l v : List UInt8}, Pieces Wire f.children v →
      2 * f.children.length ≤ (tag :: (l ++ v)).length := by
    intro tag l v hv
    have hle := hv.mul_length_le fun _ _ => two_le_length_of_wire
    rw [List.length_cons, List.length_append]
    omega
  cases h with
  | array _ _ frames | map _ _ frames | set _ _ frames | push _ _ frames | attr _ _ frames =>
      exact haggregate frames
  | @inline tag text l _ line _ =>
      have hle := two_mul_length_runs_le (runs_inlineTokens (tag :: text))
      have hline : text.length < l.length := by
        obtain ⟨_, rfl | ⟨_, rfl⟩⟩ := line <;> simp
      have hchildren : (inlineFrame (tag :: text) : Frame F).children.length =
          (inlineTokens (tag :: text)).length := List.length_map ..
      rw [hchildren, List.length_cons]
      rw [List.length_cons] at hle
      omega
  | _ => exact Nat.zero_le _

/-- **A call takes two bytes** for each frame directly inside its frame. -/
theorem size_children_le {f : Frame F} {r r' : Reader} (h : decodeFrame.run r = (.ok f, r')) :
    r'.size + 2 * f.children.length ≤ r.size := by
  obtain ⟨b, e⟩ := r
  obtain ⟨w, rest, rfl, rfl, hwire⟩ := takes_decodeFrame b e f r' h
  have hle := two_mul_children_le hwire
  simp only [Reader.size, List.length_append]
  omega

end RalphDb
