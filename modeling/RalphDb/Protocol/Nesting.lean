import RalphDb.Protocol.Grammar

/-!
# RalphDb.Protocol.Nesting

How deep `decode_frame` calls itself, and how deep the frames are that it
accepts.

Nothing but the input bounds either: every level of arrays costs three bytes,
`*`, a digit and a line feed, and the decoder follows as far as they go
(`nesting_unbounded`).  The three bytes are also needed for a level, so a
stream of `n` bytes is read with at most `n / 3` calls below the outer one
(`nesting_le_length`).  `decodeFrameWithin depth` is the decoder on a stack for
`depth` nested calls.
-/

namespace RalphDb

open Base
open Base.Fallible

variable {F α : Type}

/-! ## Depth of a frame -/

/-- Levels of frames inside a frame. -/
def Frame.depth (f : Frame F) : Nat :=
  (f.children.attach.map fun c => c.1.depth + 1).foldr max 0
termination_by sizeOf f
decreasing_by exact sizeOf_lt_of_mem_children c.2

theorem foldr_max_le_iff {ns : List Nat} {n : Nat} : ns.foldr max 0 ≤ n ↔ ∀ m ∈ ns, m ≤ n := by
  induction ns with
  | nil => simp
  | cons m ms ih => simp [ih]

theorem Frame.depth_le_iff {f : Frame F} {n : Nat} :
    f.depth ≤ n ↔ ∀ c ∈ f.children, c.depth < n := by
  rw [depth, foldr_max_le_iff]
  simp only [List.mem_map, List.mem_attach, true_and, Subtype.exists, forall_exists_index]
  constructor
  · exact fun h c hc => h (c.depth + 1) c hc rfl
  · rintro h _ c hc rfl
    exact h c hc

theorem Frame.depth_eq_zero {f : Frame F} (h : f.children = []) : f.depth = 0 :=
  Nat.le_zero.mp (depth_le_iff.mpr (by simp [h]))

theorem depth_inlineFrame_le (line : List UInt8) : (inlineFrame line : Frame F).depth ≤ 1 := by
  rw [Frame.depth_le_iff]
  intro c hc
  obtain ⟨token, _, rfl⟩ := List.mem_map.mp hc
  have hzero : (.bulkString (some token) : Frame F).depth = 0 := Frame.depth_eq_zero rfl
  omega

/-! ## Every level costs three bytes -/

theorem Line.length_pos {s l : List UInt8} (h : Line s l) : 0 < l.length := by
  obtain ⟨_, rfl | ⟨_, rfl⟩⟩ := h <;> simp

/-- A line with a number has a digit and a line feed. -/
theorem NumberLine.two_le_length {n : Int} {l : List UInt8} (h : NumberLine n l) :
    2 ≤ l.length := by
  obtain ⟨text, hnum, hline⟩ := h
  have hne : utf8 text ≠ [] := by
    intro hc
    rw [utf8_eq_flatMap] at hc
    obtain ⟨c, cs, hcs⟩ := List.exists_cons_of_ne_nil hnum.toList_ne_nil
    rw [hcs, List.flatMap_cons, List.append_eq_nil_iff] at hc
    have hlen := c.utf8Size_pos
    rw [← String.length_utf8EncodeChar, hc.1] at hlen
    simp at hlen
  have hpos := List.length_pos_iff.mpr hne
  obtain ⟨_, rfl | ⟨_, rfl⟩⟩ := hline
  · simp
  · simp
    omega

theorem three_mul_depth_le [F64 F] (f : Frame F) {w : List UInt8} (h : Wire f w) :
    3 * f.depth ≤ w.length + 1 := by
  induction f using Frame.child_induction generalizing w with
  | h f ih =>
    -- an aggregate: a type byte, a length line, then the pieces of the children
    have haggregate : ∀ {tag : UInt8} {n : Int} {l v : List UInt8}, NumberLine n l →
        Pieces Wire f.children v → 3 * f.depth ≤ (tag :: (l ++ v)).length + 1 := by
      intro tag n l v hl hv
      have hlen := hl.two_le_length
      have hdepth : f.depth ≤ (v.length + 4) / 3 := by
        rw [Frame.depth_le_iff]
        intro c hc
        obtain ⟨u, hu, hle⟩ := hv.exists_of_mem hc
        have hc' := ih c hc hu
        omega
      simp only [List.length_cons, List.length_append]
      omega
    have hleaf := Frame.depth_eq_zero (f := f)
    cases h with
    | array cap number frames => exact haggregate number frames
    | map cap number frames => exact haggregate number frames
    | set cap number frames => exact haggregate number frames
    | push cap number frames => exact haggregate number frames
    | attr cap number frames => exact haggregate number frames
    | @inline tag text l untagged line tokens =>
        have hdepth := depth_inlineFrame_le (F := F) (tag :: text)
        have hpos := line.length_pos
        simp only [List.length_cons]
        omega
    | _ => simp [hleaf rfl]

/-! ## Every call below costs three bytes -/

/-- What follows a length line runs on at least two bytes less. -/
theorem agree_length {n : Nat} {f g : Int64 → Read α} (h : ∀ m, Agree Reader.size n (f m) (g m)) :
    Agree Reader.size (n + 2) (readLine >>= fun text => ofExcept (parseLength text) >>= f)
      (readLine >>= fun text => ofExcept (parseLength text) >>= g) := by
  rintro ⟨b, e⟩ hsize
  cases hline : readLine.run ⟨b, e⟩ with
  | mk res r =>
      cases res with
      | error err => rw [bind_run_error hline, bind_run_error hline]
      | ok text =>
          obtain ⟨l, rest, rfl, rfl, hl⟩ := takes_readLine b e text r hline
          rw [bind_run_ok hline, bind_run_ok hline]
          cases hparse : parseLength text with
          | error err => rfl
          | ok m =>
              have hlen := NumberLine.two_le_length ⟨text, parseLength_eq_ok.mp hparse, hl⟩
              simp only [Reader.size, List.length_append] at hsize
              exact h m ⟨rest, e⟩ (by simp only [Reader.size]; omega)

theorem agree_decodeAggregate_length {null : Option (Frame F)} {message : String}
    {build : List α → Frame F} {n : Nat} {entry entry' : Read α} (h : Shrinks Reader.size entry)
    (hag : Agree Reader.size n entry entry') :
    Agree Reader.size (n + 2) (decodeAggregate null message entry build)
      (decodeAggregate null message entry' build) := by
  refine agree_length fun m => ?_
  split
  · exact agree_refl _ _
  · exact agree_bind (shrinks_ofExcept _) (agree_refl _ _) fun _ =>
      agree_bind (shrinks_times h _) (agree_times h hag _) fun _ => agree_refl _ _

theorem agree_decodeFrameBody [F64 F] (n : Nat) (x y : Read (Frame F)) (hx : Shrinks Reader.size x)
    (hag : Agree Reader.size n x y) :
    Agree Reader.size (n + 3) (decodeFrameBody x) (decodeFrameBody y) :=
  agree_readByte_bind fun tag =>
    decodeTagged_cases x y tag
      (fun _ => agree_refl _ _) (agree_refl _ _) (agree_refl _ _) (fun _ => agree_refl _ _)
      (fun _ _ _ => agree_decodeAggregate_length hx hag)
      (fun _ _ _ => agree_decodeAggregate_length (shrinks_decodeEntry hx)
        (agree_decodeEntry hx hag))

/-- A stack for one call in three bytes is as good as an unbounded one. -/
theorem decodeFrameWithin_run [F64 F] {depth : Nat} {r : Reader} (h : r.size < 3 * depth) :
    (decodeFrameWithin depth : Read (Frame F)).run r = decodeFrame.run r := by
  have hshrinks := (guarded_decodeFrameBody (F := F)).shrinks
  rcases Nat.le_total depth (r.size + 1) with hle | hle
  · exact agree_unfold hshrinks agree_decodeFrameBody hle r h
  · exact (agree_unfold hshrinks agree_decodeFrameBody hle r (by omega)).symm

/-! ## No fixed bound -/

/-- `n` arrays of one element, around a null. -/
def tower : Nat → Frame F
  | 0 => .null
  | n + 1 => .array (some [tower n])

def towerBytes : Nat → List UInt8
  | 0 => [0x5F, 0x0A]
  | n + 1 => 0x2A :: ([0x31, 0x0A] ++ towerBytes n)

theorem numberLine_one : NumberLine 1 [0x31, 0x0A] :=
  ⟨"1", .bare rfl (parseDigits_eq_some.mp rfl), by decide, .inr ⟨by decide, by decide⟩⟩

theorem wire_tower [F64 F] (n : Nat) : Wire (tower n : Frame F) (towerBytes n) := by
  induction n with
  | zero => exact .null ⟨by decide, .inr ⟨by decide, rfl⟩⟩
  | succ n ih =>
      have hcap : [(tower n : Frame F)].length ≤ collectionLimit := by
        show 1 ≤ collectionLimit
        decide
      have hframes : Pieces Wire [(tower n : Frame F)] (towerBytes n ++ []) := .cons ih .nil
      rw [List.append_nil] at hframes
      exact .array hcap numberLine_one hframes

theorem le_depth_tower (n : Nat) : n ≤ (tower n : Frame F).depth := by
  induction n with
  | zero => exact Nat.zero_le _
  | succ n ih =>
      have hlt := Frame.depth_le_iff.mp (Nat.le_refl (tower (n + 1) : Frame F).depth)
      have hchild := hlt (tower n) (List.mem_singleton_self _)
      omega

/-- A stack for `n` calls does not reach the null. -/
theorem decodeFrameWithin_tower [F64 F] (n : Nat) (e : Ending) :
    ∃ r, (decodeFrameWithin n : Read (Frame F)).run ⟨towerBytes n, e⟩ =
      (.error depthExhausted, r) := by
  induction n with
  | zero => exact ⟨_, rfl⟩
  | succ n ih =>
      obtain ⟨r, hr⟩ := ih
      obtain ⟨text, hnum, hline⟩ := numberLine_one
      have hread := reads_line hline (towerBytes n) e
      have hlength : parseLength text = .ok 1 := parseLength_eq_ok.mpr hnum
      have hcount : ensureCollectionLength 1 = .ok 1 := by decide
      have hpos : ¬ (1 : Int64) < 0 := by decide
      have hdispatch : decodeTagged (decodeFrameWithin n : Read (Frame F)) 0x2A =
          decodeArray (decodeFrameWithin n) := rfl
      have hbody : (decodeFrameWithin (n + 1) : Read (Frame F)) =
          decodeFrameBody (decodeFrameWithin n) := rfl
      refine ⟨r, ?_⟩
      rw [hbody, decodeFrameBody, towerBytes, bind_run_ok (readByte_cons _ _ _), hdispatch,
        decodeArray, decodeAggregate, bind_run_ok hread, hlength, bind_run_ok (ofExcept_run _ _),
        if_neg hpos, hcount, bind_run_ok (ofExcept_run _ _), times,
        bind_run_error (bind_run_error hr _)]

/-- **No fixed depth is enough**: for every `D` there is a stream on which the
decoder calls itself more than `D` levels deep, and there is a frame of more
than `D` levels that it accepts. -/
theorem nesting_unbounded :
    (¬ ∃ D, ∀ b : List UInt8, (decodeFrameWithin (D + 1) : Read (Frame WholeDouble)).run ⟨b, .eof⟩ =
      decodeFrame.run ⟨b, .eof⟩) ∧
    ¬ ∃ D, ∀ (b : List UInt8) (f : Frame WholeDouble) (r : Reader),
      decodeFrame.run ⟨b, .eof⟩ = (.ok f, r) → f.depth ≤ D := by
  have haccept (n : Nat) := (reads_of_wire _ (wire_tower (F := WholeDouble) n)).whole .eof
  constructor
  · rintro ⟨D, h⟩
    obtain ⟨r, hr⟩ := decodeFrameWithin_tower (F := WholeDouble) (D + 1) .eof
    have hrun := h (towerBytes (D + 1))
    rw [hr, haccept] at hrun
    simp at hrun
  · rintro ⟨D, h⟩
    have hle := h (towerBytes (D + 1)) _ _ (haccept (D + 1))
    have hge := le_depth_tower (F := WholeDouble) (D + 1)
    omega

/-- **Nesting is bounded by the length of the input**: a stream of `n` bytes
is read with at most `n / 3` nested calls below the outer one, and a frame read
from it has at most `(n + 1) / 3` levels. -/
theorem nesting_le_length [F64 F] (b : List UInt8) (e : Ending) :
    (decodeFrameWithin (b.length / 3 + 1) : Read (Frame F)).run ⟨b, e⟩ = decodeFrame.run ⟨b, e⟩ ∧
      ∀ (f : Frame F) (r : Reader), decodeFrame.run ⟨b, e⟩ = (.ok f, r) →
        f.depth ≤ (b.length + 1) / 3 := by
  constructor
  · refine decodeFrameWithin_run ?_
    show b.length < _
    omega
  · intro f r h
    obtain ⟨w, rest, rfl, _, hw⟩ := takes_decodeFrame b e f r h
    have hdepth := three_mul_depth_le f hw
    rw [List.length_append]
    omega

theorem nesting_le_length_tower :
    (decodeFrameWithin ((towerBytes 2).length / 3 + 1) : Read (Frame WholeDouble)).run
        ⟨towerBytes 2, .eof⟩ = decodeFrame.run ⟨towerBytes 2, .eof⟩ ∧
      (tower 2 : Frame WholeDouble).depth ≤ ((towerBytes 2).length + 1) / 3 :=
  ⟨(nesting_le_length _ .eof).1,
    (nesting_le_length _ .eof).2 _ _ ((reads_of_wire _ (wire_tower 2)).whole .eof)⟩

end RalphDb
