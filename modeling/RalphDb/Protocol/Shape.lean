import RalphDb.Protocol.Reads

/-!
# RalphDb.Protocol.Shape

What `decode_frame` did when it accepted.

An accepting run is one of three things (`Shape`): the frame is one line or one
payload; or its first byte is no type byte and it is an inline command; or it
is an aggregate, whose header says how many frames follow and which has called
`decode_frame` that many times.  `Calls r s` collects the calls of a run on
`r`, at any depth: `s` is the reader that one of them was made on.
-/

namespace RalphDb

open Base
open Base.Fallible

variable {F : Type}

/-! ## First bytes -/

/-- The bytes that name a frame type. -/
def typeBytes : List UInt8 :=
  [0x2B, 0x2D, 0x3A, 0x24, 0x2A, 0x23, 0x2C, 0x5F, 0x25, 0x7E, 0x3E, 0x7C, 0x3D, 0x28]

/-- Frames an entry of an aggregate takes; only aggregates have entries. -/
def entryWidth (tag : UInt8) : Option Nat :=
  if tag = 0x2A ∨ tag = 0x7E ∨ tag = 0x3E then some 1
  else if tag = 0x25 ∨ tag = 0x7C then some 2
  else none

theorem mem_typeBytes_of_entryWidth {tag : UInt8} {width : Nat} (h : entryWidth tag = some width) :
    tag ∈ typeBytes := by
  unfold entryWidth at h
  split at h
  · next htag => obtain rfl | rfl | rfl := htag <;> decide
  · split at h
    · next htag => obtain rfl | rfl := htag <;> decide
    · contradiction

/-- The reader stands before an aggregate of `n` frames, which start at
`body`. -/
def Opens (r : Reader) (n : Nat) (body : Reader) : Prop :=
  match r.unread with
  | [] => False
  | tag :: bs => ∃ width line length count, entryWidth tag = some width ∧
      readLine.run ⟨bs, r.ending⟩ = (.ok line, body) ∧ parseLength line = .ok length ∧
      ensureCollectionLength length = .ok count ∧ n = width * count

/-- The reader stands before the inline command `line`. -/
def InlineLine (r : Reader) (line : List UInt8) : Prop :=
  match r.unread with
  | [] => False
  | tag :: bs => tag ∉ typeBytes ∧ ∃ remaining rest,
      readLineBytes.run ⟨bs, r.ending⟩ = (.ok remaining, rest) ∧ line = tag :: remaining

/-- What the reader stands before is determined by it. -/
theorem Opens.unique {r body body' : Reader} {n n' : Nat} (h : Opens r n body)
    (h' : Opens r n' body') : n = n' ∧ body = body' := by
  obtain ⟨_ | ⟨tag, bs⟩, e⟩ := r
  · exact h.elim
  · obtain ⟨width, line, length, count, hw, hline, hlength, hcount, hn⟩ := h
    obtain ⟨width', line', length', count', hw', hline', hlength', hcount', hn'⟩ := h'
    simp only [hw, Option.some.injEq] at hw'
    simp only [hline, Prod.mk.injEq, Except.ok.injEq] at hline'
    obtain ⟨hl, hbody⟩ := hline'
    simp only [← hl, hlength, Except.ok.injEq] at hlength'
    simp only [← hlength', hcount, Except.ok.injEq] at hcount'
    exact ⟨by rw [hn, hn', hw', hcount'], hbody⟩

theorem InlineLine.unique {r : Reader} {line line' : List UInt8} (h : InlineLine r line)
    (h' : InlineLine r line') : line = line' := by
  obtain ⟨_ | ⟨tag, bs⟩, e⟩ := r
  · exact h.elim
  · obtain ⟨_, remaining, rest, hread, hline⟩ := h
    obtain ⟨_, remaining', rest', hread', hline'⟩ := h'
    simp only [hread, Prod.mk.injEq, Except.ok.injEq] at hread'
    rw [hline, hline', hread'.1]

theorem InlineLine.not_opens {r body : Reader} {line : List UInt8} {n : Nat}
    (h : InlineLine r line) : ¬ Opens r n body := by
  obtain ⟨_ | ⟨tag, bs⟩, e⟩ := r
  · exact h.elim
  · exact fun ⟨_, _, _, _, hw, _⟩ => h.1 (mem_typeBytes_of_entryWidth hw)

/-! ## Calls -/

/-- `decode_frame` on `r` calls itself on `s`, at some depth: an aggregate
calls it on what its first `k` frames have left, for each `k` below their
number. -/
inductive Calls (F : Type) [F64 F] : Reader → Reader → Prop
  | self (r : Reader) : Calls F r r
  | element {r body s t : Reader} {n k : Nat} {items : List (Frame F)} (opens : Opens r n body)
      (lt : k < n) (before : (times k decodeFrame).run body = (.ok items, s))
      (inside : Calls F s t) : Calls F r t

/-! ## Accepting runs -/

/-- The frame of an inline command. -/
def inlineFrame (line : List UInt8) : Frame F :=
  .array (some ((inlineTokens line).map fun token => .bulkString (some token)))

/-- The caps on one node: its payload and its entries. -/
def Frame.Capped : Frame F → Prop
  | .bulkString (some value) => value.length ≤ bulkLimit
  | .verbatimString _ payload => payload.length ≤ bulkLimit
  | .array (some elements) => elements.length ≤ collectionLimit
  | .map (some entries) => entries.length ≤ collectionLimit
  | .set (some elements) => elements.length ≤ collectionLimit
  | .push elements => elements.length ≤ collectionLimit
  | .attr attributes => attributes.length ≤ collectionLimit
  | _ => True

/-- What an accepting run on `r` has done to read `f`. -/
inductive Shape [F64 F] (r : Reader) (f : Frame F) (r' : Reader) : Prop
  | leaf (childless : f.children = []) (capped : f.Capped) (closed : ∀ n body, ¬ Opens r n body)
      (tagged : ∀ line, ¬ InlineLine r line)
  | inline (line : List UInt8) (before : InlineLine r line) (frame : f = inlineFrame line)
  | aggregate (body : Reader) (opens : Opens r f.children.length body)
      (items : (times f.children.length decodeFrame).run body = (.ok f.children, r'))
      (capped : f.Capped)

/-- A checked length is the number it names, within its cap. -/
theorem ensureNonNegative_ok_iff {length max : Int64} (hmax : 0 ≤ max) {kind : String} {n : Nat} :
    ensureNonNegative length max kind = .ok n ↔ length.toInt = n ∧ n ≤ max.toNatClampNeg := by
  have hlen : length.toNatClampNeg = length.toInt.toNat := rfl
  have hcap : max.toNatClampNeg = max.toInt.toNat := rfl
  have hmax' : 0 ≤ max.toInt := Int64.le_iff_toInt_le.mp hmax
  unfold ensureNonNegative
  by_cases hneg : length < 0
  · have hneg' : length.toInt < 0 := Int64.lt_iff_toInt_lt.mp hneg
    simp [hneg]
    omega
  · have hpos : ¬ length.toInt < 0 := fun h => hneg (Int64.lt_iff_toInt_lt.mpr h)
    by_cases hgt : length > max
    · have hgt' : max.toInt < length.toInt := Int64.lt_iff_toInt_lt.mp hgt
      simp [hneg, hgt]
      omega
    · have hle : ¬ max.toInt < length.toInt := fun h => hgt (Int64.lt_iff_toInt_lt.mpr h)
      simp [hneg, hgt]
      omega

theorem ensureNonNegative_eq_ok {length max : Int64} (hmax : 0 ≤ max) {kind : String} {n : Nat}
    (h : ensureNonNegative length max kind = .ok n) : ¬ length < 0 ∧ n ≤ max.toNatClampNeg := by
  obtain ⟨hn, hcap⟩ := (ensureNonNegative_ok_iff hmax).mp h
  rw [Int64.lt_iff_toInt_lt, hn]
  exact ⟨Int.not_lt.mpr (Int.natCast_nonneg n), hcap⟩

theorem length_of_readPayload {length : Nat} {message : String} {r r' : Reader}
    {buffer : List UInt8} (h : (readPayload length message).run r = (.ok buffer, r')) :
    buffer.length = length := by
  obtain ⟨buffer', r₁, hread, h⟩ := bind_eq_ok.mp h
  obtain ⟨crlf, r₂, _, h⟩ := bind_eq_ok.mp h
  split at h
  · have hbuffer : buffer' = buffer := by simpa using (Prod.mk.inj h).1
    rw [← hbuffer]
    unfold readExact at hread
    simp only at hread
    split at hread
    · next hle =>
        have htake : r.unread.take length = buffer' := by simpa using (Prod.mk.inj hread).1
        rw [← htake, List.length_take, Nat.min_eq_left hle]
    · simp at hread
  · simp at h

/-! ## The decoders of one node -/

/-- A childless frame within its cap. -/
def Frame.Leaf (f : Frame F) : Prop := f.children = [] ∧ f.Capped

theorem leaf_of_decodeLine {frameOf : String → Except IoError (Frame F)} {r r' : Reader}
    {f : Frame F} (hf : ∀ line f, frameOf line = .ok f → f.Leaf)
    (h : (decodeLine frameOf).run r = (.ok f, r')) : f.Leaf := by
  obtain ⟨line, r₁, _, h⟩ := bind_eq_ok.mp h
  exact hf line f (ofExcept_eq_ok.mp h).1

theorem leaf_of_ok {f g : Frame F} (h : (Except.ok g : Except IoError (Frame F)) = .ok f)
    (hg : g.Leaf) : f.Leaf := Except.ok.inj h ▸ hg

theorem leaf_of_integerOfLine (line : String) (f : Frame F) (h : integerOfLine line = .ok f) :
    f.Leaf := by
  unfold integerOfLine at h
  split at h
  · exact leaf_of_ok h ⟨rfl, trivial⟩
  · contradiction

theorem leaf_of_booleanOfLine (line : String) (f : Frame F) (h : booleanOfLine line = .ok f) :
    f.Leaf := by
  unfold booleanOfLine at h
  split at h
  · exact leaf_of_ok h ⟨rfl, trivial⟩
  · exact leaf_of_ok h ⟨rfl, trivial⟩
  · contradiction

theorem leaf_of_doubleOfLine [F64 F] (line : String) (f : Frame F) (h : doubleOfLine line = .ok f) :
    f.Leaf := by
  unfold doubleOfLine at h
  split at h
  · exact leaf_of_ok h ⟨rfl, trivial⟩
  · contradiction

theorem leaf_of_nullOfLine (line : String) (f : Frame F) (h : nullOfLine line = .ok f) :
    f.Leaf := by
  unfold nullOfLine at h
  split at h
  · exact leaf_of_ok h ⟨rfl, trivial⟩
  · contradiction

theorem leaf_of_bignumOfLine (line : String) (f : Frame F) (h : bignumOfLine line = .ok f) :
    f.Leaf := by
  unfold bignumOfLine at h
  split at h
  · contradiction
  · exact leaf_of_ok h ⟨rfl, trivial⟩

theorem leaf_of_decodeBulk {r r' : Reader} {f : Frame F} (h : decodeBulk.run r = (.ok f, r')) :
    f.Leaf := by
  obtain ⟨line, r₁, _, h⟩ := bind_eq_ok.mp h
  obtain ⟨length, r₂, _, h⟩ := bind_eq_ok.mp h
  split at h
  · have hf : .bulkString none = f := by simpa using (Prod.mk.inj h).1
    rw [← hf]
    exact ⟨rfl, trivial⟩
  · split at h
    · simp at h
    · obtain ⟨n, r₃, hn, h⟩ := bind_eq_ok.mp h
      obtain ⟨buffer, r₄, hbuffer, h⟩ := bind_eq_ok.mp h
      have hf : .bulkString (some buffer) = f := by simpa using (Prod.mk.inj h).1
      have hcap : n ≤ bulkLimit := (ensureNonNegative_eq_ok (by decide) (ofExcept_eq_ok.mp hn).1).2
      rw [← hf]
      refine ⟨rfl, ?_⟩
      show buffer.length ≤ bulkLimit
      rw [length_of_readPayload hbuffer]
      exact hcap

theorem leaf_of_splitVerbatim {buffer : List UInt8} {f : Frame F} (hcap : buffer.length ≤ bulkLimit)
    (h : splitVerbatim buffer = .ok f) : f.Leaf := by
  unfold splitVerbatim at h
  split at h
  · contradiction
  · split at h
    · contradiction
    · split at h
      · rw [← Except.ok.inj h]
        refine ⟨rfl, ?_⟩
        show (buffer.drop 4).length ≤ bulkLimit
        rw [List.length_drop]
        omega
      · contradiction

theorem leaf_of_decodeVerbatim {r r' : Reader} {f : Frame F}
    (h : decodeVerbatim.run r = (.ok f, r')) : f.Leaf := by
  obtain ⟨line, r₁, _, h⟩ := bind_eq_ok.mp h
  obtain ⟨length, r₂, _, h⟩ := bind_eq_ok.mp h
  split at h
  · simp at h
  · obtain ⟨n, r₃, hn, h⟩ := bind_eq_ok.mp h
    split at h
    · simp at h
    · obtain ⟨buffer, r₄, hbuffer, h⟩ := bind_eq_ok.mp h
      have hcap : n ≤ bulkLimit := (ensureNonNegative_eq_ok (by decide) (ofExcept_eq_ok.mp hn).1).2
      rw [← length_of_readPayload hbuffer] at hcap
      exact leaf_of_splitVerbatim hcap (ofExcept_eq_ok.mp h).1

/-- An aggregate that is accepted is its null, or has read as many entries as
its length line says. -/
theorem decodeAggregate_eq_ok {α : Type} {null : Option (Frame F)} {message : String}
    {entry : Read α} {build : List α → Frame F} {r r' : Reader} {f : Frame F}
    (h : (decodeAggregate null message entry build).run r = (.ok f, r')) :
    ∃ line length body, readLine.run r = (.ok line, body) ∧ parseLength line = .ok length ∧
      ((length < 0 ∧ null = some f) ∨ ∃ count items, ensureCollectionLength length = .ok count ∧
        (times count entry).run body = (.ok items, r') ∧ f = build items) := by
  obtain ⟨line, body, hline, h⟩ := bind_eq_ok.mp h
  obtain ⟨length, r₂, hparse, h⟩ := bind_eq_ok.mp h
  obtain ⟨hlength, rfl⟩ := ofExcept_eq_ok.mp hparse
  refine ⟨line, length, body, hline, hlength, ?_⟩
  split at h
  · next hneg =>
      cases null with
      | none => simp at h
      | some frame =>
          simp only at h
          split at h
          · have hf : frame = f := by simpa using (Prod.mk.inj h).1
            exact .inl ⟨hneg, by rw [hf]⟩
          · simp at h
  · obtain ⟨count, r₃, hensure, h⟩ := bind_eq_ok.mp h
    obtain ⟨hcount, rfl⟩ := ofExcept_eq_ok.mp hensure
    obtain ⟨items, r₄, hitems, h⟩ := bind_eq_ok.mp h
    have hf : build items = f ∧ r₄ = r' := by simpa using h
    exact .inr ⟨count, items, hcount, by rw [← hf.2]; exact hitems, hf.1.symm⟩

/-- Entries are two frames each. -/
theorem times_decodeEntry {x : Read (Frame F)} {n : Nat} {r r' : Reader}
    {entries : List (Frame F × Frame F)}
    (h : (times n (decodeEntry x)).run r = (.ok entries, r')) :
    (times (2 * n) x).run r = (.ok (Frame.flatten entries), r') := by
  induction n generalizing r entries with
  | zero =>
      simp only [times, pure_run, Prod.mk.injEq, Except.ok.injEq] at h
      rw [← h.1, ← h.2]
      rfl
  | succ n ih =>
      simp only [times, decodeEntry, bind_eq_ok, pure_run, Prod.mk.injEq, Except.ok.injEq] at h
      obtain ⟨entry, r₁, hentry, tail, r₄, htail, rfl, rfl⟩ := h
      obtain ⟨key, r₂, hkey, value, r₃, hvalue, rfl, rfl⟩ := hentry
      show (times (2 * n + 1 + 1) x).run r = _
      rw [times, bind_run_ok hkey, times, bind_assoc, bind_run_ok hvalue, bind_assoc,
        bind_run_ok (ih htail)]
      rfl

theorem frame_of_decodeInlineFrame {tag : UInt8} {bs : List UInt8} {e : Ending} {r' : Reader}
    {f : Frame F} (htag : tag ∉ typeBytes)
    (h : (decodeInlineFrame tag).run ⟨bs, e⟩ = (.ok f, r')) :
    ∃ line, InlineLine ⟨tag :: bs, e⟩ line ∧ f = inlineFrame line := by
  obtain ⟨remaining, rest, hread, h⟩ := bind_eq_ok.mp h
  refine ⟨tag :: remaining, ⟨htag, remaining, rest, hread, rfl⟩, ?_⟩
  simp only at h
  split at h
  · simp at h
  · simp only [pure_run, Prod.mk.injEq, Except.ok.injEq] at h
    exact h.1.symm

/-! ## The dispatch -/

theorem leaf_null {nil : Frame F} (h : nil.Leaf) : ∀ f, some nil = some f → f.Leaf :=
  fun _ hf => Option.some.inj hf ▸ h

section Shapes

variable [F64 F] {tag : UInt8} {bs : List UInt8} {e : Ending} {r' : Reader} {f : Frame F}

theorem shape_leaf (htag : tag ∈ typeBytes) (hwidth : entryWidth tag = none) (hf : f.Leaf) :
    Shape ⟨tag :: bs, e⟩ f r' := by
  have hclosed : ∀ n body, ¬ Opens ⟨tag :: bs, e⟩ n body := by
    intro n body h
    obtain ⟨width, _, _, _, hw, _⟩ := h
    rw [hwidth] at hw
    contradiction
  exact .leaf hf.1 hf.2 hclosed fun line h => h.1 htag

/-- An aggregate whose entries are `width` frames each. -/
theorem shape_aggregate {α : Type} {width : Nat} {null : Option (Frame F)} {message : String}
    {entry : Read α} {build : List α → Frame F}
    (h : (decodeAggregate null message entry build).run ⟨bs, e⟩ = (.ok f, r'))
    (hwidth : entryWidth tag = some width) (hnull : ∀ f, null = some f → f.Leaf)
    (hbuild : ∀ items : List α, items.length ≤ collectionLimit → (build items).Capped)
    (htimes : ∀ count items r, (times count entry).run r = (.ok items, r') →
      (times (width * count) decodeFrame).run r = (.ok (build items).children, r')) :
    Shape ⟨tag :: bs, e⟩ f r' := by
  obtain ⟨line, length, body, hline, hlength, hcase⟩ := decodeAggregate_eq_ok h
  obtain ⟨hneg, hf⟩ | ⟨count, items, hcount, hitems, rfl⟩ := hcase
  · -- the null: a negative length opens nothing
    have hclosed : ∀ n body', ¬ Opens ⟨tag :: bs, e⟩ n body' := by
      intro n body' hopens
      obtain ⟨_, line', length', count', _, hline', hlength', hcount', _⟩ := hopens
      simp only [hline, Prod.mk.injEq, Except.ok.injEq] at hline'
      simp only [← hline'.1, hlength, Except.ok.injEq] at hlength'
      rw [← hlength'] at hcount'
      exact (ensureNonNegative_eq_ok (by decide) hcount').1 hneg
    obtain ⟨hchildren, hcapped⟩ := hnull f hf
    exact .leaf hchildren hcapped hclosed fun _ h => h.1 (mem_typeBytes_of_entryWidth hwidth)
  · have hrun := htimes count items body hitems
    have hlen : (build items).children.length = width * count := length_of_times_run hrun
    have hcap : items.length ≤ collectionLimit := by
      rw [length_of_times_run hitems]
      exact (ensureNonNegative_eq_ok (by decide) hcount).2
    refine .aggregate body ?_ (by rw [hlen]; exact hrun) (hbuild items hcap)
    exact ⟨width, line, length, count, hwidth, hline, hlength, hcount, hlen⟩

/-- **What an accepting run has done.** -/
theorem shape_of_decodeFrame {r : Reader} (h : decodeFrame.run r = (.ok f, r')) :
    Shape r f r' := by
  rw [decodeFrame_eq] at h
  obtain ⟨_ | ⟨tag, bs⟩, e⟩ := r
  · simp [decodeFrameBody, bind_run] at h
  · rw [decodeFrameBody, bind_run_ok (readByte_cons tag bs e)] at h
    have hframes : ∀ count items r, (times count decodeFrame).run r = (.ok items, r') →
        (times (1 * count) decodeFrame).run r = (.ok (items : List (Frame F)), r') := by
      intro count items r h
      rw [Nat.one_mul]
      exact h
    unfold decodeTagged at h
    split at h
    · exact shape_leaf (by decide) (by decide) (leaf_of_decodeLine (fun _ _ hf => by
        exact leaf_of_ok hf ⟨rfl, trivial⟩) h)
    · exact shape_leaf (by decide) (by decide) (leaf_of_decodeLine (fun _ _ hf => by
        exact leaf_of_ok hf ⟨rfl, trivial⟩) h)
    · exact shape_leaf (by decide) (by decide) (leaf_of_decodeLine leaf_of_integerOfLine h)
    · exact shape_leaf (by decide) (by decide) (leaf_of_decodeBulk h)
    · exact shape_aggregate h (by decide) (leaf_null ⟨rfl, trivial⟩) (fun _ h => h) hframes
    · exact shape_leaf (by decide) (by decide) (leaf_of_decodeLine leaf_of_booleanOfLine h)
    · exact shape_leaf (by decide) (by decide) (leaf_of_decodeLine leaf_of_doubleOfLine h)
    · exact shape_leaf (by decide) (by decide) (leaf_of_decodeLine leaf_of_nullOfLine h)
    · exact shape_aggregate h (by decide) (leaf_null ⟨rfl, trivial⟩) (fun _ h => h)
        (fun _ _ _ => times_decodeEntry)
    · exact shape_aggregate h (by decide) (leaf_null ⟨rfl, trivial⟩) (fun _ h => h) hframes
    · exact shape_aggregate h (by decide) (fun _ hf => by contradiction) (fun _ h => h) hframes
    · exact shape_aggregate h (by decide) (fun _ hf => by contradiction) (fun _ h => h)
        (fun _ _ _ => times_decodeEntry)
    · exact shape_leaf (by decide) (by decide) (leaf_of_decodeVerbatim h)
    · exact shape_leaf (by decide) (by decide) (leaf_of_decodeLine leaf_of_bignumOfLine h)
    · next h0 h1 h2 h3 h4 h5 h6 h7 h8 h9 h10 h11 h12 h13 =>
        have htag : tag ∉ typeBytes := by
          simp only [typeBytes, List.mem_cons, List.not_mem_nil, or_false, not_or]
          exact ⟨h0, h1, h2, h3, h4, h5, h6, h7, h8, h9, h10, h11, h12, h13⟩
        obtain ⟨line, hline, hf⟩ := frame_of_decodeInlineFrame htag h
        exact .inline line hline hf

end Shapes

end RalphDb
