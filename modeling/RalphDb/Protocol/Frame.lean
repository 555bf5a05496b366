import RalphDb.Base.Io
import RalphDb.Base.Text
import RalphDb.Base.Decimal

/-!
# RalphDb.Protocol.Frame

The frames of RESP2 and RESP3, and recursion over them.

A frame is a tree: arrays, sets and pushes hold frames, maps and attributes
hold pairs of them.  `Frame.children` lists what a frame holds directly, in
wire order, so that a property of frames is proved by one induction on the
children (`Frame.child_induction`) and a property of every frame inside a
frame is one predicate (`Frame.Everywhere`).

The `f64` of a double is opaque here: a type `F` with the printing and parsing
of the standard library (`F64`).
-/

namespace RalphDb

open Base

/-- The largest bulk payload, 32 MiB. -/
def maxBulkSize : Int64 := 32 * 1024 * 1024

/-- The largest collection. -/
def maxCollectionSize : Int64 := 1000000

/-- The caps, as natural numbers. -/
def bulkLimit : Nat := maxBulkSize.toNatClampNeg
def collectionLimit : Nat := maxCollectionSize.toNatClampNeg

inductive ProtocolVersion
  | resp2
  | resp3
  deriving DecidableEq, Repr

instance : Inhabited ProtocolVersion := ⟨.resp2⟩

/-- The floating-point numbers of the standard library: `f64::from_str`,
`f64::to_string` and `f64::is_nan`. -/
class F64 (F : Type) where
  fromStr : String → Option F
  toStr : F → String
  isNan : F → Bool

/-- A double that prints as one line, which reads back as the double. -/
def F64.PrintsBack {F : Type} [F64 F] (x : F) : Prop :=
  F64.fromStr (F64.toStr x) = some x ∧ '\n' ∉ (F64.toStr x).toList

/-- What the standard library documents of printing an `f64`: every one but
NaN reads back. -/
class LawfulF64 (F : Type) [F64 F] : Prop where
  printsBack : ∀ x : F, F64.isNan x = false → F64.PrintsBack x

/-- The whole doubles up to `2 ^ 53`, which print and read as integers. -/
structure WholeDouble where
  value : Int
  lower : -(2 ^ 53) ≤ value
  upper : value ≤ 2 ^ 53

instance : F64 WholeDouble where
  fromStr s := (parseInt (-(2 ^ 53)) (2 ^ 53) s).bind fun n =>
    if h : -(2 ^ 53) ≤ n ∧ n ≤ 2 ^ 53 then some ⟨n, h.1, h.2⟩ else none
  toStr x := toString x.value
  isNan _ := false

instance : LawfulF64 WholeDouble where
  printsBack x _ := by
    refine ⟨?_, lf_not_mem_toString_int x.value⟩
    show (parseInt _ _ (toString x.value)).bind _ = some x
    rw [parseInt_toString x.lower x.upper, Option.bind_some, dif_pos ⟨x.lower, x.upper⟩]

/-- A protocol frame.  (`attr` is `Attribute`.) -/
inductive Frame (F : Type) where
  | simpleString (value : String)
  | error (value : String)
  | integer (value : Int64)
  | bulkString (value : Option (List UInt8))
  | array (elements : Option (List (Frame F)))
  | null
  | boolean (value : Bool)
  | double (value : F)
  | map (entries : Option (List (Frame F × Frame F)))
  | set (elements : Option (List (Frame F)))
  | push (elements : List (Frame F))
  | attr (attributes : List (Frame F × Frame F))
  | verbatimString (format : String) (payload : List UInt8)
  | bigNumber (value : String)
  deriving Repr

namespace Frame

variable {F : Type}

/-- The two frames of each entry, in wire order. -/
def flatten (entries : List (Frame F × Frame F)) : List (Frame F) :=
  entries.flatMap fun entry => [entry.1, entry.2]

/-- The frames directly inside a frame, in wire order. -/
def children : Frame F → List (Frame F)
  | .array (some elements) => elements
  | .set (some elements) => elements
  | .push elements => elements
  | .map (some entries) => flatten entries
  | .attr entries => flatten entries
  | _ => []

@[simp] theorem flatten_nil : flatten ([] : List (Frame F × Frame F)) = [] := rfl

@[simp] theorem flatten_cons (entry : Frame F × Frame F) (entries : List (Frame F × Frame F)) :
    flatten (entry :: entries) = entry.1 :: entry.2 :: flatten entries := rfl

theorem sizeOf_lt_of_mem_flatten {f : Frame F} {entries : List (Frame F × Frame F)}
    (h : f ∈ flatten entries) : sizeOf f < sizeOf entries := by
  induction entries with
  | nil => simp at h
  | cons entry entries ih =>
      obtain ⟨k, v⟩ := entry
      simp only [flatten_cons, List.mem_cons] at h
      simp only [List.cons.sizeOf_spec, Prod.mk.sizeOf_spec]
      obtain h | h | h := h
      · rw [h]; omega
      · rw [h]; omega
      · have := ih h; omega

theorem sizeOf_lt_of_mem_children {c f : Frame F} (h : c ∈ f.children) : sizeOf c < sizeOf f := by
  cases f with
  | array elements =>
      cases elements with
      | none => simp [children] at h
      | some elements =>
          have hlt : sizeOf c < sizeOf elements := List.sizeOf_lt_of_mem h
          simp only [array.sizeOf_spec, Option.some.sizeOf_spec]
          omega
  | set elements =>
      cases elements with
      | none => simp [children] at h
      | some elements =>
          have hlt : sizeOf c < sizeOf elements := List.sizeOf_lt_of_mem h
          simp only [set.sizeOf_spec, Option.some.sizeOf_spec]
          omega
  | push elements =>
      have hlt : sizeOf c < sizeOf elements := List.sizeOf_lt_of_mem h
      simp only [push.sizeOf_spec]
      omega
  | map entries =>
      cases entries with
      | none => simp [children] at h
      | some entries =>
          have hlt : sizeOf c < sizeOf entries := sizeOf_lt_of_mem_flatten h
          simp only [map.sizeOf_spec, Option.some.sizeOf_spec]
          omega
  | attr entries =>
      have hlt : sizeOf c < sizeOf entries := sizeOf_lt_of_mem_flatten h
      simp only [attr.sizeOf_spec]
      omega
  | _ => simp [children] at h

/-- **Induction over frames**: a property that a frame inherits from its
children holds of every frame. -/
theorem child_induction {p : Frame F → Prop} (h : ∀ f, (∀ c ∈ f.children, p c) → p f)
    (f : Frame F) : p f :=
  h f fun c _ => child_induction h c
termination_by sizeOf f
decreasing_by exact sizeOf_lt_of_mem_children ‹_›

/-- `p` holds of the frame and of every frame inside it, at any depth. -/
inductive Everywhere (p : Frame F → Prop) : Frame F → Prop
  | mk {f : Frame F} (here : p f) (inside : ∀ c ∈ f.children, Everywhere p c) : Everywhere p f

theorem everywhere_iff {p : Frame F → Prop} {f : Frame F} :
    f.Everywhere p ↔ p f ∧ ∀ c ∈ f.children, c.Everywhere p :=
  ⟨fun ⟨here, inside⟩ => ⟨here, inside⟩, fun h => ⟨h.1, h.2⟩⟩

theorem Everywhere.here {p : Frame F → Prop} {f : Frame F} (h : f.Everywhere p) : p f :=
  (everywhere_iff.mp h).1

theorem Everywhere.child {p : Frame F → Prop} {f c : Frame F} (h : f.Everywhere p)
    (hc : c ∈ f.children) : c.Everywhere p := (everywhere_iff.mp h).2 c hc

/-- A frame that holds no frames has a property everywhere when it has it. -/
theorem Everywhere.leaf {p : Frame F → Prop} {f : Frame F} (hf : f.children = []) (h : p f) :
    f.Everywhere p := ⟨h, fun c hc => absurd hc (by rw [hf]; exact List.not_mem_nil)⟩

theorem Everywhere.imp {p q : Frame F → Prop} (hpq : ∀ f, p f → q f) {f : Frame F}
    (h : f.Everywhere p) : f.Everywhere q := by
  induction f using child_induction with
  | h f ih => exact ⟨hpq f h.here, fun c hc => ih c hc (h.child hc)⟩

end Frame

end RalphDb
