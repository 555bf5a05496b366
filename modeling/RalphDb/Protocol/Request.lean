import RalphDb.Protocol.Spelling
import Mathlib.Data.List.TakeWhile

/-!
# RalphDb.Protocol.Request

Requests: arrays of bulk strings, as clients send commands.

Both versions encode a request alike.  Within the caps it is read back, and a
strict prefix of its bytes is not (`reads_request`, `prefix_request`).  With an
argument over the bulk cap the decoder stops right after the length line of the
first such argument; the payload is left on the stream (`request_oversized`).
-/

namespace RalphDb

open Base
open Base.Fallible

variable {F : Type}

/-- The request with these arguments, the command name first. -/
def request (args : List (List UInt8)) : Frame F :=
  .array (some (args.map fun arg => .bulkString (some arg)))

/-- The bytes of a bulk string. -/
def bulkBytes (value : List UInt8) : List UInt8 := 0x24 :: countedBytes value

def requestBytes (args : List (List UInt8)) : List UInt8 :=
  lineBytes 0x2A (toString args.length) ++ args.flatMap bulkBytes

/-- The arguments are within the caps. -/
structure WithinCaps (args : List (List UInt8)) : Prop where
  count : args.length ≤ collectionLimit
  sizes : ∀ arg ∈ args, arg.length ≤ bulkLimit

section Requests

variable [F64 F]

theorem writes_bulks (args : List (List UInt8)) (version : ProtocolVersion) :
    Writes (encodeFrames (args.map fun arg => (.bulkString (some arg) : Frame F)) version)
      (args.flatMap bulkBytes) := by
  induction args with
  | nil => exact writes_pure
  | cons arg args ih => cases version <;> exact writes_bind (writes_writeBulk arg) ih

/-- Both versions encode a request alike. -/
theorem writes_request (args : List (List UInt8)) (version : ProtocolVersion) :
    Writes (encodeFrame (request args : Frame F) version) (requestBytes args) := by
  have hline := writes_writeLine "*" 0x2A (by decide) (toString args.length)
  rw [← List.length_map (fun arg => (.bulkString (some arg) : Frame F))] at hline
  rw [requestBytes, ← List.length_map (fun arg => (.bulkString (some arg) : Frame F))]
  cases version <;> exact writes_bind hline (writes_bulks args _)

theorem wireSafe_bulks {args : List (List UInt8)} (h : ∀ arg ∈ args, arg.length ≤ bulkLimit) :
    ∀ c ∈ args.map fun arg => (.bulkString (some arg) : Frame F), c.Everywhere Frame.WireSafe := by
  intro c hc
  obtain ⟨arg, harg, rfl⟩ := List.mem_map.mp hc
  exact .leaf rfl (h arg harg)

theorem wireSafe_request {args : List (List UInt8)} (h : WithinCaps args) :
    (request args : Frame F).Everywhere Frame.WireSafe := by
  refine ⟨?_, wireSafe_bulks h.sizes⟩
  show (args.map _).length ≤ collectionLimit
  rw [List.length_map]
  exact h.count

/-- A request within the caps is read back. -/
theorem reads_request {args : List (List UInt8)} (h : WithinCaps args) :
    Reads (decodeFrame : Read (Frame F)) (requestBytes args) (request args) := by
  obtain ⟨w, hw, hr⟩ := roundTrips_of_wireSafe (request args : Frame F) (wireSafe_request h)
  rw [hw.unique (writes_request args .resp3)] at hr
  exact hr

/-- A strict prefix of a request is refused, and nothing of it is left. -/
theorem prefix_request {args : List (List UInt8)} (h : WithinCaps args) {p : List UInt8}
    (hp : p <+: requestBytes args) (hne : p ≠ requestBytes args) (e : Ending) :
    ∃ err, (decodeFrame : Read (Frame F)).run ⟨p, e⟩ = (.error err, ⟨[], e⟩) := by
  have hread := (reads_request (F := F) h).whole e
  obtain ⟨w, rest, hbytes, hrest, _, hprefix⟩ := selfDelimiting_decodeFrame _ _ _ _ hread
  obtain rfl : rest = [] := (congrArg Reader.unread hrest).symm
  rw [List.append_nil] at hbytes
  rw [hbytes] at hp hne
  exact hprefix p hp hne e

end Requests

/-! ## Arguments over the cap -/

theorem ensureBulkLength_oversized {n : Nat} (h : bulkLimit < n) (hn : n < 2 ^ 63) :
    ensureBulkLength (Int64.ofNat n) =
      .error (invalidData "bulk length exceeds maximum allowed size") := by
  have hcap : (maxBulkSize.toInt : Int) < n := by
    have hlimit : (bulkLimit : Int) = maxBulkSize.toInt := by decide
    omega
  have hgt : Int64.ofNat n > maxBulkSize := by
    rw [gt_iff_lt, Int64.lt_iff_toInt_lt, Int64.toInt_ofNat_of_lt hn]
    exact hcap
  rw [ensureBulkLength, ensureNonNegative, if_neg (ofNat_not_neg hn), if_pos hgt]
  rfl

theorem parseLength_oversized {n : Nat} (h : 2 ^ 63 ≤ n) :
    parseLength (toString n) = .error (invalidData "invalid length value") := by
  have hmax : Int64.maxValue.toInt < n := by
    have hvalue : Int64.maxValue.toInt = 2 ^ 63 - 1 := by decide
    omega
  have hparse : parseI64 (toString n) = none := by
    rw [parseI64, parseInt_toString_of_lt hmax, Option.map_none]
  rw [parseLength, hparse]

/-- A length line over the cap is refused where it ends. -/
theorem decodeBulk_oversized {value : List UInt8} (h : bulkLimit < value.length)
    (rest : List UInt8) (e : Ending) :
    ∃ message, (decodeBulk : Read (Frame F)).run ⟨countedBytes value ++ rest, e⟩ =
      (.error (invalidData message), ⟨value ++ cr :: lf :: rest, e⟩) := by
  have hline := reads_readLine (lf_not_mem_toString_nat value.length)
    (value ++ cr :: lf :: rest) e
  have hbytes : countedBytes value ++ rest =
      utf8 (toString value.length) ++ [cr, lf] ++ (value ++ cr :: lf :: rest) := by
    simp [countedBytes]
  rw [hbytes, decodeBulk, bind_run_ok hline]
  rcases Nat.lt_or_ge value.length (2 ^ 63) with hlt | hge
  · have hpos := ofNat_not_neg hlt
    rw [parseLength_toString hlt, bind_run_ok (ofExcept_run _ _),
      if_neg (fun hc => hpos (by rw [hc]; decide)),
      if_neg (fun hc => hpos (Int64.lt_trans hc (by decide))),
      ensureBulkLength_oversized h hlt]
    exact ⟨_, rfl⟩
  · rw [parseLength_oversized hge]
    exact ⟨_, rfl⟩

section Oversized

variable [F64 F]

theorem decodeFrame_oversized {value : List UInt8} (h : bulkLimit < value.length)
    (rest : List UInt8) (e : Ending) :
    ∃ message, (decodeFrame : Read (Frame F)).run ⟨bulkBytes value ++ rest, e⟩ =
      (.error (invalidData message), ⟨value ++ cr :: lf :: rest, e⟩) := by
  have hdispatch : decodeTagged (decodeFrame : Read (Frame F)) 0x24 = decodeBulk := rfl
  obtain ⟨message, hbulk⟩ := decodeBulk_oversized (F := F) h rest e
  refine ⟨message, ?_⟩
  rw [bulkBytes, List.cons_append, decodeFrame_cons, hdispatch, hbulk]

/-- The elements of an array are read until one is refused. -/
theorem decodeFrame_array_error {n : Nat} (hn : n ≤ collectionLimit) {w : List UInt8}
    {err : IoError} {e : Ending} {r : Reader}
    (h : (times n (decodeFrame : Read (Frame F))).run ⟨w, e⟩ = (.error err, r)) :
    (decodeFrame : Read (Frame F)).run ⟨lineBytes 0x2A (toString n) ++ w, e⟩ = (.error err, r) := by
  have hlen := lt_of_le_collectionLimit hn
  have hline := reads_readLine (lf_not_mem_toString_nat n) w e
  have hbytes : lineBytes 0x2A (toString n) ++ w =
      0x2A :: (utf8 (toString n) ++ [cr, lf] ++ w) := by simp [lineBytes]
  have hdispatch : decodeTagged (decodeFrame : Read (Frame F)) 0x2A = decodeArray decodeFrame := rfl
  rw [hbytes, decodeFrame_cons, hdispatch, decodeArray, decodeAggregate, bind_run_ok hline,
    parseLength_toString hlen, bind_run_ok (ofExcept_run _ _), if_neg (ofNat_not_neg hlen)]
  rw [ensureCollectionLength, ensureNonNegative_ofNat hn (by decide),
    bind_run_ok (ofExcept_run _ _), bind_run_error h]

/-- Bulk strings up to the first one over the cap. -/
theorem times_oversized (before after : List (List UInt8)) {value : List UInt8}
    (hbefore : ∀ arg ∈ before, arg.length ≤ bulkLimit) (h : bulkLimit < value.length)
    (rest : List UInt8) (e : Ending) :
    ∃ message, (times (before ++ value :: after).length (decodeFrame : Read (Frame F))).run
        ⟨(before ++ value :: after).flatMap bulkBytes ++ rest, e⟩ =
      (.error (invalidData message),
        ⟨value ++ cr :: lf :: (after.flatMap bulkBytes ++ rest), e⟩) := by
  obtain ⟨message, hvalue⟩ :=
    decodeFrame_oversized (F := F) h (after.flatMap bulkBytes ++ rest) e
  have hbulks := wireSafe_bulks (F := F) hbefore
  obtain ⟨w, hw, hs⟩ := spells_frames fun c hc => spells_of_wireSafe c (hbulks c hc)
  have hr := reads_times hs fun c _ _ => reads_of_wire c
  rw [hw.unique (writes_bulks before .resp3)] at hr
  have hread := hr (bulkBytes value ++ (after.flatMap bulkBytes ++ rest)) e
  have hbytes : (before ++ value :: after).flatMap bulkBytes ++ rest =
      before.flatMap bulkBytes ++ (bulkBytes value ++ (after.flatMap bulkBytes ++ rest)) := by
    simp
  refine ⟨message, ?_⟩
  rw [hbytes]
  exact times_run_error hread hvalue (by simp)

/-- **A request over the cap** is refused at the first argument over it, and
that argument's payload is left on the stream. -/
theorem request_oversized {before after : List (List UInt8)} {value : List UInt8}
    (hcount : (before ++ value :: after).length ≤ collectionLimit)
    (hbefore : ∀ arg ∈ before, arg.length ≤ bulkLimit) (h : bulkLimit < value.length)
    (rest : List UInt8) (e : Ending) :
    ∃ message, (decodeFrame : Read (Frame F)).run
        ⟨requestBytes (before ++ value :: after) ++ rest, e⟩ =
      (.error (invalidData message),
        ⟨value ++ cr :: lf :: (after.flatMap bulkBytes ++ rest), e⟩) := by
  obtain ⟨message, hitems⟩ := times_oversized (F := F) before after hbefore h rest e
  refine ⟨message, ?_⟩
  rw [requestBytes, List.append_assoc]
  exact decodeFrame_array_error hcount hitems

/-- What a request over the cap leaves on the stream: the payload of the first
argument over the cap, its CRLF and the arguments after it. -/
def leftover (args : List (List UInt8)) : List UInt8 :=
  match args.dropWhile fun arg => arg.length ≤ bulkLimit with
  | [] => []
  | value :: after => value ++ cr :: lf :: after.flatMap bulkBytes

/-- Any request over the cap. -/
theorem request_over_cap {args : List (List UInt8)} (hcount : args.length ≤ collectionLimit)
    (h : ∃ arg ∈ args, bulkLimit < arg.length) (e : Ending) :
    ∃ message, (decodeFrame : Read (Frame F)).run ⟨requestBytes args, e⟩ =
      (.error (invalidData message), ⟨leftover args, e⟩) := by
  let fits : List UInt8 → Bool := fun arg => arg.length ≤ bulkLimit
  have hsplit : args.takeWhile fits ++ args.dropWhile fits = args := List.takeWhile_append_dropWhile
  have hbefore : ∀ arg ∈ args.takeWhile fits, arg.length ≤ bulkLimit :=
    fun arg harg => by simpa [fits] using List.mem_takeWhile_imp harg
  have hleft : leftover args = match args.dropWhile fits with
    | [] => []
    | value :: after => value ++ cr :: lf :: after.flatMap bulkBytes := rfl
  cases hdrop : args.dropWhile fits with
  | nil =>
      obtain ⟨arg, harg, hover⟩ := h
      have hfits : arg.length ≤ bulkLimit := by
        simpa [fits] using List.dropWhile_eq_nil_iff.mp hdrop arg harg
      exact absurd hover (Nat.not_lt.mpr hfits)
  | cons value after =>
      have hover : bulkLimit < value.length := by
        have hhead := List.head?_dropWhile_not fits args
        rw [hdrop] at hhead
        simpa [fits] using hhead
      rw [hleft, hdrop]
      rw [hdrop] at hsplit
      rw [← hsplit] at hcount ⊢
      obtain ⟨message, hrun⟩ := request_oversized (F := F) hcount hbefore hover [] e
      rw [List.append_nil, List.append_nil] at hrun
      exact ⟨message, hrun⟩

end Oversized

end RalphDb
