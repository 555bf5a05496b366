/-!
# RalphDb.Base.Text

Strings and their bytes.

A Rust `String` is a Lean `String`: a sequence of Unicode scalar values kept
as valid UTF-8.  This module has the passages between strings and the byte
lists a wire carries, strict (`fromUtf8`) and lossy (`fromUtf8Lossy`), the
ASCII case maps and `trim`.

A wire that ends its texts with a line feed needs two things of them: the
bytes read back (`fromUtf8_utf8`), and the bytes have a line feed exactly when
the text has one (`lf_mem_utf8`, `lf_mem_fromUtf8Lossy`), because every unit
of a longer UTF-8 sequence is at least `0x80`.
-/

namespace Base

/-! ## Strict UTF-8 -/

/-- The bytes of a string (`as_bytes`, `into_bytes`). -/
def utf8 (s : String) : List UInt8 := s.toUTF8.data.toList

/-- `String::from_utf8`, with its error forgotten. -/
def fromUtf8 (bs : List UInt8) : Option String := String.fromUTF8? bs.toByteArray

theorem toByteArray_utf8 (s : String) : (utf8 s).toByteArray = s.toByteArray := by
  apply ByteArray.ext
  rw [List.data_toByteArray]
  rfl

/-- A string reads back from its own bytes. -/
@[simp] theorem fromUtf8_utf8 (s : String) : fromUtf8 (utf8 s) = some s := by
  unfold fromUtf8 String.fromUTF8?
  rw [toByteArray_utf8, dif_pos s.isValidUTF8]
  rfl

/-- What `fromUtf8` accepts are the bytes of its answer. -/
theorem utf8_of_fromUtf8 {bs : List UInt8} {s : String} (h : fromUtf8 bs = some s) :
    utf8 s = bs := by
  unfold fromUtf8 String.fromUTF8? at h
  split at h
  · next hv =>
      have hs : String.ofByteArray bs.toByteArray hv = s := Option.some.inj h
      rw [← hs]
      show bs.toByteArray.data.toList = bs
      rw [List.data_toByteArray]
  · simp at h

@[simp] theorem utf8_append (s t : String) : utf8 (s ++ t) = utf8 s ++ utf8 t := by
  have h : (s ++ t).toByteArray = s.toByteArray ++ t.toByteArray := String.toByteArray_append
  show (s ++ t).toByteArray.data.toList = s.toByteArray.data.toList ++ t.toByteArray.data.toList
  rw [h, ByteArray.data_append, Array.toList_append]

/-- The bytes of a string are the UTF-8 units of its characters, in order. -/
theorem utf8_eq_flatMap (s : String) : utf8 s = s.toList.flatMap String.utf8EncodeChar := by
  have h : s.toByteArray = s.toList.utf8Encode := String.utf8Encode_toList.symm
  show s.toByteArray.data.toList = _
  rw [h, List.utf8Encode, List.data_toByteArray]

/-- A character takes at most four bytes. -/
theorem length_utf8_le (s : String) : (utf8 s).length ≤ 4 * s.toList.length := by
  rw [utf8_eq_flatMap]
  induction s.toList with
  | nil => exact Nat.le_refl 0
  | cons c cs ih =>
      have hc : (String.utf8EncodeChar c).length ≤ 4 := by
        rw [String.length_utf8EncodeChar]
        exact c.utf8Size_le_four
      simp only [List.flatMap_cons, List.length_append, List.length_cons]
      omega

/-! ## The line feed in a text -/

/-- The line feed, as a byte. -/
def lf : UInt8 := 0x0A

/-- The carriage return, as a byte. -/
def cr : UInt8 := 0x0D

/-- The encoding of a character has a line feed only for the line feed
itself. -/
theorem lf_mem_utf8EncodeChar (c : Char) : lf ∈ String.utf8EncodeChar c ↔ c = '\n' := by
  have hlf : lf.toNat = 10 := rfl
  have hc : c = '\n' ↔ c.val.toNat = 10 := by
    rw [← Char.toNat_inj]
    rfl
  rw [hc, String.utf8EncodeChar]
  have hv := c.val.toNat_lt
  generalize c.val.toNat = v at hv ⊢
  repeat' split
  all_goals
    simp only [List.mem_cons, List.not_mem_nil, or_false, ← UInt8.toNat_inj, hlf,
      UInt8.toNat_ofNat']
    omega

/-- A text has a line feed byte exactly when it has a line feed. -/
theorem lf_mem_utf8 (s : String) : lf ∈ utf8 s ↔ '\n' ∈ s.toList := by
  rw [utf8_eq_flatMap, List.mem_flatMap]
  constructor
  · intro h
    obtain ⟨c, hc, hlf⟩ := h
    rw [(lf_mem_utf8EncodeChar c).mp hlf] at hc
    exact hc
  · intro h
    exact ⟨'\n', h, (lf_mem_utf8EncodeChar '\n').mpr rfl⟩

/-! ## Lossy UTF-8 -/

/- `from_utf8_lossy` puts one U+FFFD for each maximal prefix of a well-formed
sequence that is not continued.  The decoder below is the usual one: it keeps
the code point so far, the continuation bytes still needed and the range of
the next one (only the second byte of a sequence has a range narrower than
`0x80 .. 0xBF`). -/

/-- A sequence under way: the code point so far, how many continuation bytes
are missing and the range of the next. -/
structure Pending where
  point : Nat
  need : Nat
  lo : Nat
  hi : Nat

/-- What a byte starts when no sequence is under way. -/
inductive Lead
  | char (c : Char)
  | more (p : Pending)
  | bad

def lead (b : UInt8) : Lead :=
  let n := b.toNat
  if n < 0x80 then .char (Char.ofNat n)
  else if 0xC2 ≤ n ∧ n ≤ 0xDF then .more ⟨n - 0xC0, 1, 0x80, 0xBF⟩
  else if n = 0xE0 then .more ⟨0, 2, 0xA0, 0xBF⟩
  else if n = 0xED then .more ⟨0xD, 2, 0x80, 0x9F⟩
  else if 0xE1 ≤ n ∧ n ≤ 0xEF then .more ⟨n - 0xE0, 2, 0x80, 0xBF⟩
  else if n = 0xF0 then .more ⟨0, 3, 0x90, 0xBF⟩
  else if n = 0xF4 then .more ⟨4, 3, 0x80, 0x8F⟩
  else if 0xF1 ≤ n ∧ n ≤ 0xF3 then .more ⟨n - 0xF0, 3, 0x80, 0xBF⟩
  else .bad

/-- The replacement character. -/
def replacement : Char := Char.ofNat 0xFFFD

/-- Decode, with the sequence under way if there is one. -/
def lossyChars : Option Pending → List UInt8 → List Char
  | none, [] => []
  | some _, [] => [replacement]
  | none, b :: bs => match lead b with
    | .char c => c :: lossyChars none bs
    | .more p => lossyChars (some p) bs
    | .bad => replacement :: lossyChars none bs
  | some p, b :: bs =>
    if p.lo ≤ b.toNat ∧ b.toNat ≤ p.hi then
      if p.need = 1 then Char.ofNat (p.point * 64 + (b.toNat - 0x80)) :: lossyChars none bs
      else lossyChars (some ⟨p.point * 64 + (b.toNat - 0x80), p.need - 1, 0x80, 0xBF⟩) bs
    else
      -- the sequence is cut short here, and the byte is read afresh
      replacement :: match lead b with
        | .char c => c :: lossyChars none bs
        | .more p => lossyChars (some p) bs
        | .bad => replacement :: lossyChars none bs

/-- `String::from_utf8_lossy`. -/
def fromUtf8Lossy (bs : List UInt8) : String := String.ofList (lossyChars none bs)

/-- A sequence whose code point cannot come out below `0x80`, and whose next
byte is a continuation byte. -/
def Pending.Wide (p : Pending) : Prop :=
  0x80 ≤ p.lo ∧ p.hi ≤ 0xBF ∧ 0 < p.need ∧
    (2 ≤ p.point ∨ (p.need ≠ 1 ∧ (1 ≤ p.point ∨ 0x90 ≤ p.lo)))

theorem charOfNat_eq_lf {n : Nat} : Char.ofNat n = '\n' ↔ n = 10 := by
  by_cases hv : n.isValidChar
  · have hn : (Char.ofNat n).toNat = n := by
      rw [Char.ofNat, dif_pos hv]
      rfl
    rw [← Char.toNat_inj, hn]
    rfl
  · have hn : Char.ofNat n = Char.ofNat 0 := by
      unfold Char.ofNat
      rw [dif_neg hv]
      rfl
    have h10 : n ≠ 10 := fun h => hv (by rw [h]; exact .inl (by decide))
    rw [hn]
    exact iff_of_false (by decide) h10

theorem eq_lf_iff_toNat {b : UInt8} : b = lf ↔ b.toNat = 10 := UInt8.toNat_inj.symm

/-- What a first byte can be: below `0x80` a character, otherwise the opening of
a wide sequence or of none. -/
theorem lead_cases (b : UInt8) :
    lead b = .char (Char.ofNat b.toNat) ∨
      0x80 ≤ b.toNat ∧ (lead b = .bad ∨ ∃ p, lead b = .more p ∧ p.Wide) := by
  unfold lead
  by_cases hchar : b.toNat < 0x80
  · exact .inl (if_pos hchar)
  · refine .inr ⟨Nat.le_of_not_lt hchar, ?_⟩
    simp only [hchar, if_false]
    repeat' split
    all_goals first
      | exact .inl rfl
      | exact .inr ⟨_, rfl, by simp only [Pending.Wide]; omega⟩

/-- A byte that stands for itself is a line feed exactly when its character is. -/
theorem lead_char {b : UInt8} {c : Char} (h : lead b = .char c) : c = '\n' ↔ b = lf := by
  rcases lead_cases b with hlead | ⟨-, hlead | ⟨p, hlead, -⟩⟩ <;> rw [hlead] at h
  · rw [← Lead.char.inj h, charOfNat_eq_lf, eq_lf_iff_toNat]
  · contradiction
  · contradiction

theorem ne_lf_of_le {b : UInt8} (h : 0x80 ≤ b.toNat) : b ≠ lf := by
  rw [ne_eq, eq_lf_iff_toNat]
  omega

/-- A byte that opens a sequence opens a wide one. -/
theorem lead_more {b : UInt8} {p : Pending} (h : lead b = .more p) : p.Wide ∧ b ≠ lf := by
  rcases lead_cases b with hlead | ⟨hhigh, hlead | ⟨p', hlead, hwide⟩⟩ <;> rw [hlead] at h
  · contradiction
  · contradiction
  · rw [← Lead.more.inj h]
    exact ⟨hwide, ne_lf_of_le hhigh⟩

theorem lead_bad {b : UInt8} (h : lead b = .bad) : b ≠ lf := by
  rcases lead_cases b with hlead | ⟨hhigh, -⟩
  · rw [hlead] at h
    contradiction
  · exact ne_lf_of_le hhigh

/-- Decoding keeps the line feeds and makes no new ones, from any wide
sequence under way. -/
theorem lf_mem_lossyChars (bs : List UInt8) (st : Option Pending) (hst : ∀ p ∈ st, p.Wide) :
    '\n' ∈ lossyChars st bs ↔ lf ∈ bs := by
  have hrep : '\n' ≠ replacement := by decide
  induction bs generalizing st with
  | nil => cases st <;> simp [lossyChars, hrep]
  | cons b bs ih =>
      have hnone := ih none (by simp)
      -- reading `b` with no sequence under way
      have hlead : '\n' ∈ (match lead b with
          | .char c => c :: lossyChars none bs
          | .more p => lossyChars (some p) bs
          | .bad => replacement :: lossyChars none bs) ↔ lf ∈ b :: bs := by
        cases hb : lead b with
        | char c =>
            have hc := lead_char hb
            simp only [List.mem_cons, hnone]
            rw [eq_comm, hc, eq_comm]
        | more p =>
            obtain ⟨hw, hne⟩ := lead_more hb
            simp [ih (some p) (by simpa using hw), hne.symm]
        | bad => simp [hnone, hrep, (lead_bad hb).symm]
      cases st with
      | none => simpa only [lossyChars] using hlead
      | some p =>
          obtain ⟨hlo, hhi, hneed, hwide⟩ := hst p rfl
          simp only [lossyChars]
          split
          · next hr =>
              have hne : lf ≠ b := by
                intro h
                have := eq_lf_iff_toNat.mp h.symm
                omega
              split
              · have hpt : '\n' ≠ Char.ofNat (p.point * 64 + (b.toNat - 0x80)) := by
                  intro h
                  have := charOfNat_eq_lf.mp h.symm
                  omega
                simp [hnone, hne, hpt]
              · have hw : Pending.Wide
                    ⟨p.point * 64 + (b.toNat - 0x80), p.need - 1, 0x80, 0xBF⟩ := by
                  simp only [Pending.Wide]
                  omega
                simp [ih (some _) (by simpa using hw), hne]
          · rw [List.mem_cons, hlead]
            simp [hrep]

/-- A lossily decoded text has a line feed exactly when its bytes have one. -/
theorem lf_mem_fromUtf8Lossy (bs : List UInt8) :
    '\n' ∈ (fromUtf8Lossy bs).toList ↔ lf ∈ bs := by
  rw [fromUtf8Lossy, String.toList_ofList]
  exact lf_mem_lossyChars bs none (by simp)

/-! ## Case maps and trimming -/

/-- `to_ascii_uppercase`. -/
def toAsciiUppercase (s : String) : String := String.ofList (s.toList.map Char.toUpper)

/-- `to_ascii_lowercase`. -/
def toAsciiLowercase (s : String) : String := String.ofList (s.toList.map Char.toLower)

theorem toLower_eq_lf {c : Char} : c.toLower = '\n' ↔ c = '\n' := by
  have hlf : '\n'.val.toNat = 10 := rfl
  rw [← Char.val_inj, ← Char.val_inj, ← UInt32.toNat_inj, ← UInt32.toNat_inj, hlf]
  unfold Char.toLower
  split
  · next h =>
      simp only [ge_iff_le, UInt32.le_iff_toNat_le] at h
      have hA : 'A'.val.toNat = 65 := rfl
      have hZ : 'Z'.val.toNat = 90 := rfl
      have hd : ('a'.val - 'A'.val).toNat = 32 := rfl
      rw [UInt32.toNat_add, hd]
      omega
  · rfl

theorem lf_mem_toAsciiLowercase (s : String) :
    '\n' ∈ (toAsciiLowercase s).toList ↔ '\n' ∈ s.toList := by
  simp only [toAsciiLowercase, String.toList_ofList, List.mem_map, toLower_eq_lf, exists_eq_right]

/-- `char::is_whitespace`: the characters with the Unicode property
`White_Space`. -/
def isWhitespace (c : Char) : Bool :=
  let n := c.toNat
  (0x09 ≤ n && n ≤ 0x0D) || n == 0x20 || n == 0x85 || n == 0xA0 || n == 0x1680 ||
    (0x2000 ≤ n && n ≤ 0x200A) || n == 0x2028 || n == 0x2029 || n == 0x202F || n == 0x205F ||
    n == 0x3000

/-- `str::trim`. -/
def trim (s : String) : String :=
  String.ofList (((s.toList.dropWhile isWhitespace).reverse.dropWhile isWhitespace).reverse)

end Base
