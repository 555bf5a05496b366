import Mathlib.Algebra.Order.Ring.Int

/-!
# RalphDb.Base.Decimal

Decimal numbers as `from_str` reads them and `to_string` prints them.

`from_str` takes an optional sign (a minus only for a signed type), then one
or more digits, leading zeros included, and refuses a value out of range.
`toString` prints no sign but the minus and no leading zero, so printing then
reading is the identity (`parseInt_toString`) and reading then printing
normalises.  What `from_str` accepts, whatever its spelling, is a `Numeral`
(`parseInt_eq_some`).
-/

namespace Base

/-- One or more decimal digits. -/
def parseDigits (ds : List Char) : Option Nat :=
  if ds ≠ [] ∧ ds.all Char.isDigit then some (Nat.ofDigitChars 10 ds 0) else none

/-- `from_str` of a signed integer type with the range `lo .. hi`. -/
def parseInt (lo hi : Int) (s : String) : Option Int :=
  match s.toList with
  | '-' :: ds => (parseDigits ds).bind fun n => if lo ≤ -(n : Int) then some (-(n : Int)) else none
  | '+' :: ds => (parseDigits ds).bind fun n => if (n : Int) ≤ hi then some (n : Int) else none
  | ds => (parseDigits ds).bind fun n => if (n : Int) ≤ hi then some (n : Int) else none

/-- `from_str` of an unsigned integer type with the maximum `hi`. -/
def parseNat (hi : Nat) (s : String) : Option Nat :=
  match s.toList with
  | '+' :: ds => (parseDigits ds).bind fun n => if n ≤ hi then some n else none
  | ds => (parseDigits ds).bind fun n => if n ≤ hi then some n else none

/-- `i64::from_str`. -/
def parseI64 (s : String) : Option Int64 :=
  (parseInt Int64.minValue.toInt Int64.maxValue.toInt s).map Int64.ofInt

/-- `u8::from_str`. -/
def parseU8 (s : String) : Option Nat := parseNat 255 s

/-- `u16::from_str`. -/
def parseU16 (s : String) : Option Nat := parseNat 65535 s

/-- `usize::from_str`, on a 64-bit machine. -/
def parseUsize (s : String) : Option Nat := parseNat (2 ^ 64 - 1) s

/-- `i64::checked_add`. -/
def checkedAdd (a b : Int64) : Option Int64 :=
  let n := a.toInt + b.toInt
  if Int64.minValue.toInt ≤ n ∧ n ≤ Int64.maxValue.toInt then some (Int64.ofInt n) else none

/-! ## Printing, then reading -/

theorem toList_toString_nat (n : Nat) : (toString n).toList = Nat.toDigits 10 n :=
  Nat.toList_repr

theorem isDigit_of_mem_toDigits {n : Nat} {c : Char} (h : c ∈ Nat.toDigits 10 n) :
    c.isDigit = true := Nat.isDigit_of_mem_toDigits (by decide) (by decide) h

theorem parseDigits_toDigits (n : Nat) : parseDigits (Nat.toDigits 10 n) = some n := by
  have hall : (Nat.toDigits 10 n).all Char.isDigit = true :=
    List.all_eq_true.mpr fun _ hc => isDigit_of_mem_toDigits hc
  rw [parseDigits, if_pos ⟨Nat.toDigits_ne_nil, hall⟩, Nat.ofDigitChars_ten_toDigits]

/-- The printed digits of a number start with a digit, so with no sign. -/
theorem toDigits_eq_cons (n : Nat) :
    ∃ c ds, Nat.toDigits 10 n = c :: ds ∧ c ≠ '-' ∧ c ≠ '+' := by
  cases h : Nat.toDigits 10 n with
  | nil => exact absurd h Nat.toDigits_ne_nil
  | cons c ds =>
      have hc : c.isDigit = true := isDigit_of_mem_toDigits (by rw [h]; exact List.mem_cons_self)
      refine ⟨c, ds, rfl, ?_, ?_⟩ <;> intro heq <;> rw [heq] at hc <;> exact absurd hc (by decide)

theorem toList_toString_negSucc (m : Nat) :
    (toString (Int.negSucc m)).toList = '-' :: Nat.toDigits 10 (m + 1) := by
  show ("-" ++ Nat.repr (m + 1)).toList = _
  rw [String.toList_append, Nat.toList_repr]
  rfl

/-- A printed number is read up to the top of the range. -/
theorem parseInt_toString_nat (lo hi : Int) (n : Nat) :
    parseInt lo hi (toString n) = if (n : Int) ≤ hi then some (n : Int) else none := by
  obtain ⟨c, ds, hcs, hminus, hplus⟩ := toDigits_eq_cons n
  have hl : (toString n).toList = c :: ds := by rw [toList_toString_nat, hcs]
  have hd : parseDigits (c :: ds) = some n := by rw [← hcs, parseDigits_toDigits]
  unfold parseInt
  rw [hl]
  split
  · next heq => exact absurd (List.cons.inj heq).1 hminus
  · next heq => exact absurd (List.cons.inj heq).1 hplus
  · rw [hd, Option.bind_some]

/-- **A printed integer reads back**, for every type whose range has it. -/
theorem parseInt_toString {lo hi n : Int} (hlo : lo ≤ n) (hhi : n ≤ hi) :
    parseInt lo hi (toString n) = some n := by
  cases n with
  | ofNat m =>
      have hm : (m : Int) ≤ hi := hhi
      have hparse := parseInt_toString_nat lo hi m
      rw [if_pos hm] at hparse
      exact hparse
  | negSucc m =>
      have hneg : -((m + 1 : Nat) : Int) = Int.negSucc m := rfl
      unfold parseInt
      rw [toList_toString_negSucc]
      simp only [parseDigits_toDigits, Option.bind_some]
      rw [hneg, if_pos hlo]

/-- A printed number above the range is refused. -/
theorem parseInt_toString_of_lt {lo hi : Int} {n : Nat} (h : hi < n) :
    parseInt lo hi (toString n) = none := by
  rw [parseInt_toString_nat, if_neg (Int.not_le.mpr h)]

/-- **A printed `i64` reads back.** -/
@[simp] theorem parseI64_toString (n : Int64) : parseI64 (toString n.toInt) = some n := by
  have hlo : Int64.minValue.toInt ≤ n.toInt := n.minValue_le_toInt
  have hhi : n.toInt ≤ Int64.maxValue.toInt := n.toInt_le
  rw [parseI64, parseInt_toString hlo hhi, Option.map_some, Int64.ofInt_toInt]

/-- A length in the range of `i64` is printed as that `i64` is. -/
theorem toString_natCast {n : Nat} (h : n < 2 ^ 63) :
    (toString n : String) = toString (Int64.ofNat n).toInt := by
  have hn : (Int64.ofNat n).toInt = (n : Int) := Int64.toInt_ofNat_of_lt h
  rw [hn]
  rfl

/-! ## Exactly what is read -/

/-- One or more digits, with the value `m`. -/
def Digits (ds : List Char) (m : Nat) : Prop :=
  ds ≠ [] ∧ (∀ c ∈ ds, c.isDigit = true) ∧ Nat.ofDigitChars 10 ds 0 = m

/-- `s` spells the integer `n`: an optional sign, then one or more digits. -/
inductive Numeral (s : String) : Int → Prop
  | bare {ds : List Char} {m : Nat} (text : s.toList = ds) (digits : Digits ds m) : Numeral s m
  | plus {ds : List Char} {m : Nat} (text : s.toList = '+' :: ds) (digits : Digits ds m) :
      Numeral s m
  | minus {ds : List Char} {m : Nat} (text : s.toList = '-' :: ds) (digits : Digits ds m) :
      Numeral s (-(m : Int))

theorem parseDigits_eq_some {ds : List Char} {m : Nat} :
    parseDigits ds = some m ↔ Digits ds m := by
  unfold parseDigits Digits
  by_cases h : ds ≠ [] ∧ ds.all Char.isDigit
  · rw [if_pos h]
    simpa [h.1] using fun _ => List.all_eq_true.mp h.2
  · rw [if_neg h]
    simp only [reduceCtorEq, false_iff]
    rintro ⟨hne, hall, _⟩
    exact h ⟨hne, List.all_eq_true.mpr hall⟩

/-- Digits have no sign before them. -/
theorem not_digits_sign {c : Char} (hc : c.isDigit = false) {ds : List Char} {m : Nat} :
    ¬ Digits (c :: ds) m := by
  rintro ⟨_, hall, _⟩
  simp [hc] at hall

/-- **`from_str` reads exactly the numerals** of the type's range. -/
theorem parseInt_eq_some {lo hi n : Int} (hlo : lo ≤ 0) (hhi : 0 ≤ hi) {s : String} :
    parseInt lo hi s = some n ↔ Numeral s n ∧ lo ≤ n ∧ n ≤ hi := by
  have hminus : '-'.isDigit = false := by decide
  have hplus : '+'.isDigit = false := by decide
  unfold parseInt
  split
  · next ds hs =>
      simp only [Option.bind_eq_some_iff, parseDigits_eq_some, Option.ite_none_right_eq_some,
        Option.some.injEq]
      constructor
      · rintro ⟨m, hm, hr, rfl⟩
        exact ⟨.minus hs hm, hr, by omega⟩
      · rintro ⟨hn, hr⟩
        cases hn with
        | bare text digits =>
            rw [hs] at text
            exact absurd (text ▸ digits) (not_digits_sign hminus)
        | plus text digits => simp [hs] at text
        | minus text digits =>
            obtain rfl := (List.cons.inj (hs.symm.trans text)).2
            exact ⟨_, digits, hr.1, rfl⟩
  · next ds hs =>
      simp only [Option.bind_eq_some_iff, parseDigits_eq_some, Option.ite_none_right_eq_some,
        Option.some.injEq]
      constructor
      · rintro ⟨m, hm, hr, rfl⟩
        exact ⟨.plus hs hm, by omega, hr⟩
      · rintro ⟨hn, hr⟩
        cases hn with
        | bare text digits =>
            rw [hs] at text
            exact absurd (text ▸ digits) (not_digits_sign hplus)
        | plus text digits =>
            obtain rfl := (List.cons.inj (hs.symm.trans text)).2
            exact ⟨_, digits, hr.2, rfl⟩
        | minus text digits => simp [hs] at text
  · next h1 h2 =>
      simp only [Option.bind_eq_some_iff, parseDigits_eq_some, Option.ite_none_right_eq_some,
        Option.some.injEq]
      constructor
      · rintro ⟨m, hm, hr, rfl⟩
        exact ⟨.bare rfl hm, by omega, hr⟩
      · rintro ⟨hn, hr⟩
        cases hn with
        | bare text digits => exact ⟨_, text ▸ digits, hr.2, rfl⟩
        | plus text digits => exact absurd text (h2 _)
        | minus text digits => exact absurd text (h1 _)

/-- **`i64::from_str` reads exactly the numerals** of its range. -/
theorem parseI64_eq_some {s : String} {n : Int64} : parseI64 s = some n ↔ Numeral s n.toInt := by
  unfold parseI64
  rw [Option.map_eq_some_iff]
  constructor
  · rintro ⟨m, hm, rfl⟩
    obtain ⟨hnum, hlo, hhi⟩ := (parseInt_eq_some (by decide) (by decide)).mp hm
    rw [Int64.toInt_ofInt_of_le hlo (Int.lt_of_le_of_lt hhi (by decide))]
    exact hnum
  · intro h
    exact ⟨n.toInt, (parseInt_eq_some (by decide) (by decide)).mpr
      ⟨h, n.minValue_le_toInt, n.toInt_le⟩, Int64.ofInt_toInt n⟩

theorem numeral_toString (n : Int) : Numeral (toString n) n :=
  ((parseInt_eq_some (min_le_right n 0) (le_max_right n 0)).mp
    (parseInt_toString (min_le_left n 0) (le_max_left n 0))).1

/-- A numeral has at least one character. -/
theorem Numeral.toList_ne_nil {s : String} {n : Int} (h : Numeral s n) : s.toList ≠ [] := by
  cases h with
  | bare text digits => exact text ▸ digits.1
  | plus text digits => simp [text]
  | minus text digits => simp [text]

/-! ## Printed numbers are one line -/

theorem lf_not_mem_toDigits (n : Nat) : '\n' ∉ Nat.toDigits 10 n := fun h =>
  absurd (isDigit_of_mem_toDigits h) (by decide)

theorem lf_not_mem_toString_nat (n : Nat) : '\n' ∉ (toString n).toList := by
  rw [toList_toString_nat]
  exact lf_not_mem_toDigits n

theorem lf_not_mem_toString_int (n : Int) : '\n' ∉ (toString n).toList := by
  cases n with
  | ofNat m => exact lf_not_mem_toString_nat m
  | negSucc m =>
      rw [toList_toString_negSucc]
      intro h
      cases h with
      | tail _ h => exact lf_not_mem_toDigits _ h

/-! ## Printed numbers are short -/

theorem length_toString_nat_le {n k : Nat} (hk : 0 < k) (h : n < 10 ^ k) :
    (toString n).toList.length ≤ k := by
  rw [toList_toString_nat]
  exact (Nat.length_toDigits_le_iff (by decide) hk).mpr h

/-- A printed `i64` has at most nineteen digits and a sign. -/
theorem length_toString_i64_le (n : Int64) : (toString n.toInt).toList.length ≤ 20 := by
  have hlo : -(2 ^ 63) ≤ n.toInt := n.minValue_le_toInt
  have hhi : n.toInt ≤ 2 ^ 63 - 1 := n.toInt_le
  cases hn : n.toInt with
  | ofNat m =>
      have hm : (m : Int) ≤ 2 ^ 63 - 1 := by simpa [hn] using hhi
      have hshort : (toString m).toList.length ≤ 20 :=
        length_toString_nat_le (by decide) (by omega)
      exact hshort
  | negSucc m =>
      have hm : m + 1 ≤ 2 ^ 63 := by
        rw [hn] at hlo
        omega
      rw [toList_toString_negSucc, List.length_cons]
      have hdigits : (Nat.toDigits 10 (m + 1)).length ≤ 19 :=
        (Nat.length_toDigits_le_iff (by decide) (by decide)).mpr (by omega)
      omega

/-! ## Checked addition -/

theorem checkedAdd_eq_some {a b c : Int64} (h : checkedAdd a b = some c) :
    c.toInt = a.toInt + b.toInt := by
  unfold checkedAdd at h
  simp only at h
  split at h
  · next hr =>
      rw [← Option.some.inj h]
      exact Int64.toInt_ofInt_of_le hr.1 (Int.lt_of_le_of_lt hr.2 (by decide))
  · contradiction

theorem checkedAdd_eq_none {a b : Int64} :
    checkedAdd a b = none ↔ a.toInt + b.toInt < Int64.minValue.toInt ∨
      Int64.maxValue.toInt < a.toInt + b.toInt := by
  unfold checkedAdd
  simp only
  split
  · next h =>
      simp only [reduceCtorEq, false_iff]
      omega
  · next h =>
      simp only [true_iff]
      omega

/-- One more fits, except after the greatest. -/
theorem checkedAdd_one_eq_none {a : Int64} : checkedAdd a 1 = none ↔ a = Int64.maxValue := by
  have hone : (1 : Int64).toInt = 1 := by decide
  have hlo : Int64.minValue.toInt ≤ a.toInt := a.minValue_le_toInt
  have hhi : a.toInt ≤ Int64.maxValue.toInt := a.toInt_le
  rw [checkedAdd_eq_none, hone, ← Int64.toInt_inj]
  omega

/-- One less fits, except after the least. -/
theorem checkedAdd_neg_one_eq_none {a : Int64} :
    checkedAdd a (-1) = none ↔ a = Int64.minValue := by
  have hone : (-1 : Int64).toInt = -1 := by decide
  have hlo : Int64.minValue.toInt ≤ a.toInt := a.minValue_le_toInt
  have hhi : a.toInt ≤ Int64.maxValue.toInt := a.toInt_le
  rw [checkedAdd_eq_none, hone, ← Int64.toInt_inj]
  omega

/-- Any number can be added to zero. -/
theorem checkedAdd_zero (a : Int64) : checkedAdd 0 a = some a := by
  have hlo : Int64.minValue.toInt ≤ a.toInt := a.minValue_le_toInt
  have hhi : a.toInt ≤ Int64.maxValue.toInt := a.toInt_le
  rw [checkedAdd, Int64.toInt_zero, Int.zero_add, if_pos ⟨hlo, hhi⟩, Int64.ofInt_toInt]

end Base
