import Mathlib.Data.Nat.Digits.Defs

/-!
# Byte strings and the number parsing of `util.c`

A C string is the list of its bytes up to, and without, the terminating NUL; the
end of the list stands for that NUL. `safe_strtol` and its siblings are the C
library's `strtol` family with two more tests: something must have been
converted, and what follows the number must be white space or the end.
-/

namespace Memcached

abbrev Bytes := List UInt8

def ascii (text : String) : Bytes := text.toList.map fun c => UInt8.ofNat c.toNat

namespace Util

/-! ## The C library -/

/-- `isspace` in the C locale. -/
def isSpace (c : UInt8) : Bool :=
  c == 32 || (9 ≤ c && c ≤ 13)

def isDigit (c : UInt8) : Bool := 48 ≤ c && c ≤ 57

/-- The decimal number at the front of a string, and the rest. -/
def scanDigits : Bytes → ℕ → ℕ × Bytes
  | [], n => (n, [])
  | c :: s, n => if isDigit c then scanDigits s (n * 10 + (c.toNat - 48)) else (n, c :: s)

/-- What the functions of the `strtol` family read in base 10: white space, an
optional sign and at least one digit. The result is the sign, the number and
the rest of the string (`endptr`). -/
def scanNumber (str : Bytes) : Option (Bool × ℕ × Bytes) :=
  let s := str.dropWhile isSpace
  let (negative, s) := match s with
    | 45 :: s => (true, s)
    | 43 :: s => (false, s)
    | s => (false, s)
  match s with
  | c :: _ => if isDigit c then
      let (n, rest) := scanDigits s 0
      some (negative, n, rest)
    else none
  | [] => none

/-- `strchr(str, '-') != NULL` -/
def hasMinus (str : Bytes) : Bool := (str.takeWhile (· != 0)).contains 45

/-! ## `util.c` -/

/-- `xisspace(*endptr) || (*endptr == '\0' && endptr != str)`, after a conversion. -/
def endsNumber : Bytes → Bool
  | [] => true
  | c :: _ => isSpace c || c == 0

/-- `safe_strtoull` (lines 49-72). -/
def safeStrtoull (str : Bytes) : Option ℕ :=
  match scanNumber str with
  | none => none
  | some (negative, n, rest) =>
    if n ≥ 2 ^ 64 then none
    else
      let ull := if negative then (2 ^ 64 - n) % 2 ^ 64 else n
      if endsNumber rest then
        if ull ≥ 2 ^ 63 ∧ hasMinus str then none else some ull
      else none

/-- `safe_strtoul` (lines 121-148): the number is cut to 32 bits. -/
def safeStrtoul (str : Bytes) : Option ℕ :=
  (safeStrtoull str).map (· % 2 ^ 32)

/-- `safe_strtoll` (lines 104-119). -/
def safeStrtoll (str : Bytes) : Option ℤ :=
  match scanNumber str with
  | none => none
  | some (negative, n, rest) =>
    if (negative ∧ n > 2 ^ 63) ∨ (¬negative ∧ n ≥ 2 ^ 63) then none
    else if endsNumber rest then some (if negative then -(n : ℤ) else n)
    else none

/-- The `int32_t` with the same low 32 bits. -/
def toInt32 (l : ℤ) : ℤ := (l + 2 ^ 31) % 2 ^ 32 - 2 ^ 31

/-- `safe_strtol` (lines 150-165): a 64-bit `long`, cut to 32 bits. -/
def safeStrtol (str : Bytes) : Option ℤ :=
  (safeStrtoll str).map toInt32

/-- `itoa_u64` (`itoa_ljust.c`): the decimal digits of a number. -/
def itoaU64 (value : ℕ) : Bytes :=
  (Nat.toDigits 10 value).map fun c => UInt8.ofNat c.toNat

theorem safeStrtoull_lt {str : Bytes} {value : ℕ} (h : safeStrtoull str = some value) :
    value < 2 ^ 64 := by
  unfold safeStrtoull at h
  split at h
  · cases h
  simp only at h
  split_ifs at h
  all_goals
    cases h
    omega

/-! ## Reading back what was written -/

theorem isDigit_ofNat {c : Char} (h : c.isDigit = true) :
    isDigit (UInt8.ofNat c.toNat) = true ∧ (UInt8.ofNat c.toNat).toNat = c.toNat := by
  have hc : 48 ≤ c.toNat ∧ c.toNat ≤ 57 := by
    simp only [Char.isDigit, Bool.and_eq_true, decide_eq_true_eq] at h
    exact h
  have hn : (UInt8.ofNat c.toNat).toNat = c.toNat := by
    rw [UInt8.toNat_ofNat']
    exact Nat.mod_eq_of_lt (by omega)
  refine ⟨?_, hn⟩
  simp only [isDigit, Bool.and_eq_true, decide_eq_true_eq, UInt8.le_iff_toNat_le, hn]
  exact hc

variable {rest : Bytes}

theorem endsNumber_not_digit {c : UInt8} (h : endsNumber (c :: rest) = true) :
    isDigit c = false := by
  simp only [endsNumber, isSpace, Bool.or_eq_true, Bool.and_eq_true, decide_eq_true_eq,
    beq_iff_eq, UInt8.le_iff_toNat_le, ← UInt8.toNat_inj] at h
  simp only [isDigit, Bool.and_eq_false_iff, decide_eq_false_iff_not, UInt8.le_iff_toNat_le]
  simp only [UInt8.reduceToNat] at h ⊢
  omega

theorem scanDigits_append {cs : List Char} (hcs : ∀ c ∈ cs, c.isDigit = true)
    (hr : endsNumber rest = true) (n : ℕ) :
    scanDigits (cs.map (fun c => UInt8.ofNat c.toNat) ++ rest) n =
      (Nat.ofDigitChars 10 cs n, rest) := by
  induction cs generalizing n with
  | nil =>
    cases rest with
    | nil => rfl
    | cons c rest =>
      show scanDigits (c :: rest) n = _
      rw [scanDigits, endsNumber_not_digit hr]
      rfl
  | cons c cs ih =>
    obtain ⟨hd, hn⟩ := isDigit_ofNat (hcs c (.head _))
    rw [List.map_cons, List.cons_append, scanDigits, if_pos hd, hn,
      ih fun c hc => hcs c (.tail _ hc), Nat.mul_comm n 10]
    rfl

theorem itoaU64_digits (value : ℕ) : ∀ c ∈ itoaU64 value, isDigit c = true := by
  intro c hc
  obtain ⟨d, hd, rfl⟩ := List.mem_map.mp hc
  exact (isDigit_ofNat (Nat.isDigit_of_mem_toDigits (by decide) (by decide) hd)).1

theorem itoaU64_ne_nil (value : ℕ) : itoaU64 value ≠ [] := by
  simp [itoaU64, Nat.toDigits_ne_nil]

theorem scanNumber_of_digit {c : UInt8} {str : Bytes} (h : isDigit c = true) :
    scanNumber (c :: str) =
      some (false, (scanDigits (c :: str) 0).1, (scanDigits (c :: str) 0).2) := by
  have hd := h
  simp only [isDigit, Bool.and_eq_true, decide_eq_true_eq, UInt8.le_iff_toNat_le,
    UInt8.reduceToNat] at hd
  have hs : isSpace c = false := by
    simp only [isSpace, Bool.or_eq_false_iff, Bool.and_eq_false_iff, decide_eq_false_iff_not,
      beq_eq_false_iff_ne, ne_eq, UInt8.le_iff_toNat_le, ← UInt8.toNat_inj, UInt8.reduceToNat]
    omega
  have hm : c ≠ 45 := by
    rintro rfl
    exact absurd hd.1 (by decide)
  have hp : c ≠ 43 := by
    rintro rfl
    exact absurd hd.1 (by decide)
  have hdro : (c :: str).dropWhile isSpace = c :: str := by
    rw [List.dropWhile_cons, hs]
    rfl
  have hsi : (match c :: str with
      | 45 :: s => (true, s)
      | 43 :: s => (false, s)
      | s => (false, s)) = (false, c :: str) := by
    split
    · rename_i he
      exact absurd (List.cons.inj he).1 hm
    · rename_i he
      exact absurd (List.cons.inj he).1 hp
    · rfl
  simp only [scanNumber, hdro, hsi, h, if_true]

theorem scanNumber_itoaU64 (value : ℕ) (hr : endsNumber rest = true) :
    scanNumber (itoaU64 value ++ rest) = some (false, value, rest) := by
  have hs : scanDigits (itoaU64 value ++ rest) 0 = (value, rest) := by
    rw [itoaU64, scanDigits_append
      (fun c hc => Nat.isDigit_of_mem_toDigits (by decide) (by decide) hc) hr,
      Nat.ofDigitChars_toDigits (by decide) (by decide)]
  obtain ⟨c, str, hst⟩ := List.exists_cons_of_ne_nil (itoaU64_ne_nil value)
  have hd : isDigit c = true := itoaU64_digits value c (by rw [hst]; exact .head _)
  rw [hst, List.cons_append, scanNumber_of_digit hd, ← List.cons_append, ← hst, hs]

/-- `safe_strtoull` reads back what `itoa_u64` wrote, whatever text without a minus sign
follows after white space. -/
theorem safeStrtoull_itoaU64 {value : ℕ} (hv : value < 2 ^ 64)
    (hr : endsNumber rest = true) (hm : 45 ∉ rest) :
    safeStrtoull (itoaU64 value ++ rest) = some value := by
  have hn : hasMinus (itoaU64 value ++ rest) = false := by
    rw [hasMinus, List.contains_eq_mem, decide_eq_false_iff_not]
    intro hme
    obtain hme | hme := List.mem_append.mp (List.takeWhile_subset _ hme)
    · exact absurd (itoaU64_digits value 45 hme) (by decide)
    · exact hm hme
  simp only [safeStrtoull, scanNumber_itoaU64 value hr, hn, hr, if_true]
  rw [if_neg (by omega)]
  simp

theorem safeStrtoll_itoaU64 {value : ℕ} (hv : value < 2 ^ 63) (hr : endsNumber rest = true) :
    safeStrtoll (itoaU64 value ++ rest) = some (value : ℤ) := by
  simp only [safeStrtoll, scanNumber_itoaU64 value hr, hr, if_true]
  rw [if_neg (by simp; omega)]
  simp

end Util

end Memcached
