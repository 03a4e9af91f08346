import Memcached.Util.Numbers
import Mathlib.Data.List.TakeWhile

/-!
# What the number parsers accept (`util.c`)

The four `safe_` functions take what the C library reads with 64 bits. A number that does
not fit into the 32 bits of the result is cut, and the test for a minus sign is only made
when the unsigned number is too large for a signed one, which the negation of a large
number is not.

Results:
* `numeral_iff`: what the C library reads
* `safe_parsers_exact_iff`: for which texts a parser is right
* `cut_to_32_bits`: a number that is cut
-/

namespace Memcached.Util

/-! ## Specification -/

def decValue (digits : Bytes) : ℕ := digits.foldl (fun n c => n * 10 + (c.toNat - 48)) 0

def signedValue (sign digits : Bytes) : ℤ :=
  if sign = [45] then -(decValue digits : ℤ) else decValue digits

/-- After white space the string has an optional sign and digits, which stand for `value`,
and then white space or the end. -/
def Numeral (str : Bytes) (value : ℤ) : Prop :=
  ∃ space sign digits rest : Bytes, str = space ++ (sign ++ (digits ++ rest)) ∧
    (∀ c ∈ space, isSpace c = true) ∧ (sign = [] ∨ sign = [43] ∨ sign = [45]) ∧
    digits ≠ [] ∧ (∀ c ∈ digits, isDigit c = true) ∧ endsNumber rest = true ∧
    value = signedValue sign digits

/-- A result of the parser is the value of the numeral in front of the string, and in the
range of the result type. -/
def Exact (parse : Bytes → Option ℤ) (low high : ℤ) (str : Bytes) : Prop :=
  ∀ out, parse str = some out → Numeral str out ∧ low ≤ out ∧ out ≤ high

/-! ## The C library -/

theorem isDigit_toNat {c : UInt8} (h : isDigit c = true) : 48 ≤ c.toNat ∧ c.toNat ≤ 57 := by
  simpa only [isDigit, Bool.and_eq_true, decide_eq_true_eq, UInt8.le_iff_toNat_le,
    UInt8.reduceToNat] using h

theorem isDigit_not_space {c : UInt8} (h : isDigit c = true) : isSpace c = false := by
  have hc := isDigit_toNat h
  simp only [isSpace, Bool.or_eq_false_iff, Bool.and_eq_false_iff, decide_eq_false_iff_not,
    beq_eq_false_iff_ne, ne_eq, UInt8.le_iff_toNat_le, ← UInt8.toNat_inj, UInt8.reduceToNat]
  omega

theorem scanDigits_digits {digits rest : Bytes} (hdi : ∀ c ∈ digits, isDigit c = true)
    (hr : endsNumber rest = true) (n : ℕ) :
    scanDigits (digits ++ rest) n =
      (digits.foldl (fun n c => n * 10 + (c.toNat - 48)) n, rest) := by
  induction digits generalizing n with
  | nil =>
    cases rest with
    | nil => rfl
    | cons c rest =>
      show scanDigits (c :: rest) n = (n, c :: rest)
      rw [scanDigits, endsNumber_not_digit hr]
      rfl
  | cons c digits ih =>
    show scanDigits (c :: (digits ++ rest)) n = _
    rw [scanDigits, if_pos (hdi c (.head _))]
    exact ih (fun d hd => hdi d (.tail _ hd)) _

theorem scanDigits_sound (str : Bytes) (n : ℕ) :
    ∃ digits, str = digits ++ (scanDigits str n).2 ∧ (∀ c ∈ digits, isDigit c = true) ∧
      (scanDigits str n).1 = digits.foldl (fun n c => n * 10 + (c.toNat - 48)) n ∧
      (∀ c s, str = c :: s → isDigit c = true → digits ≠ []) := by
  induction str generalizing n with
  | nil => exact ⟨[], rfl, by simp, rfl, by simp⟩
  | cons c str ih =>
    rw [scanDigits]
    by_cases hc : isDigit c = true
    · rw [if_pos hc]
      obtain ⟨digits, hs, ha, hv, -⟩ := ih (n * 10 + (c.toNat - 48))
      refine ⟨c :: digits, ?_, ?_, hv, by simp⟩
      · show c :: str = c :: (digits ++ _)
        rw [← hs]
      intro d hd
      rcases List.mem_cons.mp hd with rfl | hd
      · exact hc
      · exact ha d hd
    · rw [if_neg hc]
      refine ⟨[], rfl, by simp, rfl, ?_⟩
      intro d s he hd
      rw [← (List.cons.inj he).1] at hd
      exact absurd hd hc

/-- The sign in front of a number, as `scanNumber` reads it. -/
def scanSign (str : Bytes) : Bool × Bytes :=
  match str with
  | 45 :: s => (true, s)
  | 43 :: s => (false, s)
  | s => (false, s)

theorem scanNumber_eq (str : Bytes) :
    scanNumber str =
      match (scanSign (str.dropWhile isSpace)).2 with
      | c :: s => if isDigit c then
          some ((scanSign (str.dropWhile isSpace)).1, (scanDigits (c :: s) 0).1,
            (scanDigits (c :: s) 0).2)
        else none
      | [] => none := by
  show (match (scanSign (str.dropWhile isSpace)).2 with
    | c :: _ => if isDigit c then
        some ((scanSign (str.dropWhile isSpace)).1,
          (scanDigits (scanSign (str.dropWhile isSpace)).2 0).1,
          (scanDigits (scanSign (str.dropWhile isSpace)).2 0).2)
      else none
    | [] => none) = _
  rcases scanSign (str.dropWhile isSpace) with ⟨negative, _ | ⟨c, s⟩⟩
  · rfl
  · rfl

theorem scanSign_sound (str : Bytes) :
    ∃ sign, str = sign ++ (scanSign str).2 ∧ (sign = [] ∨ sign = [43] ∨ sign = [45]) ∧
      ((scanSign str).1 = true ↔ sign = [45]) := by
  unfold scanSign
  split
  · exact ⟨[45], rfl, .inr (.inr rfl), by simp⟩
  · exact ⟨[43], rfl, .inr (.inl rfl), by simp⟩
  · exact ⟨[], rfl, .inl rfl, by simp⟩

theorem scanSign_append {sign : Bytes} (hs : sign = [] ∨ sign = [43] ∨ sign = [45]) {c : UInt8}
    (hc : isDigit c = true) (s : Bytes) :
    scanSign (sign ++ c :: s) = (decide (sign = [45]), c :: s) := by
  have hd := isDigit_toNat hc
  rcases hs with rfl | rfl | rfl
  · show scanSign (c :: s) = (false, c :: s)
    unfold scanSign
    split
    · rename_i he
      rw [(List.cons.inj he).1] at hd
      exact absurd hd (by decide)
    · rename_i he
      rw [(List.cons.inj he).1] at hd
      exact absurd hd (by decide)
    · rfl
  · rfl
  · rfl

theorem numeral_iff (str : Bytes) (value : ℤ) :
    Numeral str value ↔ ∃ negative n rest, scanNumber str = some (negative, n, rest) ∧
      endsNumber rest = true ∧ value = if negative then -(n : ℤ) else n := by
  constructor
  · rintro ⟨space, sign, digits, rest, rfl, hsp, hsi, hn, hdi, hr, rfl⟩
    obtain ⟨c, ds, rfl⟩ := List.exists_cons_of_ne_nil hn
    have hc : isDigit c = true := hdi c (.head _)
    have hdro : (space ++ (sign ++ (c :: ds ++ rest))).dropWhile isSpace =
        sign ++ (c :: (ds ++ rest)) := by
      rw [List.dropWhile_append_of_pos hsp]
      rcases hsi with rfl | rfl | rfl
      · show (c :: (ds ++ rest)).dropWhile isSpace = c :: (ds ++ rest)
        rw [List.dropWhile_cons, isDigit_not_space hc]
        rfl
      · rfl
      · rfl
    have hsc := scanDigits_digits hdi hr 0
    refine ⟨decide (sign = [45]), decValue (c :: ds), rest, ?_, hr, ?_⟩
    · rw [scanNumber_eq, hdro, scanSign_append hsi hc]
      show (if isDigit c = true then some (_, (scanDigits (c :: ds ++ rest) 0).1,
        (scanDigits (c :: ds ++ rest) 0).2) else none) = _
      rw [if_pos hc, hsc]
      rfl
    · unfold signedValue
      by_cases hmi : sign = [45]
      · rw [if_pos hmi, if_pos (by simpa using hmi)]
      · rw [if_neg hmi, if_neg (by simpa using hmi)]
  · rintro ⟨negative, n, rest, hsc, hr, rfl⟩
    obtain ⟨sign, hst, hsi, hmi⟩ := scanSign_sound (str.dropWhile isSpace)
    rw [scanNumber_eq] at hsc
    rcases hs : (scanSign (str.dropWhile isSpace)).2 with _ | ⟨c, s⟩
    · rw [hs] at hsc
      cases hsc
    rw [hs] at hsc hst
    simp only at hsc
    split_ifs at hsc with hc
    obtain ⟨digits, hspl, hdi, hv, hn⟩ := scanDigits_sound (c :: s) 0
    obtain ⟨rfl, rfl, rfl⟩ := Prod.mk.injEq .. ▸ Option.some.inj hsc
    refine ⟨str.takeWhile isSpace, sign, digits, (scanDigits (c :: s) 0).2, ?_, ?_, hsi,
      hn c s rfl hc, hdi, hr, ?_⟩
    · rw [← hspl, ← hst, List.takeWhile_append_dropWhile]
    · intro d hd
      exact List.mem_takeWhile_imp hd
    unfold signedValue
    rw [hv]
    by_cases hm : sign = [45]
    · rw [if_pos hm, if_pos (hmi.mpr hm)]
      rfl
    · rw [if_neg hm, if_neg (fun h => hm (hmi.mp h))]
      rfl

/-! ## The four parsers -/

variable {str rest : Bytes}

theorem numeral_of_scan {negative : Bool} {n : ℕ}
    (h : scanNumber str = some (negative, n, rest)) (hr : endsNumber rest = true) (value : ℤ) :
    Numeral str value ↔ value = if negative then -(n : ℤ) else n := by
  rw [numeral_iff]
  constructor
  · rintro ⟨negative', n', rest', h', -, rfl⟩
    rw [h] at h'
    obtain ⟨rfl, rfl, rfl⟩ := Prod.mk.injEq .. ▸ Option.some.inj h'
    rfl
  · intro hv
    exact ⟨negative, n, rest, h, hr, hv⟩

theorem hasMinus_of_scan {n : ℕ} (h : scanNumber str = some (true, n, rest)) :
    hasMinus str = true := by
  rw [scanNumber_eq] at h
  obtain ⟨sign, hst, -, hm⟩ := scanSign_sound (str.dropWhile isSpace)
  rcases hs : (scanSign (str.dropWhile isSpace)).2 with _ | ⟨c, s⟩
  · rw [hs] at h
    cases h
  rw [hs] at h hst
  simp only at h
  split_ifs at h with hc
  obtain rfl := hm.mp (Prod.mk.injEq .. ▸ Option.some.inj h).1
  have hsp : ∀ d ∈ str.takeWhile isSpace, (d != 0) = true := by
    intro d hd
    have hd := List.mem_takeWhile_imp hd
    rw [bne_iff_ne]
    rintro rfl
    exact absurd hd (by decide)
  rw [hasMinus, ← List.takeWhile_append_dropWhile (p := isSpace) (l := str), hst,
    List.takeWhile_append_of_pos hsp]
  simp

/-- `safe_strtoull` takes a numeral whose absolute value has 64 bits, a negative one only if
its negation wraps around to a number without the sign bit. -/
theorem safeStrtoull_eq_some {negative : Bool} {n : ℕ}
    (h : scanNumber str = some (negative, n, rest)) (hr : endsNumber rest = true) (out : ℕ) :
    safeStrtoull str = some out ↔ n < 2 ^ 64 ∧
      if negative then (n = 0 ∨ 2 ^ 63 < n) ∧ out = (2 ^ 64 - n) % 2 ^ 64
      else (n < 2 ^ 63 ∨ hasMinus str = false) ∧ out = n := by
  simp only [safeStrtoull, h, hr, if_true]
  by_cases hn : n ≥ 2 ^ 64
  · rw [if_pos hn]
    simp only [reduceCtorEq, false_iff, not_and]
    intro hl
    omega
  rw [if_neg hn]
  cases negative with
  | false =>
    simp only [Bool.false_eq_true, if_false]
    by_cases hb : n ≥ 2 ^ 63 ∧ hasMinus str = true
    · rw [if_pos hb]
      simp only [reduceCtorEq, false_iff, hb.2, Bool.true_eq_false, or_false]
      omega
    rw [if_neg hb, Option.some.injEq]
    have ho : n < 2 ^ 63 ∨ hasMinus str = false := by
      rcases Nat.lt_or_ge n (2 ^ 63) with hl | hg
      · exact .inl hl
      · exact .inr (Bool.eq_false_iff.mpr fun hm => hb ⟨hg, hm⟩)
    constructor
    · rintro rfl
      exact ⟨by omega, ho, rfl⟩
    · rintro ⟨-, -, rfl⟩
      rfl
  | true =>
    simp only [if_true, hasMinus_of_scan h, and_true]
    by_cases hb : (2 ^ 64 - n) % 2 ^ 64 ≥ 2 ^ 63
    · rw [if_pos hb]
      simp only [reduceCtorEq, false_iff]
      omega
    rw [if_neg hb, Option.some.injEq]
    constructor
    · rintro rfl
      exact ⟨by omega, by omega, rfl⟩
    · rintro ⟨-, -, rfl⟩
      rfl

theorem safeStrtoull_of_not {str : Bytes} (h : ∀ value, ¬Numeral str value) :
    safeStrtoull str = none ∧ safeStrtoll str = none := by
  unfold safeStrtoull safeStrtoll
  rcases hs : scanNumber str with _ | ⟨negative, n, rest⟩
  · exact ⟨rfl, rfl⟩
  have hr : endsNumber rest = false := by
    apply Bool.eq_false_iff.mpr
    intro hr
    exact h _ ((numeral_of_scan hs hr _).mpr rfl)
  simp only [hr, Bool.false_eq_true, if_false, ite_self, and_self]

theorem numeral_cases (str : Bytes) :
    (∀ value, ¬Numeral str value) ∨
      ∃ negative n rest, scanNumber str = some (negative, n, rest) ∧ endsNumber rest = true := by
  by_cases h : ∀ value, ¬Numeral str value
  · exact .inl h
  obtain ⟨value, hv⟩ := not_forall_not.mp h
  obtain ⟨negative, n, rest, hs, hr, -⟩ := (numeral_iff str value).mp hv
  exact .inr ⟨negative, n, rest, hs, hr⟩

theorem safeStrtoll_exact (str : Bytes) : Exact safeStrtoll (-2 ^ 63) (2 ^ 63 - 1) str := by
  intro out ho
  rcases numeral_cases str with hn | ⟨negative, n, rest, hs, hr⟩
  · rw [(safeStrtoull_of_not hn).2] at ho
    cases ho
  simp only [safeStrtoll, hs, hr, if_true] at ho
  rw [numeral_of_scan hs hr]
  cases negative with
  | false =>
    simp only [Bool.false_eq_true, false_and, not_false_eq_true, true_and, false_or, if_false]
      at ho ⊢
    split_ifs at ho with hra
    cases ho
    omega
  | true =>
    simp only [true_and, not_true_eq_false, false_and, or_false, if_true] at ho ⊢
    split_ifs at ho with hra
    cases ho
    omega

theorem safeStrtoll_isSome {str : Bytes} {value : ℤ} (h : Numeral str value)
    (hl : -2 ^ 63 ≤ value) (hh : value < 2 ^ 63) : safeStrtoll str = some value := by
  obtain ⟨negative, n, rest, hs, hr, rfl⟩ := (numeral_iff str value).mp h
  simp only [safeStrtoll, hs, hr, if_true]
  cases negative with
  | false =>
    simp only [Bool.false_eq_true, if_false] at hl hh ⊢
    rw [if_neg (by simp; omega)]
  | true =>
    simp only [if_true] at hl hh ⊢
    rw [if_neg (by simp; omega)]

/-- The unsigned parsers, as functions to the integers. -/
def parseUll (str : Bytes) : Option ℤ := (safeStrtoull str).map Int.ofNat

@[inherit_doc parseUll]
def parseUl (str : Bytes) : Option ℤ := (safeStrtoul str).map Int.ofNat

/-- The negative numerals whose unsigned value wraps around to a small number. -/
def WrapsAround (value : ℤ) : Prop := -2 ^ 64 < value ∧ value < -2 ^ 63

/-- `safe_strtoull`, cut to the numbers below `N`. -/
theorem cut_exact_iff (str : Bytes) {N : ℕ} (hN : 0 < N) {parse : Bytes → Option ℤ}
    (hp : parse str = (safeStrtoull str).map fun ull => ((ull % N : ℕ) : ℤ)) :
    Exact parse 0 (N - 1) str ↔ ∀ value, Numeral str value → ¬WrapsAround value ∧
      ¬(N ≤ value ∧ (value < 2 ^ 63 ∨ value < 2 ^ 64 ∧ hasMinus str = false)) := by
  rcases numeral_cases str with hn | ⟨negative, n, rest, hs, hr⟩
  · refine iff_of_true ?_ fun value hv => absurd hv (hn value)
    intro out ho
    rw [hp, (safeStrtoull_of_not hn).1] at ho
    cases ho
  have ht := safeStrtoull_eq_some hs hr
  constructor
  · intro he value hv
    obtain rfl := (numeral_of_scan hs hr value).mp hv
    -- a number that is taken is the one that is given back
    have hc : ∀ ull, safeStrtoull str = some ull →
        ((ull % N : ℕ) : ℤ) = if negative then -(n : ℤ) else n := by
      intro ull hu
      have hb := (he _ (by rw [hp, hu]; rfl)).1
      exact (numeral_of_scan hs hr _).mp hb
    cases negative with
    | false =>
      simp only [Bool.false_eq_true, if_false] at hc ht ⊢
      refine ⟨by unfold WrapsAround; omega, ?_⟩
      rintro ⟨hg, hlt⟩
      have hok : n < 2 ^ 63 ∨ hasMinus str = false := by
        rcases hlt with hlt | ⟨-, hm⟩
        · exact .inl (by omega)
        · exact .inr hm
      have := hc n ((ht n).mpr ⟨by omega, hok, rfl⟩)
      have := Nat.mod_lt n hN
      omega
    | true =>
      simp only [if_true] at hc ht ⊢
      refine ⟨?_, by omega⟩
      rintro ⟨hlo, hh⟩
      have := hc _ ((ht _).mpr ⟨by omega, .inr (by omega), rfl⟩)
      omega
  · intro hok out ho
    rw [hp] at ho
    obtain ⟨ull, hu, rfl⟩ := Option.map_eq_some_iff.mp ho
    obtain ⟨hw, hl⟩ := hok _ ((numeral_of_scan hs hr _).mpr rfl)
    have hta := (ht ull).mp hu
    have hmo := Nat.mod_lt ull hN
    rw [numeral_of_scan hs hr]
    unfold WrapsAround at hw
    cases negative with
    | false =>
      simp only [Bool.false_eq_true, if_false] at hta hl ⊢
      obtain ⟨hlt, hm, rfl⟩ := hta
      have hsm : ull < N := by
        by_contra hg
        refine hl ⟨by omega, ?_⟩
        rcases hm with hsm | hm
        · exact .inl (by omega)
        · exact .inr ⟨by omega, hm⟩
      rw [Nat.mod_eq_of_lt hsm]
      omega
    | true =>
      simp only [if_true] at hta hw ⊢
      have hz : ull = 0 := by omega
      rw [hz, Nat.zero_mod] at hmo ⊢
      omega

theorem parseUll_exact_iff (str : Bytes) :
    Exact parseUll 0 (2 ^ 64 - 1) str ↔ ∀ value, Numeral str value → ¬WrapsAround value := by
  have hl : ∀ ull, safeStrtoull str = some ull → ull % 2 ^ 64 = ull := by
    intro ull hu
    rcases numeral_cases str with hn | ⟨negative, n, rest, hs, hr⟩
    · rw [(safeStrtoull_of_not hn).1] at hu
      cases hu
    · have ht := (safeStrtoull_eq_some hs hr ull).mp hu
      split_ifs at ht <;> omega
  have hp : parseUll str = (safeStrtoull str).map fun ull => ((ull % 2 ^ 64 : ℕ) : ℤ) :=
    Option.map_congr fun ull hu => by rw [hl ull hu]; rfl
  refine (cut_exact_iff str (by norm_num) hp).trans (forall₂_congr fun value _ => ?_)
  push_cast
  exact and_iff_left (by omega)

theorem parseUl_exact_iff (str : Bytes) :
    Exact parseUl 0 (2 ^ 32 - 1) str ↔ ∀ value, Numeral str value → ¬WrapsAround value ∧
      ¬(2 ^ 32 ≤ value ∧ (value < 2 ^ 63 ∨ value < 2 ^ 64 ∧ hasMinus str = false)) := by
  have hp : parseUl str = (safeStrtoull str).map fun ull => ((ull % 2 ^ 32 : ℕ) : ℤ) :=
    Option.map_map ..
  exact_mod_cast cut_exact_iff str (by norm_num) hp

theorem safeStrtol_exact_iff (str : Bytes) :
    Exact safeStrtol (-2 ^ 31) (2 ^ 31 - 1) str ↔ ∀ value, Numeral str value →
      ¬(-2 ^ 63 ≤ value ∧ value < -2 ^ 31) ∧ ¬(2 ^ 31 ≤ value ∧ value < 2 ^ 63) := by
  have hc : ∀ l, -2 ^ 31 ≤ toInt32 l ∧ toInt32 l ≤ 2 ^ 31 - 1 ∧
      (toInt32 l = l ↔ -2 ^ 31 ≤ l ∧ l < 2 ^ 31) := by
    intro l
    unfold toInt32
    omega
  constructor
  · intro he value hva
    have hr : -2 ^ 63 ≤ value → value < 2 ^ 63 → -2 ^ 31 ≤ value ∧ value < 2 ^ 31 := by
      intro hlo hh
      have hso := safeStrtoll_isSome hva hlo hh
      have hba := (he _ (by rw [safeStrtol, hso]; rfl)).1
      obtain ⟨negative, n, rest, hs, hre, hv⟩ := (numeral_iff str value).mp hva
      have heq := ((numeral_of_scan hs hre _).mp hba).trans hv.symm
      exact (hc value).2.2.mp heq
    constructor
    · rintro ⟨hlo, hh⟩
      have := hr hlo (by omega)
      omega
    · rintro ⟨hlo, hh⟩
      have := hr (by omega) hh
      omega
  · intro hok out ho
    obtain ⟨l, hl, rfl⟩ := Option.map_eq_some_iff.mp ho
    obtain ⟨hn, hlo, hh⟩ := safeStrtoll_exact str l hl
    obtain ⟨hb, ha⟩ := hok l hn
    have heq := (hc l).2.2.mpr (by omega)
    rw [heq]
    exact ⟨hn, by omega, by omega⟩

/-- For every string: `safe_strtoll` is exact; `safe_strtoull` is exact unless the string is
a negative numeral that wraps around; `safe_strtoul` and `safe_strtol` are exact unless
the string is such a numeral, or one that the 64-bit library function takes and that
does not fit into 32 bits. -/
theorem safe_parsers_exact_iff (str : Bytes) :
    (Exact parseUl 0 (2 ^ 32 - 1) str ↔ ∀ value, Numeral str value → ¬WrapsAround value ∧
      ¬(2 ^ 32 ≤ value ∧ (value < 2 ^ 63 ∨ value < 2 ^ 64 ∧ hasMinus str = false))) ∧
    (Exact safeStrtol (-2 ^ 31) (2 ^ 31 - 1) str ↔ ∀ value, Numeral str value →
      ¬(-2 ^ 63 ≤ value ∧ value < -2 ^ 31) ∧ ¬(2 ^ 31 ≤ value ∧ value < 2 ^ 63)) ∧
    (Exact parseUll 0 (2 ^ 64 - 1) str ↔ ∀ value, Numeral str value → ¬WrapsAround value) ∧
    Exact safeStrtoll (-2 ^ 63) (2 ^ 63 - 1) str :=
  ⟨parseUl_exact_iff str, safeStrtol_exact_iff str, parseUll_exact_iff str, safeStrtoll_exact str⟩

/-- `4294967296` is taken as 0 by `safe_strtoul`, `2147483648` as a negative number by
`safe_strtol`, and `-18446744073709551615` as 1 by `safe_strtoull`. -/
theorem cut_to_32_bits :
    (parseUl (ascii "4294967296") = some 0 ∧ ¬Exact parseUl 0 (2 ^ 32 - 1) (ascii "4294967296")) ∧
    (safeStrtol (ascii "2147483648") = some (-2147483648) ∧
      ¬Exact safeStrtol (-2 ^ 31) (2 ^ 31 - 1) (ascii "2147483648")) ∧
    parseUll (ascii "-18446744073709551615") = some 1 ∧
      ¬Exact parseUll 0 (2 ^ 64 - 1) (ascii "-18446744073709551615") := by
  have hul : parseUl (ascii "4294967296") = some 0 := by decide +kernel
  have hl : safeStrtol (ascii "2147483648") = some (-2147483648) := by decide +kernel
  have hu : parseUll (ascii "-18446744073709551615") = some 1 := by decide +kernel
  have hul' : scanNumber (ascii "4294967296") = some (false, 4294967296, []) := by
    decide +kernel
  have hl' : scanNumber (ascii "2147483648") = some (false, 2147483648, []) := by
    decide +kernel
  have hu' : scanNumber (ascii "-18446744073709551615") =
      some (true, 18446744073709551615, []) := by
    decide +kernel
  refine ⟨⟨hul, ?_⟩, ⟨hl, ?_⟩, hu, ?_⟩
  · intro he
    exact absurd ((numeral_of_scan hul' rfl 0).mp (he 0 hul).1) (by decide)
  · intro he
    exact absurd ((numeral_of_scan hl' rfl _).mp (he _ hl).1) (by decide)
  · intro he
    exact absurd ((numeral_of_scan hu' rfl 1).mp (he 1 hu).1) (by decide)

end Memcached.Util
