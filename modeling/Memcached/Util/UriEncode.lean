import Memcached.Util.Numbers

/-!
# Encoding of keys for logs and dumps (`util.c`)

`uriencode_init` writes the codes of all bytes that need one behind each other into
`uriencode_str` and notes where each one starts; `uriencode` copies them from there. The loop
asks for four bytes of room before every byte of the key.

Results:
* `uriencode_eq`: what is written
* `key_encoding_lossless`: keys of full length are written, and can be read back
-/

namespace Memcached.Util

/-! ## Model -/

/-- `isalnum(x) || x == '-' || x == '.' || x == '_' || x == '~'`, in the locale `C`. -/
def unreserved (x : UInt8) : Bool :=
  isDigit x || (65 ≤ x && x ≤ 90) || (97 ≤ x && x ≤ 122) ||
    x == 45 || x == 46 || x == 95 || x == 126

def hexDigit (n : ℕ) : UInt8 := UInt8.ofNat (if n < 10 then 48 + n else 55 + n)

/-- `%%%02hhX` -/
def hexCode (x : UInt8) : Bytes := [37, hexDigit (x.toNat / 16), hexDigit (x.toNat % 16)]

/-- `uriencode_init` (lines 14-26) up to the byte `x`: `uriencode_str`, and `uriencode_map` as
places in it. The `NUL` of `snprintf` is overwritten by the next code. -/
def uriencodeInit : ℕ → Bytes × List (Option ℕ)
  | 0 => ([], [])
  | x + 1 =>
    let (str, map) := uriencodeInit x
    if unreserved (UInt8.ofNat x) then (str, map ++ [none])
    else (str ++ hexCode (UInt8.ofNat x), map ++ [some str.length])

/-- `KEY_MAX_LENGTH` and `KEY_MAX_URI_ENCODED_LENGTH` (`memcached.h`, lines 68-71) -/
def keyMaxUriEncodedLength : ℕ := 250 * 3 + 1

/-- What `uriencode` writes for a byte, with the table `uriencode_init` has made. -/
def uriencodeByte (table : Bytes × List (Option ℕ)) (c : UInt8) : Bytes :=
  match (table.2[c.toNat]?).join with
  | some p => (table.1.drop p).take 3
  | none => [c]

/-- The loop of `uriencode` (lines 28-44), with what is written so far; there is no result where
it returns false. -/
def uriencode (table : Bytes × List (Option ℕ)) (dstlen : ℕ) : Bytes → Bytes → Option Bytes
  | [], dst => some (dst ++ [0])
  | c :: src, dst =>
    if dst.length + 4 > dstlen then none
    else uriencode table dstlen src (dst ++ uriencodeByte table c)

/-! ## The table -/

/-- What stands for a byte in the encoding. -/
def uriCode (c : UInt8) : Bytes := if unreserved c then [c] else hexCode c

theorem length_uriencodeInit (n : ℕ) : (uriencodeInit n).2.length = n := by
  induction n with
  | zero => rfl
  | succ n ih =>
    simp only [uriencodeInit]
    split_ifs <;> simp [ih]

/-- The table grows at its end, so that an entry stays where it is. -/
theorem uriencodeInit_entry {n x : ℕ} (hx : x < n) :
    (unreserved (UInt8.ofNat x) = true ∧ (uriencodeInit n).2[x]? = some none) ∨
    (unreserved (UInt8.ofNat x) = false ∧ ∃ p, (uriencodeInit n).2[x]? = some (some p) ∧
      p + 3 ≤ (uriencodeInit n).1.length ∧
      ((uriencodeInit n).1.drop p).take 3 = hexCode (UInt8.ofNat x)) := by
  induction n with
  | zero => omega
  | succ n ih =>
    have hl := length_uriencodeInit n
    simp only [uriencodeInit]
    obtain hlt | rfl := Nat.lt_succ_iff_lt_or_eq.mp hx
    · have ho : x < (uriencodeInit n).2.length := by omega
      obtain ⟨hu, hm⟩ | ⟨hu, p, hm, hle, hc⟩ := ih hlt
      · refine .inl ⟨hu, ?_⟩
        split_ifs <;> rw [List.getElem?_append_left ho, hm]
      · refine .inr ⟨hu, p, ?_⟩
        split_ifs
        · exact ⟨by rw [List.getElem?_append_left ho, hm], hle, hc⟩
        · refine ⟨by rw [List.getElem?_append_left ho, hm], ?_, ?_⟩
          · rw [List.length_append]
            omega
          · rw [List.drop_append_of_le_length (by omega),
              List.take_append_of_le_length (by rw [List.length_drop]; omega), hc]
    -- the new entry points at the end of what was written before
    · split_ifs with hu
      · exact .inl ⟨hu, by simp [hl]⟩
      · refine .inr ⟨by simpa using hu, (uriencodeInit x).1.length, ?_, ?_, ?_⟩
        · simp [hl]
        · simp [hexCode]
        · simp [hexCode]

/-! ## What is written -/

theorem uriencodeByte_eq {n : ℕ} (hn : n = 256) (c : UInt8) :
    uriencodeByte (uriencodeInit n) c = uriCode c := by
  have hl : c.toNat < n := hn ▸ c.toNat_lt
  have he := uriencodeInit_entry hl
  rw [UInt8.ofNat_toNat] at he
  rw [uriencodeByte, uriCode]
  obtain ⟨hu, hm⟩ | ⟨hu, p, hm, -, hc⟩ := he
  · simp [hm, hu]
  · simp [hm, hu, hc]

theorem length_uriCode_le (c : UInt8) : (uriCode c).length ≤ 3 := by
  unfold uriCode
  split_ifs
  · exact Nat.le_add_left 1 2
  · exact le_rfl

theorem uriencode_eq {n dstlen : ℕ} (hn : n = 256) (src dst : Bytes)
    (hr : dst.length + 3 * src.length + 1 ≤ dstlen) :
    uriencode (uriencodeInit n) dstlen src dst = some (dst ++ src.flatMap uriCode ++ [0]) := by
  induction src generalizing dst with
  | nil => simp [uriencode]
  | cons c src ih =>
    have hc := length_uriCode_le c
    rw [List.length_cons] at hr
    rw [uriencode, if_neg (by omega), uriencodeByte_eq hn,
      ih _ (by rw [List.length_append]; omega)]
    simp

theorem length_flatMap_uriCode_le (key : Bytes) :
    (key.flatMap uriCode).length ≤ 3 * key.length := by
  induction key with
  | nil => simp
  | cons c key ih =>
    have hc := length_uriCode_le c
    rw [List.flatMap_cons, List.length_append, List.length_cons]
    omega

/-! ## Decoding -/

theorem hexDigit_unreserved : ∀ n < 16, unreserved (hexDigit n) = true := by decide

theorem hexDigit_injective : ∀ m < 16, ∀ n < 16, hexDigit m = hexDigit n → m = n := by decide

theorem unreserved_of_mem_uriCode {c d : UInt8} (h : d ∈ uriCode c) :
    unreserved d = true ∨ d = 37 := by
  have hl := c.toNat_lt
  unfold uriCode at h
  split_ifs at h with hu
  · rw [List.mem_singleton.mp h]
    exact .inl hu
  · simp only [hexCode, List.mem_cons, List.not_mem_nil, or_false] at h
    obtain rfl | rfl | rfl := h
    · exact .inr rfl
    · exact .inl (hexDigit_unreserved _ (by omega))
    · exact .inl (hexDigit_unreserved _ (by omega))

/-- The codes are a prefix code: a `%` starts a code of three bytes, and stands for no byte. -/
theorem uriCode_append_inj {c d : UInt8} {s t : Bytes} (h : uriCode c ++ s = uriCode d ++ t) :
    c = d ∧ s = t := by
  have hp : unreserved 37 = false := by decide
  have hlt := c.toNat_lt
  have hl' := d.toNat_lt
  unfold uriCode at h
  -- a byte that stands for itself is no `%`, so mixed cases differ in the first byte
  split_ifs at h with hc hd hd
  · simpa using h
  · obtain ⟨rfl, -⟩ := List.cons.inj h
    rw [hp] at hc
    cases hc
  · obtain ⟨rfl, -⟩ := List.cons.inj h
    rw [hp] at hd
    cases hd
  · simp only [hexCode, List.cons_append, List.nil_append, List.cons.injEq, true_and] at h
    obtain ⟨hh, hl, hr⟩ := h
    have h1 := hexDigit_injective _ (by omega) _ (by omega) hh
    have h2 := hexDigit_injective _ (by omega) _ (by omega) hl
    exact ⟨UInt8.toNat_inj.mp (by omega), hr⟩

theorem flatMap_uriCode_injective {key key' : Bytes}
    (h : key.flatMap uriCode = key'.flatMap uriCode) : key = key' := by
  have hp : ∀ c, uriCode c ≠ [] := by
    intro c
    unfold uriCode hexCode
    split_ifs <;> exact List.cons_ne_nil _ _
  induction key generalizing key' with
  | nil =>
    cases key' with
    | nil => rfl
    | cons c key' => exact absurd (List.append_eq_nil_iff.mp h.symm).1 (hp c)
  | cons c key ih =>
    cases key' with
    | nil => exact absurd (List.append_eq_nil_iff.mp h).1 (hp c)
    | cons d key' =>
      obtain ⟨rfl, hr⟩ := uriCode_append_inj h
      rw [ih hr]

/-! ## Keys -/

/-- `uriencode` of a key into a buffer of `KEY_MAX_URI_ENCODED_LENGTH` bytes, after
`uriencode_init`. -/
def encodeKey (key : Bytes) : Option Bytes :=
  uriencode (uriencodeInit 256) keyMaxUriEncodedLength key []

theorem encodeKey_eq {key : Bytes} (h : key.length ≤ 250) :
    encodeKey key = some (key.flatMap uriCode ++ [0]) := by
  refine uriencode_eq rfl key [] ?_
  rw [List.length_nil, keyMaxUriEncodedLength]
  omega

/-- **Keys in logs and dumps.** A key of at most 250 bytes is encoded without an error, in the
room there is, in letters, digits and five other characters, and no other key has its text. -/
theorem key_encoding_lossless (key : Bytes) (h : key.length ≤ 250) :
    ∃ text, encodeKey key = some (text ++ [0]) ∧
      (text ++ [0]).length ≤ keyMaxUriEncodedLength ∧
      (∀ c ∈ text, unreserved c = true ∨ c = 37) ∧
      ∀ key', key'.length ≤ 250 → encodeKey key' = some (text ++ [0]) → key' = key := by
  refine ⟨key.flatMap uriCode, encodeKey_eq h, ?_, ?_, ?_⟩
  · have hl := length_flatMap_uriCode_le key
    rw [List.length_append, List.length_singleton, keyMaxUriEncodedLength]
    omega
  · intro c hc
    obtain ⟨b, -, hb⟩ := List.mem_flatMap.mp hc
    exact unreserved_of_mem_uriCode hb
  · intro key' h' he
    rw [encodeKey_eq h', Option.some.injEq, List.append_left_inj] at he
    exact flatMap_uriCode_injective he

theorem key_encoding_lossless_two : (ascii "a ").length ≤ 250 ∧
    ∃ text, encodeKey (ascii "a ") = some (text ++ [0]) := by
  obtain ⟨text, ht, -⟩ := key_encoding_lossless (ascii "a ") (by decide)
  exact ⟨by decide, text, ht⟩

end Memcached.Util
