import Memcached.Util.Numbers
import Mathlib.Data.List.Infix

/-!
# Key hash filters (`proxy_lua.c`)

A pool may hash only part of a key: the text in front of a stop string, or the text between
two tag characters. The stop filter terminates its copy of the key one byte too late, so that
it searches one byte of the stack as well. The tag filter looks for the closing character from
the opening one on: if the two are equal it finds the same one again.

Results:
* `key_filter_selects_iff`: for which keys and strings a filter selects the right part
-/

namespace Memcached.Proxy.KeyFilter

open Util

/-! ## Model -/

def keyMaxLength : ℕ := 250

/-- `strstr`: where `conf` is first found. -/
def strstr (conf s : Bytes) : Option ℕ :=
  (List.range (s.length + 1)).find? fun p => conf <+: s.drop p

/-- What the string functions see of `s`. -/
def cString (s : Bytes) : Bytes := s.takeWhile (· != 0)

/-- `mcp_key_hash_filter_stop` (lines 233-257): where the result starts in the key and its
length; `g` is what is on the stack behind the copy. There is no result if the NUL is
written behind `temp`. -/
def keyHashFilterStop (g : UInt8) (conf key : Bytes) : Option (ℕ × ℕ) :=
  if key.length > keyMaxLength then some (0, key.length)
  else if key.length + 1 ≥ keyMaxLength + 1 then none
  else some (0, (strstr (cString conf) (cString (key ++ [g]))).getD key.length)

/-- `mcp_key_hash_filter_tag` (lines 262-280). -/
def keyHashFilterTag (conf key : Bytes) : ℕ × ℕ :=
  match key.findIdx? (· == conf.getD 0 0) with
  | none => (0, key.length)
  | some t₁ =>
    if key.length - t₁ > 1 then
      match (key.drop t₁).findIdx? (· == conf.getD 1 0) with
      | none => (0, key.length)
      | some d => (t₁ + 1, (d + (2 ^ 64 - 1)) % 2 ^ 64)
    else (0, key.length)

inductive Filter where
  | stop
  | tag
deriving DecidableEq

/-! ## What they are for -/

/-- The part of the key to be hashed. -/
def selected : Filter → Bytes → Bytes → ℕ × ℕ
  | .stop, conf, key => (0, (strstr (cString conf) key).getD key.length)
  | .tag, conf, key =>
    match key.findIdx? (· == conf.getD 0 0) with
    | none => (0, key.length)
    | some t₁ =>
      match (key.drop (t₁ + 1)).findIdx? (· == conf.getD 1 0) with
      | some (d + 1) => (t₁ + 1, d + 1)
      | _ => (0, key.length)

/-- The filter selects that part, which is in the key, whatever is behind it. -/
def Selects (f : Filter) (conf key : Bytes) : Prop :=
  (selected f conf key).1 + (selected f conf key).2 ≤ key.length ∧
  match f with
  | .stop => ∀ g, keyHashFilterStop g conf key = some (selected .stop conf key)
  | .tag => keyHashFilterTag conf key = selected .tag conf key

/-- When it does: there is room for the NUL, and the end of the key is not the stop string
without its last character, unless that is empty or the key has the whole string; the tag
characters differ, and they are not next to each other. -/
def Harmless : Filter → Bytes → Bytes → Prop
  | .stop, conf, key => key.length < keyMaxLength ∧ (2 ≤ (cString conf).length →
      (cString conf).dropLast <:+ key → cString conf <:+: key)
  | .tag, conf, key => ∀ t₁, key.findIdx? (· == conf.getD 0 0) = some t₁ → t₁ + 1 < key.length →
      conf.getD 0 0 ≠ conf.getD 1 0 ∧ key[t₁ + 1]? ≠ some (conf.getD 1 0)

/-! ## The stop string -/

variable {conf key : Bytes}

theorem strstr_eq_some {p : ℕ} : strstr conf key = some p ↔
    conf <+: key.drop p ∧ p < key.length + 1 ∧ ∀ q < p, ¬conf <+: key.drop q := by
  simp [strstr, List.find?_range_eq_some]

theorem strstr_eq_none : strstr conf key = none ↔ ¬conf <:+: key := by
  simp only [strstr, List.find?_eq_none, List.mem_range, decide_eq_true_eq]
  constructor
  · rintro h ⟨s, t, rfl⟩
    exact h s.length (by simp only [List.length_append]; omega) ⟨t, by simp⟩
  · exact fun h p _ hp => h (hp.isInfix.trans (List.drop_suffix p key).isInfix)

section

variable {p : ℕ} (h : strstr conf key = some p)
include h

theorem infix_of_strstr : conf <:+: key := by
  by_contra hnot
  rw [strstr_eq_none.mpr hnot] at h
  cases h

theorem strstr_le : p + conf.length ≤ key.length := by
  obtain ⟨hp, hlt, -⟩ := strstr_eq_some.mp h
  have hl := hp.length_le
  rw [List.length_drop] at hl
  omega

theorem strstr_concat (g : UInt8) : strstr conf (key ++ [g]) = some p := by
  have hl := strstr_le h
  obtain ⟨hp, hlt, hm⟩ := strstr_eq_some.mp h
  refine strstr_eq_some.mpr ⟨?_, by simp; omega, fun q hq hp' => ?_⟩
  · rw [List.drop_append_of_le_length (by omega)]
    exact hp.trans (List.prefix_append _ _)
  rw [List.drop_append_of_le_length (by omega)] at hp'
  obtain rfl | hp' := List.prefix_concat_iff.mp hp'
  · simp at hl
    omega
  · exact hm q hq hp'

end

/-- One more byte makes a difference if and only if it completes the stop string, and not alone. -/
theorem strstr_concat_iff (g : UInt8) :
    (strstr conf (key ++ [g])).getD key.length = (strstr conf key).getD key.length ↔
      (2 ≤ conf.length → conf <:+ key ++ [g] → conf <:+: key) := by
  rcases hs : strstr conf key with _ | p
  · have hn := strstr_eq_none.mp hs
    rcases hs' : strstr conf (key ++ [g]) with _ | q
    · have he : ¬conf <:+ key ++ [g] := fun h => strstr_eq_none.mp hs' h.isInfix
      simp [he]
    have he := (List.infix_concat_iff.mp (infix_of_strstr hs')).resolve_right hn
    have hl := strstr_le hs'
    have hpo : conf.length ≠ 0 := fun h => hn (List.length_eq_zero_iff.mp h ▸ List.nil_infix)
    rw [List.length_append, List.length_singleton] at hl
    simp only [Option.getD_some, Option.getD_none, he, hn, not_true, imp_false]
    refine ⟨fun hq => by omega, fun hlen => ?_⟩
    -- a single byte that is not in the key is found behind it
    by_contra hq
    have hp := (strstr_eq_some.mp hs').1
    rw [List.drop_append_of_le_length (by omega)] at hp
    have hsh : conf.length ≤ (key.drop q).length := by
      rw [List.length_drop]
      omega
    have hp' := List.prefix_of_prefix_length_le hp (List.prefix_append _ _) hsh
    exact hn (hp'.isInfix.trans (List.drop_suffix q key).isInfix)
  · simp [strstr_concat hs, infix_of_strstr hs]

theorem stop_selects_iff (hk : key.length ≤ keyMaxLength) (hnu : 0 ∉ key) :
    (∀ g, keyHashFilterStop g conf key = some (selected .stop conf key)) ↔
      Harmless .stop conf key := by
  have hcu : ∀ g, cString (key ++ [g]) = if g = 0 then key else key ++ [g] := by
    intro g
    rw [cString,
      List.takeWhile_append_of_pos fun c hc => bne_iff_ne.mpr (ne_of_mem_of_not_mem hc hnu)]
    split_ifs with hg <;> simp [hg]
  simp only [keyHashFilterStop, if_neg (not_lt.mpr hk), Harmless, selected]
  obtain hlt | heq := hk.lt_or_eq
  · simp only [if_neg (show ¬key.length + 1 ≥ keyMaxLength + 1 by omega), hlt, true_and,
      Option.some.injEq, Prod.mk.injEq, hcu]
    constructor
    · intro h hle hs
      have hn : cString conf ≠ [] := List.length_pos_iff.mp (by omega)
      have ha := List.all_takeWhile (p := fun c : UInt8 => c != 0) (l := conf)
      have hl := bne_iff_ne.mp (List.all_eq_true.mp ha _ (List.getLast_mem hn))
      have hg := h ((cString conf).getLast hn)
      rw [if_neg hl, strstr_concat_iff] at hg
      exact hg hle (List.suffix_concat_iff.mpr
        (.inr ⟨_, (List.dropLast_concat_getLast hn).symm, hs⟩))
    intro h g
    by_cases hg : g = 0
    · rw [if_pos hg]
    rw [if_neg hg, strstr_concat_iff]
    intro hle he
    obtain hni | ⟨t, ht, hs⟩ := List.suffix_concat_iff.mp he
    · simp [hni] at hle
    · exact h hle (by simpa [ht] using hs)
  · simp [heq]

/-! ## The tags -/

theorem findIdx?_eq_zero {c : UInt8} (s : Bytes) :
    s.findIdx? (· == c) = some 0 ↔ s.head? = some c := by
  cases s with
  | nil => simp
  | cons a s =>
    by_cases h : a = c <;> simp [List.findIdx?_cons, h]

theorem tag_selects_iff (hk : key.length ≤ keyMaxLength) :
    keyHashFilterTag conf key = selected .tag conf key ↔ Harmless .tag conf key := by
  unfold keyMaxLength at hk
  simp only [keyHashFilterTag, selected, Harmless]
  generalize conf.getD 0 0 = o
  generalize conf.getD 1 0 = c
  rcases hf : key.findIdx? (· == o) with _ | t1
  · simp
  obtain ⟨hlt, ho, -⟩ := List.findIdx?_eq_some_iff_getElem.mp hf
  simp only [Option.some.injEq, forall_eq']
  by_cases hl : t1 + 1 < key.length
  · rw [if_pos (by omega), List.drop_eq_getElem_cons hlt, List.findIdx?_cons, beq_iff_eq.mp ho,
      ← List.head?_drop]
    simp only [hl, true_imp_iff, ne_eq, ← findIdx?_eq_zero]
    rcases hn : (key.drop (t1 + 1)).findIdx? (· == c) with _ | d
    · by_cases hs : o = c <;> simp [hs]
    have hd := (List.findIdx?_eq_some_iff_getElem.mp hn).1
    rw [List.length_drop] at hd
    by_cases hs : o = c <;> rcases d with _ | d <;> simp [hs]
    · omega
    · omega
  · rw [if_neg (by omega), List.drop_of_length_le (by omega)]
    simp [hl]

theorem selected_le (f : Filter) :
    (selected f conf key).1 + (selected f conf key).2 ≤ key.length := by
  cases f with
  | stop =>
    rcases hs : strstr (cString conf) key with _ | p
    · simp [selected, hs]
    have := strstr_le hs
    simp only [selected, hs, Option.getD_some]
    omega
  | tag =>
    simp only [selected]
    split
    · simp
    split
    · rename_i hd
      have := (List.findIdx?_eq_some_iff_getElem.mp hd).1
      rw [List.length_drop] at this
      omega
    · simp

/-- **What the filters select.** For every key and configured string the filter selects what it
should, from the key alone, if and only if the string is harmless for the key. -/
theorem key_filter_selects_iff (f : Filter) (conf : Bytes) (hkey : key.length ≤ keyMaxLength)
    (hnul : 0 ∉ key) : Selects f conf key ↔ Harmless f conf key := by
  refine (and_iff_right (selected_le f)).trans ?_
  cases f with
  | stop => exact stop_selects_iff hkey hnul
  | tag => exact tag_selects_iff hkey

theorem key_filter_selects_iff_tags :
    Selects .tag (ascii "{}") (ascii "a{b}c") ↔ Harmless .tag (ascii "{}") (ascii "a{b}c") :=
  key_filter_selects_iff .tag _ (by decide) (by decide)

/-- With the tags `$$` the length is `2 ^ 64 - 1`, and with the stop string `|#` the key `ab|`
loses its last byte if a `#` is on the stack behind it. -/
theorem equal_tags_and_stack_byte :
    keyHashFilterTag (ascii "$$") (ascii "a$b$c") = (2, 2 ^ 64 - 1) ∧
      keyHashFilterStop 35 (ascii "|#") (ascii "ab|") = some (0, 2) ∧
      ¬Selects .tag (ascii "$$") (ascii "a$b$c") ∧ ¬Selects .stop (ascii "|#") (ascii "ab|") :=
  ⟨by decide, by decide, fun h => absurd h.2 (by decide), fun h => absurd (h.2 35) (by decide)⟩

end Memcached.Proxy.KeyFilter
