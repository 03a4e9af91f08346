import Memcached.Lib.Run
import Mathlib.Data.Finset.Card

/-!
# The object cache (`cache.c`)

A cache keeps freed objects in a list and hands them out again. With a limit it allocates no
object that would make the total larger, and gives objects back to the C library while the total
is larger, which happens when the limit was lowered.

Results:
* `cache_bookkeeping`: the counters are right, and the total respects the limit
-/

namespace Memcached.Util

open Lib

/-! ## Model -/

/-- `cache_t`, with the objects of the free list. -/
structure Cache where
  head : List ℕ
  total : ℕ
  freecurr : ℕ
  limit : ℤ

/-- `cache_create` (lines 18-39) -/
def cacheCreate : Cache := ⟨[], 0, 0, 0⟩

/-- `do_cache_alloc` (lines 75-110) with what `malloc` would return; the object, or nothing. -/
def doCacheAlloc (c : Cache) (malloc : Option ℕ) : Cache × Option ℕ :=
  if 0 < c.freecurr then
    ({ c with head := c.head.tail, freecurr := c.freecurr - 1 }, c.head.head?)
  else if c.limit = 0 ∨ (c.total : ℤ) < c.limit then
    match malloc with
    | some p => ({ c with total := c.total + 1 }, some p)
    | none => (c, none)
  else (c, none)

/-- `do_cache_free` (lines 118-143) -/
def doCacheFree (c : Cache) (ptr : ℕ) : Cache :=
  if c.limit ≠ 0 ∧ c.limit < c.total then { c with total := c.total - 1 }
  else { c with head := ptr :: c.head, freecurr := c.freecurr + 1 }

/-- `cache_set_limit` (lines 41-45) -/
def cacheSetLimit (c : Cache) (limit : ℤ) : Cache := { c with limit := limit }

structure CacheUse where
  cache : Cache
  out : Finset ℕ

inductive CacheCall where
  | alloc (malloc : Option ℕ)
  | free (ptr : ℕ)
  | setLimit (limit : ℤ)

/-- The calls. `malloc` returns memory that is not in use, and what is freed was handed out. -/
def cacheSystem : System CacheUse CacheCall Unit where
  init s := s = ⟨cacheCreate, ∅⟩
  step s
    | .alloc malloc =>
      if ∀ p ∈ malloc, p ∉ s.cache.head ∧ p ∉ s.out then
        let r := doCacheAlloc s.cache malloc
        some (⟨r.1, r.2.elim s.out (insert · s.out)⟩, ())
      else none
    | .free ptr =>
      if ptr ∈ s.out then some (⟨doCacheFree s.cache ptr, s.out.erase ptr⟩, ()) else none
    | .setLimit limit => some ({ s with cache := cacheSetLimit s.cache limit }, ())

/-! ## The counters -/

structure CacheUse.Kept (s : CacheUse) : Prop where
  total : s.cache.total = s.cache.freecurr + s.out.card
  freecurr : s.cache.freecurr = s.cache.head.length
  nodup : s.cache.head.Nodup
  apart : ∀ p ∈ s.cache.head, p ∉ s.out

variable {s t : CacheUse} {ptr : ℕ}

theorem CacheUse.Kept.alloc (h : s.Kept) {malloc : Option ℕ}
    (hm : ∀ p ∈ malloc, p ∉ s.cache.head ∧ p ∉ s.out) :
    CacheUse.Kept ⟨(doCacheAlloc s.cache malloc).1,
      (doCacheAlloc s.cache malloc).2.elim s.out (insert · s.out)⟩ := by
  obtain ⟨⟨head, total, freecurr, limit⟩, out⟩ := s
  obtain ⟨ht, hc, hn, ha⟩ := h
  simp only at ht hc hn ha hm
  unfold doCacheAlloc
  split_ifs with hf hl
  -- an object of the free list changes hands, or `malloc` is asked
  · cases head with
    | nil => simp [hc] at hf
    | cons p head =>
      simp only [List.length_cons] at hc
      obtain ⟨hp, hn⟩ := List.nodup_cons.mp hn
      have ho : p ∉ out := ha p (.head _)
      refine ⟨?_, ?_, hn, fun q hq => ?_⟩
      · simp [ho]
        omega
      · simp [hc]
      · have hne : q ≠ p := fun he => hp (he ▸ hq)
        simpa [hne] using ha q (.tail _ hq)
  · cases malloc with
    | none => exact ⟨ht, hc, hn, ha⟩
    | some p =>
      obtain ⟨hh, ho⟩ := hm p rfl
      refine ⟨?_, hc, hn, fun q hq => ?_⟩
      · simp [ho]
        omega
      · have hne : q ≠ p := fun he => hh (he ▸ hq)
        simpa [hne] using ha q hq
  · exact ⟨ht, hc, hn, ha⟩

theorem CacheUse.Kept.free (h : s.Kept) (ho : ptr ∈ s.out) :
    CacheUse.Kept ⟨doCacheFree s.cache ptr, s.out.erase ptr⟩ := by
  have hc := Finset.card_erase_of_mem ho
  have hpo := Finset.card_pos.mpr ⟨ptr, ho⟩
  have ht := h.total
  unfold doCacheFree
  split_ifs with hov
  · exact ⟨by simp only; omega, h.freecurr, h.nodup,
      fun p hp => fun he => h.apart p hp (Finset.mem_of_mem_erase he)⟩
  · refine ⟨by simp only; omega, by simp [h.freecurr], ?_, fun p hp => ?_⟩
    · exact List.nodup_cons.mpr ⟨fun hp => h.apart ptr hp ho, h.nodup⟩
    · obtain rfl | hp := List.mem_cons.mp hp
      · exact Finset.notMem_erase p s.out
      · exact fun he => h.apart p hp (Finset.mem_of_mem_erase he)

theorem CacheUse.Kept.step {a : CacheCall} (h : s.Kept)
    (hs : cacheSystem.step s a = some (t, ())) : t.Kept := by
  cases a with
  | alloc malloc =>
    obtain ⟨hm, rfl, -⟩ := System.guarded_eq_some hs
    exact h.alloc hm
  | free ptr =>
    obtain ⟨ho, rfl, -⟩ := System.guarded_eq_some hs
    exact h.free ho
  | setLimit limit =>
    cases hs
    exact ⟨h.total, h.freecurr, h.nodup, h.apart⟩

/-! ## The limit -/

def FixedLimit (_ : CacheUse) (a : CacheCall) : Prop := ∀ limit, a ≠ .setLimit limit

/-- An object is allocated only below the limit. -/
theorem total_le_limit {a : CacheCall} {limit : ℤ} (hf : FixedLimit s a) (h0 : limit ≠ 0)
    (h : s.cache.limit = limit ∧ s.cache.total ≤ limit.toNat)
    (hs : cacheSystem.step s a = some (t, ())) :
    t.cache.limit = limit ∧ t.cache.total ≤ limit.toNat := by
  obtain ⟨rfl, hl⟩ := h
  cases a with
  | alloc malloc =>
    obtain ⟨-, rfl, -⟩ := System.guarded_eq_some hs
    unfold doCacheAlloc
    split_ifs with hfr hli
    · exact ⟨rfl, hl⟩
    · cases malloc with
      | none => exact ⟨rfl, hl⟩
      | some p =>
        refine ⟨rfl, ?_⟩
        show s.cache.total + 1 ≤ _
        omega
    · exact ⟨rfl, hl⟩
  | free ptr =>
    obtain ⟨-, rfl, -⟩ := System.guarded_eq_some hs
    unfold doCacheFree
    split_ifs
    · exact ⟨rfl, (Nat.sub_le _ _).trans hl⟩
    · exact ⟨rfl, hl⟩
  | setLimit limit => exact absurd rfl (hf limit)

/-- **The books of the cache** are right after every sequence of calls. From a state that is
within its limit on, in particular from the first limit of a new cache, no more objects are
handed out than the limit says, as long as it is not changed. -/
theorem cache_bookkeeping (h : cacheSystem.Reachable (fun _ _ => True) s) :
    s.Kept ∧ (s.cache.limit ≠ 0 → s.cache.total ≤ s.cache.limit.toNat →
      ∀ l t, cacheSystem.Steps FixedLimit s l t → t.out.card ≤ s.cache.limit.toNat) := by
  have hk : s.Kept := by
    refine h.induct ?_ fun hk _ hs => hk.step hs
    rintro s rfl
    exact ⟨rfl, rfl, List.nodup_nil, by simp [cacheCreate]⟩
  refine ⟨hk, fun h0 hle l t hl => ?_⟩
  have ht : t.Kept := hl.induct hk fun hk _ hs => hk.step hs
  have hli : t.cache.limit = s.cache.limit ∧ t.cache.total ≤ s.cache.limit.toNat :=
    hl.induct ⟨rfl, hle⟩ fun h hf hs => total_le_limit hf h0 h hs
  have hto := ht.total
  omega

theorem cache_bookkeeping_two : CacheUse.Kept ⟨cacheSetLimit cacheCreate 2, ∅⟩ ∧
    ∀ l t, cacheSystem.Steps FixedLimit ⟨cacheSetLimit cacheCreate 2, ∅⟩ l t → t.out.card ≤ 2 := by
  have hn : cacheSystem.Reachable (fun _ _ => True) ⟨cacheSetLimit cacheCreate 2, ∅⟩ :=
    (System.Reachable.of_init rfl).tail (a := .setLimit 2) trivial rfl
  obtain ⟨hk, hl⟩ := cache_bookkeeping hn
  exact ⟨hk, hl (by decide) (by decide)⟩

end Memcached.Util
