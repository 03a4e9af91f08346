import Memcached.Slabs.Model
import Memcached.Util.Numbers
import Mathlib.Order.Bounds.Basic

/-!
# The slab classes (`slabs_init`, `slabs_clsid` in `slabs.c`)

The option `slab_sizes` gives the chunk sizes of the slab classes as a text such
as `96-200-1000`. `_parse_slab_sizes` (`memcached.c`) reads it, `slabs_init`
rounds every size up and appends a class of chunks of `slab_chunk_size_max`
bytes, and `slabs_clsid` looks for the class of an item from the smallest on.

Main result: `classes_right_iff`. The parser keeps requested sizes more than
`CHUNK_ALIGN_BYTES` apart from each other, but not from the class appended to
them: a last size within 7 bytes of `slab_chunk_size_max` is rounded up to it,
and the two largest classes have the same size. The rest holds in any case.
-/

namespace Memcached.Slabs.Classes

open Memcached.Util

def maxNumberOfSlabClasses : ℕ := 64

/-- `settings.slab_page_size`, which no option changes. -/
def slabPageSize : ℕ := 1024 * 1024

structure ClassSettings where
  chunkSize : ℕ
  slabChunkSizeMax : ℕ
  itemSizeMax : ℕ

/-- What `main` checks before it calls `slabs_init`, and the sizes of chunks are aligned. -/
structure ClassSettings.Checked (S : ClassSettings) : Prop where
  chunk : 8 ∣ S.chunkSize
  max : 8 ∣ S.slabChunkSizeMax
  item : S.slabChunkSizeMax ≤ S.itemSizeMax
  page : slabPageSize % S.slabChunkSizeMax = 0

/-- `strtok_r(s, "-", &b)` until it returns `NULL`: empty words are skipped. -/
def sizeWords (s : Bytes) : List Bytes := (s.splitOn 45).filter (· ≠ [])

/-- The loop of `_parse_slab_sizes`, after `i` sizes. -/
def parseSizeWords (S : ClassSettings) (i last : ℕ) : List Bytes → Option (List ℕ)
  | [] => some []
  | p :: ps =>
    match safeStrtoul p with
    | none => none
    | some size =>
      if size < S.chunkSize ∨ size > S.slabChunkSizeMax then none
      else if last ≥ size then none
      else if size ≤ (last + chunkAlignBytes) % 2 ^ 32 then none
      else if i + 1 ≥ maxNumberOfSlabClasses - 1 then none
      else (parseSizeWords S (i + 1) size ps).map (size :: ·)

/-- `_parse_slab_sizes` (`memcached.c`, lines 5081-5117): the array up to its final 0. -/
def parseSlabSizes (S : ClassSettings) (s : Bytes) : Option (List ℕ) :=
  if s.length < 1 then none else parseSizeWords S 0 0 (sizeWords s)

/-- The part of `slabclass_t` that is set at the start. -/
structure ChunkClass where
  size : ℕ
  perslab : ℕ
  deriving DecidableEq

/-- A class of chunks of the given size. -/
def ChunkClass.ofSize (size : ℕ) : ChunkClass := ⟨size, slabPageSize / size⟩

/-- The loop of `slabs_init` over `slab_sizes`, from class `i` on, and the class after it. Sizes
are rounded as in `memory_allocate`. -/
def initClasses (S : ClassSettings) (i : ℕ) : List ℕ → List ChunkClass
  | [] => [.ofSize S.slabChunkSizeMax]
  | size :: sizes =>
    if i < maxNumberOfSlabClasses - 1 then
      .ofSize (alignSize size) :: initClasses S (i + 1) sizes
    else [.ofSize S.slabChunkSizeMax]

/-- `slabs_init` (lines 247-277): the classes from 1 to `power_largest`. -/
def slabsInit (S : ClassSettings) (sizes : List ℕ) : List ChunkClass := initClasses S 1 sizes

/-- The loop of `slabs_clsid`, at class `res`; past the last class it is `power_largest`. -/
def scanClasses (n res : ℕ) : List ChunkClass → ℕ
  | [] => res - 1
  | c :: cs => if n > c.size then scanClasses n (res + 1) cs else res

/-- `slabs_clsid` (lines 90-99) -/
def slabsClsid (S : ClassSettings) (classes : List ChunkClass) (n : ℕ) : ℕ :=
  if n = 0 ∨ n > S.itemSizeMax then 0 else scanClasses n 1 classes

/-! ## The parser -/

/-- Accepted sizes are spaced by more than the alignment, bounded, and at most 62. -/
theorem parseSizeWords_spaced {S : ClassSettings} (hS : S.slabChunkSizeMax ≤ slabPageSize)
    {ps : List Bytes} {i last : ℕ} {sizes : List ℕ} (hl : last ≤ slabPageSize) (hi : i ≤ 62)
    (h : parseSizeWords S i last ps = some sizes) :
    (last :: sizes).Pairwise (fun a b => a + 8 < b) ∧
      (∀ s ∈ sizes, s ≤ S.slabChunkSizeMax) ∧ i + sizes.length ≤ 62 := by
  induction ps generalizing i last sizes with
  | nil =>
    cases h
    exact ⟨List.pairwise_singleton _ _, by simp, by simpa using hi⟩
  | cons p ps ih =>
    simp only [parseSizeWords] at h
    split at h
    · cases h
    rename_i size _
    split_ifs at h with h1 h2 h3 h4
    obtain ⟨rest, hr, rfl⟩ := Option.map_eq_some_iff.mp h
    -- the sum in the comparison does not wrap around: no size is larger than a page
    have hw : last + chunkAlignBytes < 2 ^ 32 := by
      simp only [slabPageSize, chunkAlignBytes] at hl ⊢
      omega
    rw [Nat.mod_eq_of_lt hw] at h3
    simp only [maxNumberOfSlabClasses, chunkAlignBytes] at h3 h4
    obtain ⟨hp, hm, hn⟩ := ih (by omega) (by omega) hr
    refine ⟨List.pairwise_cons.mpr ⟨?_, hp⟩, ?_, by simp only [List.length_cons]; omega⟩
    · intro b hb
      obtain rfl | hb := List.mem_cons.mp hb
      · omega
      · have := (List.pairwise_cons.mp hp).1 b hb
        omega
    · exact List.forall_mem_cons.mpr ⟨by omega, hm⟩

/-! ## The classes -/

theorem alignSize_isLeast (s : ℕ) : IsLeast {m | 8 ∣ m ∧ s ≤ m} (alignSize s) := by
  unfold alignSize chunkAlignBytes
  refine ⟨⟨?_, ?_⟩, ?_⟩
  · split_ifs <;> omega
  · split_ifs <;> omega
  · rintro m ⟨hm, hs⟩
    split_ifs <;> omega

theorem alignSize_lt (s : ℕ) : alignSize s < s + 8 := by
  unfold alignSize chunkAlignBytes
  split_ifs <;> omega

theorem initClasses_eq (S : ClassSettings) {sizes : List ℕ} {i : ℕ} (h : i + sizes.length ≤ 63) :
    initClasses S i sizes =
      (sizes.map alignSize ++ [S.slabChunkSizeMax]).map ChunkClass.ofSize := by
  induction sizes generalizing i with
  | nil => rfl
  | cons s sizes ih =>
    simp only [List.length_cons] at h
    rw [initClasses, if_pos (by simp only [maxNumberOfSlabClasses]; omega), ih (by omega)]
    rfl

/-- The scan stops at the first class that is large enough, or past the last one. -/
theorem scanClasses_spec (n res : ℕ) (cs : List ChunkClass) :
    (∃ i c, scanClasses n res cs = res + i ∧ cs[i]? = some c ∧ n ≤ c.size ∧
        ∀ j < i, ∀ c', cs[j]? = some c' → c'.size < n) ∨
      (∀ c ∈ cs, c.size < n) ∧ scanClasses n res cs = res + cs.length - 1 := by
  induction cs generalizing res with
  | nil => exact .inr ⟨by simp, rfl⟩
  | cons c cs ih =>
    rw [scanClasses]
    split_ifs with hc
    · obtain ⟨i, d, hi, hd, hn, hj⟩ | ⟨ha, hl⟩ := ih (res + 1)
      · refine .inl ⟨i + 1, d, by omega, hd, hn, ?_⟩
        rintro (_ | j) hlt c' hc'
        · cases hc'
          exact hc
        · exact hj j (by omega) c' hc'
      · refine .inr ⟨List.forall_mem_cons.mpr ⟨hc, ha⟩, ?_⟩
        rw [hl, List.length_cons]
        omega
    · exact .inl ⟨0, c, rfl, rfl, by omega, by omega⟩

/-- What the classes made of the requested sizes are meant to be. -/
structure RightClasses (S : ClassSettings) (sizes : List ℕ) (classes : List ChunkClass) :
    Prop where
  increasing : (classes.map ChunkClass.size).Pairwise (· < ·)
  aligned : ∀ c ∈ classes, 8 ∣ c.size
  rounded : ∀ i s : ℕ, sizes[i]? = some s →
    ∃ c : ChunkClass, classes[i]? = some c ∧ IsLeast {m | 8 ∣ m ∧ s ≤ m} c.size
  last : classes.length = sizes.length + 1 ∧
    ∃ c, classes[sizes.length]? = some c ∧ c.size = S.slabChunkSizeMax
  perslab : ∀ c ∈ classes, 1 ≤ c.perslab
  smallest : ∀ n, 1 ≤ n → n ≤ S.slabChunkSizeMax →
    ∃ i c, slabsClsid S classes n = i + 1 ∧ classes[i]? = some c ∧ n ≤ c.size ∧
      ∀ j < i, ∀ c', classes[j]? = some c' → c'.size < n
  largest : ∀ n, S.slabChunkSizeMax < n → n ≤ S.itemSizeMax →
    slabsClsid S classes n = classes.length
  refused : ∀ n, n = 0 ∨ S.itemSizeMax < n → slabsClsid S classes n = 0

section Accepted

variable {S : ClassSettings} (hS : S.Checked) {text : Bytes} {sizes : List ℕ}

include hS

theorem ClassSettings.Checked.max_le :
    0 < S.slabChunkSizeMax ∧ S.slabChunkSizeMax ≤ slabPageSize := by
  have hp : 0 < slabPageSize := by simp only [slabPageSize]; omega
  have hd : S.slabChunkSizeMax ∣ slabPageSize := Nat.dvd_of_mod_eq_zero hS.page
  exact ⟨Nat.pos_of_dvd_of_pos hd hp, Nat.le_of_dvd hp hd⟩

theorem parseSlabSizes_spaced (h : parseSlabSizes S text = some sizes) :
    (0 :: sizes).Pairwise (fun a b => a + 8 < b) ∧
      (∀ s ∈ sizes, s ≤ S.slabChunkSizeMax) ∧ 0 + sizes.length ≤ 62 := by
  unfold parseSlabSizes at h
  split_ifs at h
  exact parseSizeWords_spaced hS.max_le.2 (Nat.zero_le _) (Nat.zero_le _) h

theorem slabsInit_eq (h : parseSlabSizes S text = some sizes) :
    slabsInit S sizes = (sizes.map alignSize ++ [S.slabChunkSizeMax]).map ChunkClass.ofSize := by
  have := (parseSlabSizes_spaced hS h).2.2
  exact initClasses_eq S (by omega)

theorem mem_slabsInit (h : parseSlabSizes S text = some sizes) {c : ChunkClass}
    (hc : c ∈ slabsInit S sizes) :
    8 ∣ c.size ∧ c.size ≤ S.slabChunkSizeMax ∧ 1 ≤ c.perslab := by
  obtain ⟨hz, hm, -⟩ := parseSlabSizes_spaced hS h
  obtain ⟨h0, hM⟩ := hS.max_le
  suffices hb : 8 ∣ c.size ∧ 0 < c.size ∧ c.size ≤ S.slabChunkSizeMax ∧ c = .ofSize c.size by
    obtain ⟨h8, hp, hle, he⟩ := hb
    rw [he]
    exact ⟨h8, hle, (Nat.one_le_div_iff hp).mpr (hle.trans hM)⟩
  rw [slabsInit_eq hS h] at hc
  obtain ⟨m, hm', rfl⟩ := List.mem_map.mp hc
  obtain hm' | hm' := List.mem_append.mp hm'
  · obtain ⟨s, hs, rfl⟩ := List.mem_map.mp hm'
    obtain ⟨⟨h8, hle⟩, hl⟩ := alignSize_isLeast s
    have := (List.pairwise_cons.mp hz).1 s hs
    exact ⟨h8, Nat.lt_of_lt_of_le (by omega) hle, hl ⟨hS.max, hm s hs⟩, rfl⟩
  · obtain rfl := List.mem_singleton.mp hm'
    exact ⟨hS.max, h0, le_rfl, rfl⟩

theorem slabsInit_increasing_iff (h : parseSlabSizes S text = some sizes) :
    ((slabsInit S sizes).map ChunkClass.size).Pairwise (· < ·) ↔
      ∀ s ∈ sizes, s + 8 ≤ S.slabChunkSizeMax := by
  have hid : ChunkClass.size ∘ ChunkClass.ofSize = id := rfl
  rw [slabsInit_eq hS h, List.map_map, hid, List.map_id, List.pairwise_append, List.pairwise_map]
  constructor
  -- two multiples of 8 that differ are 8 apart
  · rintro ⟨-, -, hlt⟩ s hs
    have := hlt _ (List.mem_map_of_mem hs) _ (List.mem_singleton.mpr rfl)
    obtain ⟨h8, hle⟩ := (alignSize_isLeast s).1
    have := hS.max
    omega
  · intro hle
    have hc := (List.pairwise_cons.mp (parseSlabSizes_spaced hS h).1).2
    -- rounding adds less than the distance that the parser asks for
    refine ⟨hc.imp ?_, List.pairwise_singleton _ _, ?_⟩
    · intro a b hab
      have := alignSize_lt a
      have := (alignSize_isLeast b).1.2
      omega
    · intro a ha b hb
      obtain ⟨s, hs, rfl⟩ := List.mem_map.mp ha
      obtain rfl := List.mem_singleton.mp hb
      have := alignSize_lt s
      have := hle s hs
      omega

end Accepted

/-- For an accepted text the classes are right if and only if no requested size is
so close to `slab_chunk_size_max` that rounding it up reaches that size. -/
theorem classes_right_iff {S : ClassSettings} (hS : S.Checked) (text : Bytes) {sizes : List ℕ}
    (h : parseSlabSizes S text = some sizes) :
    RightClasses S sizes (slabsInit S sizes) ↔ ∀ s ∈ sizes, s + 8 ≤ S.slabChunkSizeMax := by
  have he := slabsInit_eq hS h
  have hl : (slabsInit S sizes)[sizes.length]? = some (.ofSize S.slabChunkSizeMax) := by
    rw [he]
    simp
  rw [← slabsInit_increasing_iff hS h]
  refine ⟨fun hr => hr.increasing, fun hi => ⟨hi, fun c hc => (mem_slabsInit hS h hc).1, ?_,
    ⟨?_, _, hl, rfl⟩, fun c hc => (mem_slabsInit hS h hc).2.2, ?_, ?_, fun n hn => if_pos hn⟩⟩
  · intro i s hs
    refine ⟨.ofSize (alignSize s), ?_, alignSize_isLeast s⟩
    have hlt := (List.getElem?_eq_some_iff.mp hs).1
    rw [he, List.getElem?_map, List.getElem?_append_left (by simpa using hlt),
      List.getElem?_map, hs]
    rfl
  · rw [he]
    simp only [List.length_map, List.length_append, List.length_singleton]
  · intro n h1 h2
    have := hS.item
    rw [slabsClsid, if_neg (by omega)]
    obtain ⟨i, c, hi, hc, hn⟩ | ⟨ha, -⟩ := scanClasses_spec n 1 (slabsInit S sizes)
    · exact ⟨i, c, by omega, hc, hn⟩
    · -- the last class is large enough
      exact absurd (ha _ (List.mem_of_getElem? hl)) (Nat.not_lt.mpr h2)
  · intro n h1 h2
    rw [slabsClsid, if_neg (by omega)]
    obtain ⟨i, c, -, hc, hn, -⟩ | ⟨-, hs⟩ := scanClasses_spec n 1 (slabsInit S sizes)
    · have := (mem_slabsInit hS h (List.mem_of_getElem? hc)).2.1
      omega
    · omega

/-- The settings of a server started without options. -/
def ClassSettings.defaults : ClassSettings := ⟨48, 524288, 1048576⟩

theorem ClassSettings.defaults_checked : ClassSettings.defaults.Checked :=
  ⟨by decide, by decide, by decide, rfl⟩

/-- `slab_sizes=96-105` -/
theorem classes_right_iff_two :
    RightClasses .defaults [96, 105] (slabsInit .defaults [96, 105]) ↔
      ∀ s ∈ [96, 105], s + 8 ≤ ClassSettings.defaults.slabChunkSizeMax :=
  classes_right_iff ClassSettings.defaults_checked [57, 54, 45, 49, 48, 53] (by decide)

/-- `slab_sizes=524281` is accepted and makes two classes of 524288 bytes. -/
theorem largest_class_repeated :
    ClassSettings.defaults.Checked ∧
      parseSlabSizes .defaults [53, 50, 52, 50, 56, 49] = some [524281] ∧
      ¬ RightClasses .defaults [524281] (slabsInit .defaults [524281]) := by
  refine ⟨ClassSettings.defaults_checked, by decide, ?_⟩
  intro hr
  have := hr.increasing
  revert this
  decide

end Memcached.Slabs.Classes
