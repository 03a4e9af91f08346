import Memcached.Items.ChunkCopy

/-!
# Chunks for an item that is read back (`storage.c`, `items.c`)

`storage_get_item` allocates the chunks of a large item before its record is read. It keeps
the number of bytes without a chunk in a `size_t` and takes the room of each new chunk from
it. When there is no memory in the class of the last chunk, `do_item_alloc_chunk` gives a
chunk of the largest size, and the number wraps around.

Results:
* `fetchLoop_terminates`: the loop ends
* `allocates_exactly_iff`: when the chunks have room for the item and no more
* `last_chunk_wraps`: a chunk that is too large
-/

namespace Memcached.Storage.ReadBack

open Lib Items

def iovMax : ℕ := 1024

/-! ## The loop -/

/-- `do_item_alloc_chunk` (`items.c`, lines 221-260) with its arithmetic of 64 bits: the room of
the new chunk. A room below zero is converted to `size_t` where the loop uses it. -/
def allocChunkSize (max bytesRemain : ℕ) (room : Bool × Bool) : Option ℕ :=
  let size := min ((bytesRemain + 48) % 2 ^ 64) max
  if room.1 then some ((size + 2 ^ 64 - 48) % 2 ^ 64)
  else if size = max then none
  else if room.2 then some (max - 48)
  else none

/-- An entry of the iovec and the chunk that it is for: `iov_len`, and `used`, of the type
`int`. -/
structure Entry where
  iovLen : ℕ
  used : ℕ
deriving DecidableEq

inductive Fetched where
  | done (entries : List Entry)
  | noMemory (entries : List Entry)
  | tooMany (entries : List Entry)
  | outOfFuel
deriving DecidableEq

/-- The loop of `storage_get_item` (lines 299-316). `ciovcnt` is one more than the
number of the entries, for the header of the item. -/
def fetchLoop (max : ℕ) (room : ℕ → Bool × Bool) :
    (fuel : ℕ) → (entries : List Entry) → (remain : ℕ) → Fetched
  | fuel, entries, remain =>
    if remain = 0 then .done entries
    else
      match fuel with
      | 0 => .outOfFuel
      | fuel + 1 =>
        match allocChunkSize max remain (room entries.length) with
        | none => .noMemory entries
        | some size =>
          if entries.length + 1 > iovMax - 1 then .tooMany entries
          else
            let len := if remain < size then remain else size
            fetchLoop max room fuel (entries ++ [⟨len, len % 2 ^ 32⟩])
              ((remain + 2 ^ 64 - size) % 2 ^ 64)

def storageGetChunks (max : ℕ) (room : ℕ → Bool × Bool) (nbytes : ℕ) : Fetched :=
  fetchLoop max room iovMax [] nbytes

theorem fetchLoop_zero (max : ℕ) (room : ℕ → Bool × Bool) (fuel : ℕ) (entries : List Entry) :
    fetchLoop max room fuel entries 0 = .done entries := by
  unfold fetchLoop
  exact if_pos rfl

variable {max : ℕ} {entries : List Entry}

theorem fetchLoop_succ {room : ℕ → Bool × Bool} {fuel : ℕ} {remain : ℕ} (h : remain ≠ 0) :
    fetchLoop max room (fuel + 1) entries remain =
      match allocChunkSize max remain (room entries.length) with
      | none => .noMemory entries
      | some size =>
        if entries.length + 1 > iovMax - 1 then .tooMany entries
        else
          let len := if remain < size then remain else size
          fetchLoop max room fuel (entries ++ [⟨len, len % 2 ^ 32⟩])
            ((remain + 2 ^ 64 - size) % 2 ^ 64) := by
  rw [fetchLoop, if_neg h]

theorem fetchLoop_terminates (max : ℕ) (room : ℕ → Bool × Bool) (fuel : ℕ) (entries : List Entry)
    (remain : ℕ) (hf : iovMax ≤ fuel + entries.length) (hl : entries.length < iovMax) :
    fetchLoop max room fuel entries remain ≠ .outOfFuel := by
  induction fuel generalizing entries remain with
  | zero => omega
  | succ fuel ih =>
    obtain rfl | hp := Nat.eq_zero_or_pos remain
    · rw [fetchLoop_zero]
      simp
    rw [fetchLoop_succ (by omega)]
    obtain _ | size := allocChunkSize max remain (room entries.length)
    · simp
    simp only
    by_cases hm : entries.length + 1 > iovMax - 1
    · rw [if_pos hm]
      simp
    rw [if_neg hm]
    refine ih _ _ ?_ ?_
    · rw [List.length_append, List.length_singleton]
      omega
    · rw [List.length_append, List.length_singleton]
      omega

/-! ## Specification -/

def total (entries : List Entry) : ℕ := (entries.map Entry.iovLen).sum

def needed (max nbytes : ℕ) : ℕ :=
  nbytes / (max - 48) + if nbytes % (max - 48) = 0 then 0 else 1

/-- The entries are for all bytes and the chunks know it, or there was no memory for a part of
the bytes, or too many chunks are needed. -/
def AllocatesExactly (max nbytes : ℕ) : Fetched → Prop
  | .done entries => total entries = nbytes ∧ ∀ e ∈ entries, e.used = e.iovLen
  | .noMemory entries => total entries < nbytes
  | .tooMany _ => needed max nbytes > iovMax - 1
  | .outOfFuel => False

/-- From the chunk `n` on there are `q` full chunks and one for `r` bytes: all are allocated,
the last one with the largest size in place of its own. -/
def LargerLast (room : ℕ → Bool × Bool) (n q r : ℕ) : Prop :=
  r ≠ 0 ∧ n + q < iovMax - 1 ∧ (∀ i < q, (room (n + i)).1 = true) ∧
    (room (n + q)).1 = false ∧ (room (n + q)).2 = true

theorem largerLast_succ (room : ℕ → Bool × Bool) (n q r : ℕ) :
    LargerLast room n (q + 1) r ↔ (room n).1 = true ∧ LargerLast room (n + 1) q r := by
  have hid : ∀ i, n + 1 + i = n + (i + 1) := fun i => by omega
  unfold LargerLast
  simp only [hid]
  constructor
  · rintro ⟨hr, hlt, ha, hl⟩
    exact ⟨ha 0 (by omega), hr, hlt, fun i hi => ha (i + 1) (by omega), hl⟩
  rintro ⟨hf, hr, hlt, ha, hl⟩
  refine ⟨hr, hlt, fun i hi => ?_, hl⟩
  cases i with
  | zero => exact hf
  | succ i => exact ha i (by omega)

/-! ## Rounds of the loop -/

theorem total_append (entries : List Entry) (e : Entry) :
    total (entries ++ [e]) = total entries + e.iovLen := by
  simp [total]

theorem allocChunkSize_full {max remain : ℕ} (hm : 48 < max) (hint : max < 2 ^ 31)
    (hr : remain < 2 ^ 31) (hf : max - 48 ≤ remain) (room : Bool × Bool) :
    allocChunkSize max remain room = if room.1 then some (max - 48) else none := by
  have hs : min ((remain + 48) % 2 ^ 64) max = max := by omega
  simp only [allocChunkSize, hs, if_true]
  split_ifs
  · exact congrArg some (by omega)
  · rfl

theorem allocChunkSize_last {max remain : ℕ} (hint : max < 2 ^ 31)
    (hl : remain < max - 48) (room : Bool × Bool) :
    allocChunkSize max remain room =
      if room.1 then some remain else if room.2 then some (max - 48) else none := by
  have hs : min ((remain + 48) % 2 ^ 64) max = remain + 48 := by omega
  simp only [allocChunkSize, hs]
  rw [if_neg (show ¬remain + 48 = max by omega)]
  split_ifs
  · exact congrArg some (by omega)
  · rfl
  · rfl

theorem allocChunkSize_bounds {max remain size : ℕ} {room : Bool × Bool} (hm : 48 < max)
    (hr : remain ≠ 0) (hl : remain < 2 ^ 64) (hint : max < 2 ^ 31)
    (h : allocChunkSize max remain room = some size) : 0 < size ∧ (size ≤ remain ∨ size ≤ max) := by
  unfold allocChunkSize at h
  simp only at h
  split_ifs at h
  · obtain rfl := Option.some.inj h
    omega
  · cases h
    omega

theorem fetchLoop_wrapped (hma : 48 < max) (hint : max < 2 ^ 31)
    (room : ℕ → Bool × Bool) {nbytes : ℕ} (hn : needed max nbytes ≤ iovMax - 1)
    (fuel : ℕ) {remain : ℕ} (hl : remain < 2 ^ 64)
    (ho : nbytes < total entries ∨ nbytes ≤ total entries ∧ remain ≠ 0) :
    ¬AllocatesExactly max nbytes (fetchLoop max room fuel entries remain) := by
  have hd : remain = 0 → ¬AllocatesExactly max nbytes (.done entries) := by
    rintro hz ⟨he, -⟩
    omega
  induction fuel generalizing entries remain with
  | zero =>
    unfold fetchLoop
    by_cases hz : remain = 0
    · rw [if_pos hz]
      exact hd hz
    · rw [if_neg hz]
      exact id
  | succ fuel ih =>
    by_cases hz : remain = 0
    · rw [hz, fetchLoop_zero]
      exact hd hz
    rw [fetchLoop_succ hz]
    rcases ha : allocChunkSize max remain (room entries.length) with _ | size
    · simp only [AllocatesExactly]
      omega
    simp only
    by_cases hm : entries.length + 1 > iovMax - 1
    · rw [if_pos hm]
      simp only [AllocatesExactly]
      omega
    rw [if_neg hm]
    have hs := allocChunkSize_bounds hma hz hl hint ha
    have hmo : nbytes < total (entries ++
        [⟨if remain < size then remain else size, (if remain < size then remain else size) %
          2 ^ 32⟩]) := by
      rw [total_append]
      simp only
      split_ifs <;> omega
    refine ih (Nat.mod_lt _ (by decide)) (.inl hmo) ?_
    rintro - ⟨he, -⟩
    omega

/-- A loop that comes to its end has entries for all bytes, or for nearly `2 ^ 64`, when the
number has wrapped around. -/
theorem fetchLoop_done (hma : 48 < max) (hint : max < 2 ^ 31)
    (room : ℕ → Bool × Bool) (fuel : ℕ) (entries : List Entry) {entries' : List Entry}
    {remain : ℕ} (hlt : remain < 2 ^ 64) (hu : ∀ e ∈ entries, e.used = e.iovLen % 2 ^ 32)
    (h : fetchLoop max room fuel entries remain = .done entries') :
    (total entries' = total entries + remain ∨ 2 ^ 64 - 2 ^ 31 ≤ total entries') ∧
      ∀ e ∈ entries', e.used = e.iovLen % 2 ^ 32 := by
  induction fuel generalizing entries remain with
  | zero =>
    unfold fetchLoop at h
    split_ifs at h with hz
    cases h
    exact ⟨.inl (by omega), hu⟩
  | succ fuel ih =>
    by_cases hz : remain = 0
    · rw [hz, fetchLoop_zero] at h
      cases h
      exact ⟨.inl (by omega), hu⟩
    rw [fetchLoop_succ hz] at h
    rcases ha : allocChunkSize max remain (room entries.length) with _ | size
    · rw [ha] at h
      cases h
    rw [ha] at h
    simp only at h
    by_cases hm : entries.length + 1 > iovMax - 1
    · rw [if_pos hm] at h
      cases h
    rw [if_neg hm] at h
    obtain ⟨ht, hal⟩ := ih _ (Nat.mod_lt _ (by decide))
      (List.forall_mem_append.mpr ⟨hu, List.forall_mem_singleton.mpr rfl⟩) h
    refine ⟨?_, hal⟩
    rw [total_append] at ht
    simp only at ht
    obtain ht | hl := ht
    · have hs := allocChunkSize_bounds hma hz hlt hint ha
      split_ifs at ht <;> omega
    · exact .inr hl

/-! ## Main result -/

theorem fetchLoop_exactly_iff (hma : 48 < max) (hint : max < 2 ^ 31)
    (room : ℕ → Bool × Bool) {nbytes q r : ℕ} (hr : r < max - 48) (hn : nbytes < 2 ^ 31)
    (fuel : ℕ) (entries : List Entry) (hf : iovMax ≤ fuel + entries.length)
    (hl : entries.length < iovMax) (ht : total entries + (q * (max - 48) + r) = nbytes)
    (hu : ∀ e ∈ entries, e.used = e.iovLen)
    (hne : needed max nbytes = entries.length + q + if r = 0 then 0 else 1) :
    AllocatesExactly max nbytes (fetchLoop max room fuel entries (q * (max - 48) + r)) ↔
      ¬LargerLast room entries.length q r := by
  obtain ⟨fuel, rfl⟩ : ∃ f, fuel = f + 1 := ⟨fuel - 1, by omega⟩
  induction q generalizing fuel entries with
  | zero =>
    rw [Nat.zero_mul, Nat.zero_add] at ht ⊢
    obtain rfl | hp := Nat.eq_zero_or_pos r
    · rw [fetchLoop_zero]
      exact iff_of_true ⟨by omega, hu⟩ fun h => h.1 rfl
    rw [if_neg (by omega)] at hne
    rw [fetchLoop_succ (by omega), allocChunkSize_last hint hr]
    rcases hro : room entries.length with ⟨_ | _, _ | _⟩
    · -- no memory at all
      refine iff_of_true ?_ fun h => ?_
      · show total entries < nbytes
        omega
      · simpa [hro] using h.2.2.2.2
    · -- a chunk of the largest size
      simp only [Bool.false_eq_true, if_false, if_true]
      by_cases hm : entries.length + 1 > iovMax - 1
      · rw [if_pos hm]
        refine iff_of_true ?_ fun h => ?_
        · show needed max nbytes > iovMax - 1
          omega
        · have := h.2.1
          omega
      · rw [if_neg hm, if_pos hr]
        refine iff_of_false (fetchLoop_wrapped hma hint room (by omega) fuel
          (Nat.mod_lt _ (by decide)) (.inr ⟨?_, by omega⟩)) (not_not.mpr ?_)
        · rw [total_append]
          simp only
          omega
        · exact ⟨by omega, by omega, by simp, by simp [hro], by simp [hro]⟩
    all_goals
      -- a chunk of the size that is needed
      simp only [if_true]
      refine iff_of_true ?_ fun h => by simpa [hro] using h.2.2.2.1
      by_cases hm : entries.length + 1 > iovMax - 1
      · rw [if_pos hm]
        show needed max nbytes > iovMax - 1
        omega
      · rw [if_neg hm, if_neg (lt_irrefl r),
          show (r + 2 ^ 64 - r) % 2 ^ 64 = 0 by omega, fetchLoop_zero]
        refine ⟨by rw [total_append]; simp only; omega, List.forall_mem_append.mpr ⟨hu, ?_⟩⟩
        exact List.forall_mem_singleton.mpr (Nat.mod_eq_of_lt (by omega))
  | succ q ih =>
    have hs : (q + 1) * (max - 48) + r = max - 48 + (q * (max - 48) + r) := by ring
    rw [hs] at ht ⊢
    rw [fetchLoop_succ (by omega), allocChunkSize_full hma hint (by omega) (by omega)]
    cases hro : (room entries.length).1
    · refine iff_of_true ?_ fun h => ?_
      · show total entries < nbytes
        omega
      · have := h.2.2.1 0 (by omega)
        rw [Nat.add_zero, hro] at this
        cases this
    simp only [if_true]
    by_cases hm : entries.length + 1 > iovMax - 1
    · rw [if_pos hm]
      refine iff_of_true ?_ fun h => ?_
      · show needed max nbytes > iovMax - 1
        omega
      · have := h.2.1
        omega
    rw [if_neg hm, if_neg (by omega),
      show (max - 48 + (q * (max - 48) + r) + 2 ^ 64 - (max - 48)) % 2 ^ 64 =
        q * (max - 48) + r by omega]
    have ho : (entries ++ [(⟨max - 48, (max - 48) % 2 ^ 32⟩ : Entry)]).length =
        entries.length + 1 := by
      simp
    obtain ⟨fuel, rfl⟩ : ∃ f, fuel = f + 1 := ⟨fuel - 1, by omega⟩
    have hu' : ∀ e ∈ entries ++ [(⟨max - 48, (max - 48) % 2 ^ 32⟩ : Entry)], e.used = e.iovLen :=
      List.forall_mem_append.mpr
        ⟨hu, List.forall_mem_singleton.mpr (Nat.mod_eq_of_lt (by omega))⟩
    rw [ih _ (by omega) (by rw [total_append]; simp only; omega) hu' (by rw [ho]; omega)
      fuel (by omega), ho, largerLast_succ, and_iff_right hro]

theorem storageGetChunks_exactly_iff (hma : 48 < max) (hint : max < 2 ^ 31)
    (room : ℕ → Bool × Bool) {nbytes q r : ℕ} (hn : nbytes < 2 ^ 31) (hr : r < max - 48)
    (hs : nbytes = q * (max - 48) + r) :
    AllocatesExactly max nbytes (storageGetChunks max room nbytes) ↔ ¬LargerLast room 0 q r := by
  have hp : 0 < max - 48 := by omega
  have hne : needed max nbytes = q + if r = 0 then 0 else 1 := by
    rw [needed, hs, Nat.mul_add_mod_self_right, Nat.mod_eq_of_lt hr,
      Nat.add_comm (q * (max - 48)), Nat.add_mul_div_right _ _ hp, Nat.div_eq_of_lt hr,
      Nat.zero_add]
  have hm := fetchLoop_exactly_iff hma hint room hr hn iovMax [] (by simp)
    (by decide) (by simpa [total] using hs.symm) (by simp) (by simpa using hne)
  rwa [← hs] at hm

/-- Every size, every largest size of a chunk and all memory that there may be: the loop
allocates chunks for exactly the bytes of the item, or fails for a reason of its own,
exactly when the last chunk is not a larger one than was asked for. -/
theorem allocates_exactly_iff {max : ℕ} (hmax : 48 < max) (hint : max < 2 ^ 31)
    (room : ℕ → Bool × Bool) {nbytes : ℕ} (hn : nbytes < 2 ^ 31) :
    AllocatesExactly max nbytes (storageGetChunks max room nbytes) ↔
      ¬LargerLast room 0 (nbytes / (max - 48)) (nbytes % (max - 48)) := by
  refine storageGetChunks_exactly_iff hmax hint room hn
    (Nat.mod_lt nbytes (show 0 < max - 48 by omega)) ?_
  rw [Nat.mul_comm]
  exact (Nat.div_add_mod _ _).symm

/-- A value of 100 bytes, in chunks of 80 and 20. -/
theorem allocates_exactly_iff_hundred :
    storageGetChunks 128 (fun _ => (true, true)) 100 = .done [⟨80, 80⟩, ⟨20, 20⟩] ∧
      AllocatesExactly 128 100 (storageGetChunks 128 (fun _ => (true, true)) 100) :=
  ⟨by decide, (allocates_exactly_iff (by decide) (by decide) _ (by decide)).mpr
    fun h => absurd h.2.2.2.1 (by decide)⟩

/-- There is no memory in the class of the last 70 of 150 bytes, and otherwise enough. The
number wraps around to `2 ^ 64 - 10`, and so does the size of the next chunk that is asked
for: it is one without room, with an entry for `2 ^ 64 - 10` bytes. -/
theorem last_chunk_wraps :
    storageGetChunks 128 (fun i => (decide (i ≠ 1), true)) 150 =
        .done [⟨80, 80⟩, ⟨70, 70⟩, ⟨2 ^ 64 - 10, 2 ^ 32 - 10⟩] ∧
      ¬AllocatesExactly 128 150
        (storageGetChunks 128 (fun i => (decide (i ≠ 1), true)) 150) := by
  have hr : storageGetChunks 128 (fun i => (decide (i ≠ 1), true)) 150 =
      .done [⟨80, 80⟩, ⟨70, 70⟩, ⟨2 ^ 64 - 10, 2 ^ 32 - 10⟩] := by
    decide
  refine ⟨hr, ?_⟩
  rw [hr]
  rintro ⟨ht, -⟩
  simp [total] at ht

end Memcached.Storage.ReadBack
