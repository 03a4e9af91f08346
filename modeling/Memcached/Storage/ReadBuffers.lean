import Memcached.Storage.Records

/-!
# Buffers of failed reads (`storage.c`, `slabs.c`)

`storage_get_item` takes memory for an item that is read back: a chunk, or a header with a chain
of chunks. The record is read over it from its first byte on. When the read fails, or the
checksum is wrong, `slabs_free` looks into this memory for the bit `ITEM_CHUNKED`, the class and
the chain. By then these fields are what the device has delivered.

Results:
* `freeChunks_congr`: the chain is read from the heads of its chunks, which are not read over
* `delivered_class_freed`: a chunk of class 3 is put on the free list of class 7
* `failed_read_freed_iff`: when the memory goes back where it came from
-/

namespace Memcached.Storage.ReadBuffers

open Lib Records

/-! ## Giving memory back -/

abbrev Mem := ℕ → UInt8

def field (mem : Mem) (a width : ℕ) : ℕ := ofLe ((List.range' a width).map mem)

def itFlags (mem : Mem) (it : ℕ) : ℕ := field mem (it + 38) 2

/-- `ITEM_schunk` (`memcached.h`, lines 649-651): where the item at `it` has the head of its
chain. -/
def schunk (mem : Mem) (it : ℕ) : ℕ :=
  it + 48 + (mem (it + 41)).toNat + 1 + (if hasFlag (itFlags mem it) cflagsBit then 4 else 0) +
    if hasFlag (itFlags mem it) casBit then 8 else 0

def itemChunk : ℕ := 64

/-- The loop of `do_slabs_free_chunked` over the chain (`slabs.c`, lines 479-492): the chunks in
the order in which they are put on free lists, with their classes. The result is `none` when
the assertion fails or the chain has no end. -/
def freeChunks (mem : Mem) : (fuel chunk : ℕ) → Option (List (ℕ × ℕ))
  | _, 0 => some []
  | 0, _ => none
  | fuel + 1, chunk =>
    if itFlags mem chunk = itemChunk then
      (freeChunks mem fuel (field mem chunk 8)).map ((chunk, (mem (chunk + 40)).toNat) :: ·)
    else none

/-- `do_slabs_free_chunked` (`slabs.c`, lines 450-495). -/
def doSlabsFreeChunked (mem : Mem) (fuel it : ℕ) : Option (List (ℕ × ℕ)) :=
  let chunk := schunk mem it
  (freeChunks mem fuel (field mem chunk 8)).map ((it, (mem (chunk + 41)).toNat) :: ·)

/-- `do_slabs_free` (`slabs.c`, lines 498-523). -/
def doSlabsFree (powerLargest : ℕ) (mem : Mem) (fuel it id : ℕ) : Option (List (ℕ × ℕ)) :=
  if id < 1 ∨ id > powerLargest then none
  else if hasFlag (itFlags mem it) chunkedBit = false then some [(it, id)]
  else doSlabsFreeChunked mem fuel it

/-! ## The buffer -/

/-- What `storage_get_item` has taken (lines 247-320): the memory at `it`, for an
item whose size is of class `clsid`. A large item has a header of class `orig` and a chain of
chunks. The device writes to `regions`, each given by its start and its length. -/
structure Buffer where
  it : ℕ
  clsid : ℕ
  chunks : Option (ℕ × List (ℕ × ℕ))
  regions : List (ℕ × ℕ)

def Buffer.taken (b : Buffer) : List (ℕ × ℕ) :=
  match b.chunks with
  | none => [(b.it, b.clsid)]
  | some (orig, chain) => (b.it, orig) :: chain

def first (chain : List (ℕ × ℕ)) : ℕ := (chain.head?.map Prod.fst).getD 0

/-- The buffer is as `storage_get_item` leaves it: a chain has its chunks, and what is read goes
to their data, not to their heads. -/
structure Buffer.Taken (powerLargest fuel : ℕ) (mem : Mem) (b : Buffer) : Prop where
  clsid : 1 ≤ b.clsid ∧ b.clsid ≤ powerLargest
  chain : ∀ {orig chain}, b.chunks = some (orig, chain) →
    chain ≠ [] ∧ freeChunks mem fuel (first chain) = some chain
  heads : ∀ {orig chain}, b.chunks = some (orig, chain) → ∀ c ∈ chain, ∀ i < 42,
    ∀ r ∈ b.regions, c.1 + i < r.1 ∨ r.1 + r.2 ≤ c.1 + i

/-- The memory after the device has written what it likes, as far as it likes. -/
def Buffer.Delivered (b : Buffer) (mem mem' : Mem) : Prop :=
  ∀ a, (∀ r ∈ b.regions, a < r.1 ∨ r.1 + r.2 ≤ a) → mem' a = mem a

/-- `recache_or_free` after a miss (lines 401-406): the chunks that it gives back. -/
def recacheOrFree (powerLargest fuel : ℕ) (mem : Mem) (b : Buffer) : Option (List (ℕ × ℕ)) :=
  doSlabsFree powerLargest mem fuel b.it b.clsid

/-- What was delivered says of the buffer what it is: no chunks, or else a head of a chain that
says the same; or the chain that was taken, at the place that the key length and the flags
say. -/
def Buffer.Described (b : Buffer) (mem : Mem) : Prop :=
  let chunked := hasFlag (itFlags mem b.it) chunkedBit
  let orig := (mem (schunk mem b.it + 41)).toNat
  let next := field mem (schunk mem b.it) 8
  match b.chunks with
  | none => chunked = false ∨ orig = b.clsid ∧ next = 0
  | some (origClsid, chain) => chunked = true ∧ orig = origClsid ∧ next = first chain

/-! ## Chains -/

variable {mem mem' : Mem} {fuel chunk : ℕ}

theorem freeChunks_zero (mem : Mem) (fuel : ℕ) : freeChunks mem fuel 0 = some [] := by
  cases fuel <;> rfl

theorem freeChunks_eq_some (hn : chunk ≠ 0) {l : List (ℕ × ℕ)} :
    freeChunks mem fuel chunk = some l ↔ itFlags mem chunk = itemChunk ∧ ∃ n rest, fuel = n + 1 ∧
      freeChunks mem n (field mem chunk 8) = some rest ∧
      (chunk, (mem (chunk + 40)).toNat) :: rest = l := by
  obtain ⟨k, rfl⟩ : ∃ k, chunk = k + 1 := ⟨chunk - 1, by omega⟩
  cases fuel with
  | zero => simp [freeChunks]
  | succ fuel =>
    simp only [freeChunks]
    split_ifs with hf
    · simp [hf, Option.map_eq_some_iff]
    · simp [hf]

theorem freeChunks_nil : freeChunks mem fuel chunk = some [] ↔ chunk = 0 := by
  by_cases hn : chunk = 0
  · simp [hn, freeChunks_zero]
  · simp [freeChunks_eq_some hn, hn]

theorem field_congr {a width : ℕ} (h : ∀ i < width, mem' (a + i) = mem (a + i)) :
    field mem' a width = field mem a width := by
  refine congrArg ofLe (List.map_congr_left fun x hx => ?_)
  obtain ⟨i, hi, rfl⟩ := List.mem_range'.mp hx
  simpa using h i hi

theorem freeChunks_congr {chain : List (ℕ × ℕ)} (h : freeChunks mem fuel chunk = some chain)
    (hhe : ∀ c ∈ chain, ∀ i < 42, mem' (c.1 + i) = mem (c.1 + i)) :
    freeChunks mem' fuel chunk = some chain := by
  induction chain generalizing fuel chunk with
  | nil => exact freeChunks_nil.mpr (freeChunks_nil.mp h)
  | cons c chain ih =>
    have hne : chunk ≠ 0 := fun he => by simp [he, freeChunks_zero] at h
    obtain ⟨hf, n, rest, rfl, hr, he⟩ := (freeChunks_eq_some hne).mp h
    obtain ⟨rfl, rfl⟩ := List.cons.inj he
    have hh := hhe _ (.head _)
    have hf' : itFlags mem' chunk = itFlags mem chunk := field_congr fun i hi => by
      simpa only [Nat.add_assoc] using hh (38 + i) (by omega)
    have hn : field mem' chunk 8 = field mem chunk 8 :=
      field_congr fun i hi => hh i (by omega)
    refine (freeChunks_eq_some hne).mpr ⟨hf'.trans hf, n, rest, rfl, ?_, ?_⟩
    · rw [hn]
      exact ih hr fun c hc => hhe c (.tail _ hc)
    · rw [hh 40 (by omega)]

theorem first_eq {chain : List (ℕ × ℕ)} (h : freeChunks mem fuel chunk = some chain) :
    chunk = first chain := by
  by_cases hn : chunk = 0
  · obtain rfl : chain = [] := by simpa [hn, freeChunks_zero] using h.symm
    exact hn
  · obtain ⟨-, n, rest, -, -, rfl⟩ := (freeChunks_eq_some hn).mp h
    rfl

/-! ## Failed reads -/

/-- **Exactly what was taken.** Whatever the device has delivered, the chunks that were taken are
given back to their classes, and nothing else is, exactly when the fields say so. -/
theorem failed_read_freed_iff {powerLargest : ℕ} {b : Buffer} (h : b.Taken powerLargest fuel mem)
    (hd : b.Delivered mem mem') :
    recacheOrFree powerLargest fuel mem' b = some b.taken ↔ b.Described mem' := by
  have hid : ¬(b.clsid < 1 ∨ b.clsid > powerLargest) := by
    have := h.clsid
    omega
  simp only [recacheOrFree, doSlabsFree, if_neg hid, doSlabsFreeChunked, Buffer.taken,
    Buffer.Described]
  rcases hch : b.chunks with _ | ⟨orig, chain⟩
  · by_cases hf : hasFlag (itFlags mem' b.it) chunkedBit = false
    · simp [hf]
    · simp [hf, Option.map_eq_some_iff, freeChunks_nil, and_comm]
  obtain ⟨hne, hcha⟩ := h.chain hch
  have hc' : freeChunks mem' fuel (first chain) = some chain :=
    freeChunks_congr hcha fun c hc i hi => hd _ fun r hr => h.heads hch c hc i hi r hr
  by_cases hf : hasFlag (itFlags mem' b.it) chunkedBit = false
  · simp [hf, Ne.symm hne]
  rw [if_neg hf, Option.map_eq_some_iff]
  simp only [Bool.not_eq_false] at hf
  constructor
  · rintro ⟨l, hl, he⟩
    obtain ⟨ho, rfl⟩ := List.cons.inj he
    exact ⟨hf, congrArg Prod.snd ho, first_eq hl⟩
  · rintro ⟨-, ho, hn⟩
    exact ⟨chain, hn ▸ hc', by rw [ho]⟩

def oneChunk : Buffer := ⟨1000, 3, none, [(1000, 100)]⟩

theorem oneChunk_taken (mem : Mem) : oneChunk.Taken 63 1 mem :=
  { clsid := by decide
    chain := fun h => by cases h
    heads := fun h => by cases h }

/-- The device has delivered a record in one piece, with the bit `ITEM_LINKED`. -/
theorem failed_read_freed_iff_linked :
    recacheOrFree 63 1 (fun a => if a = 1038 then 1 else 0) oneChunk = some [(1000, 3)] := by
  refine (failed_read_freed_iff (oneChunk_taken fun _ => 0) fun a ha => ?_).mpr (.inl rfl)
  have ho := ha (1000, 100) (.head _)
  exact if_neg (by omega)

/-- A record with the bit `ITEM_CHUNKED` (byte 38) and a 7 where the class of a header is. -/
def badRecord : Mem := fun a => if a = 1038 then 32 else if a = 1090 then 7 else 0

theorem delivered_class_freed :
    oneChunk.Taken 63 1 (fun _ => 0) ∧ oneChunk.Delivered (fun _ => 0) badRecord ∧
      oneChunk.taken = [(1000, 3)] ∧ recacheOrFree 63 1 badRecord oneChunk = some [(1000, 7)] := by
  refine ⟨oneChunk_taken _, fun a ha => ?_, rfl, by decide⟩
  have ho := ha (1000, 100) (.head _)
  have h38 : a ≠ 1038 := by omega
  have h90 : a ≠ 1090 := by omega
  simp [badRecord, h38, h90]

end Memcached.Storage.ReadBuffers
