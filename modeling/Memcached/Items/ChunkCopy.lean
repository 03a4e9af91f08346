import Memcached.Items.Refcount

/-!
# Append and prepend for large items (`memcached.c`, `items.c`)

An item that is larger than `slab_chunk_size_max` is kept in chunks: its header has
a first chunk without room, and further chunks are chained to it. The value is what
the chunks hold, one after the other. Append and prepend copy two values into a new
item, and `_store_item_copy_data` chooses how by looking at the new item only: into
chunks through `_store_item_copy_chunks`, else by `memcpy` from `ITEM_data` of both
sources. An item kept in chunks has the header of its first chunk there and not its
value.

Results:
* `fillChunks_spec`: the copy loop appends what it is given, or a request is refused
* `copies_exactly_iff`: the copy is exact unless a chunk for nothing is refused
* `concat_result`: append and prepend store the two values one after the other
* `append_copies_chunk_header`: a chunk header is stored if only the added item is in chunks
-/

namespace Memcached.Items

open Lib Assoc

/-! ## Chunks -/

/-- `item_chunk`: its room, and the bytes it holds, whose number is `used`. -/
structure Chunk where
  size : ℕ
  data : Bytes
deriving DecidableEq

def chainBytes (chain : List Chunk) : Bytes := chain.flatMap Chunk.data

/-- A chunk without free space, `ch->size == ch->used`. -/
def Chunk.Full (c : Chunk) : Prop := c.size = c.data.length

instance (c : Chunk) : Decidable c.Full := inferInstanceAs (Decidable (_ = _))

/-- `do_item_alloc_chunk` (`items.c`, lines 221-260) with `slab_chunk_size_max` `max`:
a chunk for the rest of the value or, if there is no memory in the class of that
size, one of the largest size. `room` says which of the two allocations succeed;
`sizeof(item_chunk)` is 48. -/
def doItemAllocChunk (max bytesRemain : ℕ) (room : Bool × Bool) : Option Chunk :=
  let size := min (bytesRemain + 48) max
  if room.1 then some ⟨size - 48, []⟩
  else if size = max then none
  else if room.2 then some ⟨max - 48, []⟩
  else none

/-- A chain with a pointer to one of its chunks, `dch`. -/
structure Dest where
  before : List Chunk
  dch : Chunk
  after : List Chunk
deriving DecidableEq

def Dest.chain (d : Dest) : List Chunk := d.before ++ d.dch :: d.after

/-- `memcpy(dch->data + dch->used, …, todo)` and `dch->used += todo` -/
def Dest.write (d : Dest) (bytes : Bytes) : Dest :=
  { d with dch := { d.dch with data := d.dch.data ++ bytes } }

/-- A new chunk is linked behind `dch`, and `dch` moves there. -/
def Dest.push (d : Dest) (c : Chunk) : Dest := ⟨d.before ++ [d.dch], c, []⟩

/-- The loop that looks for free space (lines 1645-1651). -/
def findSpace (before : List Chunk) (dch : Chunk) : List Chunk → Dest
  | [] => ⟨before, dch, []⟩
  | c :: after =>
    if dch.Full then findSpace (before ++ [dch]) c after else ⟨before, dch, c :: after⟩

inductive Copied where
  | done (d : Dest)
  | noMemory
  | outOfFuel
deriving DecidableEq

/-- The copy loops of `_store_item_copy_chunks` (lines 1653-1709). The
source is a list of blocks, of which the first is what is left of `sch`: the chunks
of an item kept in chunks, or `ITEM_data` as one block, for which the second loop
does the same. `room n` is what the allocator answers after `n` other requests. -/
def fillChunks (max : ℕ) :
    (room : ℕ → Bool × Bool) → ℕ → Dest → List Bytes → ℕ → Copied
  | _, _, d, [], _ => .done d
  | room, fuel, d, sch :: rest, remain =>
    if remain = 0 then .done d
    else
      match fuel with
      | 0 => .outOfFuel
      | fuel + 1 =>
        let todo := min (min (d.dch.size - d.dch.data.length) sch.length) remain
        let d := d.write (sch.take todo)
        let source := if sch.drop todo = [] then rest else sch.drop todo :: rest
        if d.dch.Full then
          match doItemAllocChunk max (remain - todo) (room 0) with
          | none => .noMemory
          | some c =>
            fillChunks max (fun n => room (n + 1)) fuel (d.push c) source (remain - todo)
        else fillChunks max room fuel d source (remain - todo)

/-- `_store_item_copy_chunks` (lines 1642-1710) into the chain of an item,
with as many rounds as it can need. -/
def storeItemCopyChunks (max : ℕ) (room : ℕ → Bool × Bool) (chain : List Chunk)
    (source : List Bytes) (len : ℕ) : Copied :=
  match chain with
  | [] => .noMemory
  | schunk :: rest =>
    fillChunks max room (2 * len + 2 * source.length + 1) (findSpace [] schunk rest) source len

/-- `_store_item_copy_data` (lines 1712-1737) into a new item kept in
chunks, which so far has its first chunk only: two copies, the first without the
`\r\n` of its source. -/
def copyIntoChunks (max : ℕ) (room : ℕ → ℕ → Bool × Bool) (front back : List Bytes) : Copied :=
  match storeItemCopyChunks max (room 0) [⟨0, []⟩] front (front.flatten.length - 2) with
  | .done d => storeItemCopyChunks max (room 1) d.chain back back.flatten.length
  | r => r

/-! ## Requests for chunks -/

/-- The allocator grants what `n` bytes need: chunks of the largest size and, for what is left
of them, one more. -/
def Granted (max : ℕ) (room : ℕ → Bool × Bool) (n : ℕ) : Prop :=
  (∀ i < n / (max - 48), (room i).1 = true) ∧
    (n % (max - 48) = 0 ∨ room (n / (max - 48)) ≠ (false, false))

/-- The last byte fills a chunk, of the largest size or of the size that was left, and the
request for another one is refused. -/
def RefusedAtEnd (max : ℕ) (room : ℕ → Bool × Bool) (n : ℕ) : Prop :=
  if n % (max - 48) = 0 then room (n / (max - 48)) = (false, false)
  else (room (n / (max - 48))).1 = true ∧ room (n / (max - 48) + 1) = (false, false)

instance (max : ℕ) (room : ℕ → Bool × Bool) (n : ℕ) : Decidable (Granted max room n) :=
  inferInstanceAs (Decidable (_ ∧ _))

instance (max : ℕ) (room : ℕ → Bool × Bool) (n : ℕ) : Decidable (RefusedAtEnd max room n) :=
  inferInstanceAs (Decidable (ite _ _ _))

def Chunk.free (c : Chunk) : ℕ := c.size - c.data.length

/-- A request is refused in a copy of `len` bytes into a chunk with room for `free`. -/
def Refused (max : ℕ) (room : ℕ → Bool × Bool) (free len : ℕ) : Prop :=
  0 < len ∧ free ≤ len ∧ (Granted max room (len - free) → RefusedAtEnd max room (len - free))

section

variable {max : ℕ} (hmax : 48 < max) {room : ℕ → Bool × Bool}
include hmax

theorem doItemAllocChunk_full {n : ℕ} (hn : max - 48 ≤ n) (r : Bool × Bool) :
    doItemAllocChunk max n r = if r.1 then some ⟨max - 48, []⟩ else none := by
  have hs : min (n + 48) max = max := by omega
  simp only [doItemAllocChunk, hs, if_true]

theorem doItemAllocChunk_rest {n : ℕ} (hn : n < max - 48) (r : Bool × Bool) :
    doItemAllocChunk max n r =
      if r.1 then some ⟨n, []⟩ else if r.2 then some ⟨max - 48, []⟩ else none := by
  have hs : min (n + 48) max = n + 48 := by omega
  simp only [doItemAllocChunk, hs, Nat.add_sub_cancel]
  rw [if_neg (by omega : ¬n + 48 = max)]

/-- A request for `n` bytes when a chunk is full: what is refused is refused now, or in the
copy of the `n` bytes into the new chunk. -/
theorem refused_request (n : ℕ) :
    (Granted max room n → RefusedAtEnd max room n) ↔
      ∀ c, doItemAllocChunk max n (room 0) = some c →
        Refused max (fun i => room (i + 1)) c.size n := by
  have hm : 0 < max - 48 := by omega
  by_cases hn : max - 48 ≤ n
  · obtain ⟨k, rfl⟩ := Nat.exists_eq_add_of_le hn
    have hg : Granted max room (max - 48 + k) ↔
        (room 0).1 = true ∧ Granted max (fun i => room (i + 1)) k := by
      simp only [Granted, Nat.add_div_left k hm, Nat.add_mod_left, ← and_assoc]
      exact and_congr_left' Nat.forall_lt_succ_left
    have hr : RefusedAtEnd max room (max - 48 + k) ↔
        RefusedAtEnd max (fun i => room (i + 1)) k := by
      simp only [RefusedAtEnd, Nat.add_div_left k hm, Nat.add_mod_left]
    rw [hg, hr, doItemAllocChunk_full hmax hn]
    by_cases h0 : (room 0).1 = true
    · simp [h0, Refused, hm, hn]
    · simp [h0]
  · rw [not_le] at hn
    rw [doItemAllocChunk_rest hmax hn]
    simp only [Granted, RefusedAtEnd, Refused, Nat.div_eq_of_lt hn, Nat.mod_eq_of_lt hn]
    -- one chunk is asked for: of this size, of the largest size, or in vain
    rcases h0 : room 0 with ⟨_ | _, _ | _⟩ <;> by_cases hz : n = 0 <;>
      simp [hz, Nat.pos_iff_ne_zero]
    all_goals omega

end

theorem not_refused_zero {max free : ℕ} {room : ℕ → Bool × Bool} : ¬Refused max room free 0 :=
  fun h => h.1.false

/-- A round that leaves room in the chunk asks for nothing. -/
theorem refused_round {max free todo len : ℕ} {room : ℕ → Bool × Bool} (hle : todo ≤ len)
    (hlt : todo < free) :
    Refused max room (free - todo) (len - todo) ↔ Refused max room free len := by
  have hn : len - todo - (free - todo) = len - free := by omega
  unfold Refused
  rw [hn]
  constructor <;> rintro ⟨h0, hf, h⟩ <;> exact ⟨by omega, by omega, h⟩

/-! ## The copy loop -/

/-- All chunks before `dch` are full, and `dch` is the last one. -/
structure Dest.WF (d : Dest) : Prop where
  full : ∀ c ∈ d.before, c.Full
  fits : d.dch.data.length ≤ d.dch.size
  last : d.after = []

variable {d : Dest}

theorem chainBytes_write (h : d.WF) (bytes : Bytes) :
    chainBytes (d.write bytes).chain = chainBytes d.chain ++ bytes := by
  simp [chainBytes, Dest.chain, Dest.write, h.last]

variable {c : Chunk}

theorem chainBytes_push (h : d.WF) (hc : c.data = []) :
    chainBytes (d.push c).chain = chainBytes d.chain := by
  simp [chainBytes, Dest.chain, Dest.push, h.last, hc]

theorem Dest.WF.write (h : d.WF) {bytes : Bytes}
    (hf : d.dch.data.length + bytes.length ≤ d.dch.size) : (d.write bytes).WF :=
  ⟨h.full, by simpa [Dest.write] using hf, h.last⟩

theorem Dest.WF.push (h : d.WF) (hf : d.dch.Full) (hc : c.data = []) : (d.push c).WF := by
  refine ⟨fun b hb => ?_, by simp [Dest.push, hc], rfl⟩
  obtain hb | hb := List.mem_append.mp hb
  · exact h.full b hb
  · rw [List.mem_singleton.mp hb]
    exact hf

theorem findSpace_eq (before : List Chunk) {rest : List Chunk} {dch : Chunk}
    (h : ∀ c ∈ (dch :: rest).dropLast, c.Full) :
    ∃ b c, findSpace before dch rest = ⟨b, c, []⟩ ∧ b ++ [c] = before ++ dch :: rest ∧
      (∀ x ∈ b, x ∈ before ∨ x.Full) ∧ c ∈ dch :: rest := by
  induction rest generalizing before dch with
  | nil => exact ⟨before, dch, rfl, rfl, fun x hx => .inl hx, List.mem_singleton_self _⟩
  | cons c rest ih =>
    have hd : dch.Full := h dch (by simp)
    obtain ⟨b, e, he, ha, hfu, hm⟩ := ih (before ++ [dch])
      (fun x hx => h x (by simpa using .inr hx))
    refine ⟨b, e, ?_, ?_, fun x hx => ?_, List.mem_cons_of_mem _ hm⟩
    · rw [findSpace, if_pos hd]
      exact he
    · rw [ha]
      simp
    obtain hb | hf := hfu x hx
    · obtain hb | hb := List.mem_append.mp hb
      · exact .inl hb
      · rw [List.mem_singleton.mp hb]
        exact .inr hd
    · exact .inr hf

theorem data_doItemAllocChunk {max n : ℕ} {room : Bool × Bool}
    (h : doItemAllocChunk max n room = some c) : c.data = [] ∧ (48 < max → 0 < n → 0 < c.size) := by
  simp only [doItemAllocChunk] at h
  split_ifs at h
  · cases h
    refine ⟨rfl, fun _ _ => ?_⟩
    show 0 < min (n + 48) max - 48
    omega
  · cases h
    refine ⟨rfl, fun _ _ => ?_⟩
    show 0 < max - 48
    omega

theorem take_source (sch : Bytes) (rest : List Bytes) {todo remain : ℕ} (h1 : todo ≤ sch.length)
    (h2 : todo ≤ remain) :
    sch.take todo ++
        (if sch.drop todo = [] then rest else sch.drop todo :: rest).flatten.take
          (remain - todo) =
      (sch :: rest).flatten.take remain := by
  have hf : (if sch.drop todo = [] then rest else sch.drop todo :: rest).flatten =
      sch.drop todo ++ rest.flatten := by
    split_ifs with hn
    · rw [hn, List.nil_append]
    · rfl
  have hs : (sch :: rest).flatten = sch.take todo ++ (sch.drop todo ++ rest.flatten) := by
    rw [← List.append_assoc, List.take_append_drop]
    rfl
  have ht : ∀ l : Bytes, (sch.take todo ++ l).take remain =
      sch.take todo ++ l.take (remain - todo) := by
    intro l
    rw [List.take_append, List.length_take, Nat.min_eq_left h1,
      List.take_of_length_le (by rw [List.length_take]; omega)]
  rw [hf, hs, ht]

/-- The rounds that are needed at most: a round that copies nothing leaves a full chunk or
an empty block behind. -/
def rounds (d : Dest) (source : List Bytes) (remain : ℕ) : ℕ :=
  2 * remain + 2 * source.length + if d.dch.Full then 1 else 0

theorem length_source_le (sch : Bytes) (rest : List Bytes) (todo : ℕ) :
    (if sch.drop todo = [] then rest else sch.drop todo :: rest).length ≤ rest.length + 1 := by
  split_ifs
  · omega
  · simp

section

variable {max : ℕ} (hmax : 48 < max)
include hmax

theorem fillChunks_spec (room : ℕ → Bool × Bool) (fuel : ℕ)
    (hd : d.WF) {source : List Bytes} {remain : ℕ}
    (hl : remain ≤ source.flatten.length) (hf : rounds d source remain ≤ fuel) :
    (fillChunks max room fuel d source remain = .noMemory ∧
      Refused max room d.dch.free remain) ∨
    ∃ d', fillChunks max room fuel d source remain = .done d' ∧ d'.WF ∧
      ¬Refused max room d.dch.free remain ∧
      chainBytes d'.chain = chainBytes d.chain ++ source.flatten.take remain := by
  induction fuel generalizing room d source remain with
  | zero =>
    have hz : source = [] := by
      have : source.length = 0 := by
        unfold rounds at hf
        omega
      exact List.length_eq_zero_iff.mp this
    subst hz
    obtain rfl : remain = 0 := Nat.le_zero.mp hl
    exact .inr ⟨d, rfl, hd, not_refused_zero, by simp⟩
  | succ fuel ih =>
    cases source with
    | nil =>
      obtain rfl : remain = 0 := Nat.le_zero.mp hl
      exact .inr ⟨d, rfl, hd, not_refused_zero, by simp⟩
    | cons sch rest =>
      by_cases hre : remain = 0
      · refine .inr ⟨d, ?_, hd, hre ▸ not_refused_zero, by simp [hre]⟩
        rw [fillChunks, if_pos hre]
      simp only [fillChunks, if_neg hre]
      set todo := min (min (d.dch.size - d.dch.data.length) sch.length) remain with hto
      set source := if sch.drop todo = [] then rest else sch.drop todo :: rest with hs
      have ht : sch.take todo ++ source.flatten.take (remain - todo) =
          (sch :: rest).flatten.take remain := take_source sch rest (by omega) (by omega)
      have hw : (d.write (sch.take todo)).WF := hd.write (by
        have := hd.fits
        rw [List.length_take]
        omega)
      have hb := chainBytes_write hd (sch.take todo)
      have hl' : remain - todo ≤ source.flatten.length := by
        have := congrArg List.length ht
        simp only [List.length_append, List.length_take] at this
        omega
      have hsr : source.length ≤ rest.length + 1 := length_source_le sch rest todo
      have hu : (d.write (sch.take todo)).dch.data.length = d.dch.data.length + todo := by
        simp only [Dest.write, List.length_append, List.length_take]
        omega
      have hsi : (d.write (sch.take todo)).dch.size = d.dch.size := rfl
      by_cases hfu : (d.write (sch.take todo)).dch.Full
      · rw [if_pos hfu]
        have hfr : d.dch.free = todo := by
          unfold Chunk.Full at hfu
          unfold Chunk.free
          omega
        have hrq : Refused max room d.dch.free remain ↔ ∀ c,
            doItemAllocChunk max (remain - todo) (room 0) = some c →
              Refused max (fun i => room (i + 1)) c.size (remain - todo) := by
          rw [hfr, ← refused_request hmax, Refused]
          exact ⟨fun h => h.2.2, fun h => ⟨by omega, by omega, h⟩⟩
        rcases ha : doItemAllocChunk max (remain - todo) (room 0) with _ | c
        · exact .inl ⟨rfl, hrq.mpr (by simp [ha])⟩
        obtain ⟨hda, hr⟩ := data_doItemAllocChunk ha
        have hp := hw.push hfu hda
        have hf' : rounds ((d.write (sch.take todo)).push c) source (remain - todo) ≤
            fuel := by
          unfold rounds at hf ⊢
          simp only [List.length_cons] at hf
          by_cases hz : todo = 0
          · -- the chunk was full before, and the new one is not
            have ho : d.dch.Full := by
              unfold Chunk.Full at hfu ⊢
              omega
            have hne : ¬((d.write (sch.take todo)).push c).dch.Full := by
              have := hr hmax (by omega)
              simp only [Dest.push, Chunk.Full, hda, List.length_nil]
              omega
            rw [if_pos ho] at hf
            rw [if_neg hne]
            omega
          · split_ifs at hf ⊢ <;> omega
        have hcf : ((d.write (sch.take todo)).push c).dch.free = c.size := by
          simp only [Dest.push, Chunk.free, hda, List.length_nil, Nat.sub_zero]
        obtain ⟨hn, hre⟩ | ⟨d', he, hwf, hnr, hv⟩ := ih _ hp hl' hf'
        · refine .inl ⟨hn, hrq.mpr fun c' hc' => ?_⟩
          cases Option.some.inj (ha.symm.trans hc')
          exact hcf ▸ hre
        · refine .inr ⟨d', he, hwf, fun h => hnr (hcf ▸ hrq.mp h c ha), ?_⟩
          rw [hv, chainBytes_push hw hda, hb, List.append_assoc, ht]
      · rw [if_neg hfu]
        have hf' : rounds (d.write (sch.take todo)) source (remain - todo) ≤ fuel := by
          unfold rounds at hf ⊢
          simp only [List.length_cons] at hf
          rw [if_neg hfu]
          by_cases hz : todo = 0
          · -- there was room, so the block was empty
            have hni : sch.drop todo = [] := by
              have := hd.fits
              unfold Chunk.Full at hfu
              rw [List.drop_eq_nil_iff]
              omega
            rw [hs, if_pos hni]
            omega
          · omega
        have hrr : Refused max room (d.write (sch.take todo)).dch.free (remain - todo) ↔
            Refused max room d.dch.free remain := by
          have hfr : (d.write (sch.take todo)).dch.free = d.dch.free - todo := by
            unfold Chunk.free
            omega
          rw [hfr]
          refine refused_round (by omega) ?_
          have := hd.fits
          unfold Chunk.Full at hfu
          unfold Chunk.free
          omega
        obtain ⟨hn, hre⟩ | ⟨d', he, hwf, hnr, hv⟩ := ih _ hw hl' hf'
        · exact .inl ⟨hn, hrr.mp hre⟩
        · refine .inr ⟨d', he, hwf, hrr.not.mp hnr, ?_⟩
          rw [hv, hb, List.append_assoc, ht]

theorem storeItemCopyChunks_spec (room : ℕ → Bool × Bool)
    {before : List Chunk} (hfu : ∀ b ∈ before, b.Full)
    (hf : c.data.length ≤ c.size) (source : List Bytes) {len : ℕ}
    (hle : len ≤ source.flatten.length) :
    (storeItemCopyChunks max room (before ++ [c]) source len = .noMemory ∧
      Refused max room c.free len) ∨
    ∃ d, storeItemCopyChunks max room (before ++ [c]) source len = .done d ∧ d.WF ∧
      ¬Refused max room c.free len ∧
      chainBytes d.chain = chainBytes (before ++ [c]) ++ source.flatten.take len := by
  rcases hc : before ++ [c] with _ | ⟨schunk, rest⟩
  · simp at hc
  have hdro : (schunk :: rest).dropLast = before := by rw [← hc, List.dropLast_concat]
  have hl : (schunk :: rest).getLast? = some c := by
    rw [← hc]
    simp
  obtain ⟨b, e, heq, ha, hb, -⟩ := findSpace_eq []
    (show ∀ x ∈ (schunk :: rest).dropLast, x.Full by rwa [hdro])
  rw [List.nil_append] at ha
  have he : e = c := by
    rw [← ha] at hl
    simpa using hl
  have hw : (findSpace [] schunk rest).WF := by
    rw [heq]
    refine ⟨fun x hx => (hb x hx).resolve_left (by simp), ?_, rfl⟩
    rw [he]
    exact hf
  have hby : chainBytes (findSpace [] schunk rest).chain = chainBytes (schunk :: rest) := by
    rw [heq, ← ha]
    rfl
  have hr : rounds (findSpace [] schunk rest) source len ≤ 2 * len + 2 * source.length + 1 := by
    unfold rounds
    split_ifs <;> omega
  have hdch : (findSpace [] schunk rest).dch = c := by rw [heq, he]
  have hs := fillChunks_spec hmax room _ hw hle hr
  rw [hdch] at hs
  obtain hn | ⟨d, hd, hdw, hnr, hv⟩ := hs
  · exact .inl hn
  · exact .inr ⟨d, hd, hdw, hnr, by rw [hv, hby]⟩

theorem copyIntoChunks_spec (room : ℕ → ℕ → Bool × Bool) (front back : List Bytes) :
    copyIntoChunks max room front back = .noMemory ∨
    ∃ d, copyIntoChunks max room front back = .done d ∧
      chainBytes d.chain = front.flatten.take (front.flatten.length - 2) ++ back.flatten := by
  have he : ∀ b ∈ ([] : List Chunk), b.Full := by simp
  rcases storeItemCopyChunks_spec hmax (room 0) (c := ⟨0, []⟩) he le_rfl front
      (Nat.sub_le front.flatten.length 2) with
    ⟨hn, -⟩ | ⟨d, hd, hw, -, hv⟩
  · rw [List.nil_append] at hn
    exact .inl (by simp only [copyIntoChunks, hn])
  rw [List.nil_append] at hd hv
  have hc : d.chain = d.before ++ [d.dch] := by rw [Dest.chain, hw.last]
  have hb := storeItemCopyChunks_spec hmax (room 1) hw.full hw.fits back
    (le_refl back.flatten.length)
  rw [← hc] at hb
  obtain ⟨hn, -⟩ | ⟨d', hd', -, -, hv'⟩ := hb
  · exact .inl (by simp only [copyIntoChunks, hd, hn])
  refine .inr ⟨d', by simp only [copyIntoChunks, hd, hd'], ?_⟩
  rw [hv', hv, List.take_length]
  simp [chainBytes]

end

/-! ## Failed copies -/

/-- The copy is exact: the first `len` bytes of the source are behind what was there, in chunks
with room for them, or a chunk that they need was not granted. -/
def CopiesExactly (max : ℕ) (room : ℕ → Bool × Bool) (before : List Chunk) (c : Chunk)
    (source : List Bytes) (len : ℕ) : Prop :=
  match storeItemCopyChunks max room (before ++ [c]) source len with
  | .done d => chainBytes d.chain = chainBytes (before ++ [c]) ++ source.flatten.take len ∧
      (chainBytes d.chain).length = (chainBytes (before ++ [c])).length + len ∧
      ∀ c ∈ d.chain, c.data.length ≤ c.size
  | .noMemory => ¬Granted max room (len - c.free)
  | .outOfFuel => False

theorem Dest.WF.fits_chain (h : d.WF) : ∀ c ∈ d.chain, c.data.length ≤ c.size := by
  intro c hc
  rw [Dest.chain, h.last] at hc
  obtain hb | hd := List.mem_append.mp hc
  · exact (h.full c hb).ge
  · rw [List.mem_singleton.mp hd]
    exact h.fits

/-- **Copies into chunks.** For every item kept in chunks, every source and every sequence of
the allocator's answers the copy is exact, unless every chunk that the bytes need is
granted, the last byte fills one of them and the request for another one is refused. -/
theorem copies_exactly_iff {max : ℕ} (hmax : 48 < max) (room : ℕ → Bool × Bool)
    {before : List Chunk} {c : Chunk} (hfu : ∀ b ∈ before, b.Full)
    (hfi : c.data.length ≤ c.size) (source : List Bytes) {len : ℕ}
    (hle : len ≤ source.flatten.length) :
    CopiesExactly max room before c source len ↔
      ¬(0 < len ∧ c.free ≤ len ∧ Granted max room (len - c.free) ∧
        RefusedAtEnd max room (len - c.free)) := by
  unfold CopiesExactly
  obtain ⟨hno, h0, hf, hr⟩ | ⟨d, hd, hw, hnr, hv⟩ :=
    storeItemCopyChunks_spec hmax room hfu hfi source hle
  · rw [hno]
    exact ⟨fun hg h => hg h.2.2.1, fun h hg => h ⟨h0, hf, hg, hr hg⟩⟩
  · have hl := congrArg List.length hv
    rw [List.length_append, List.length_take, Nat.min_eq_left hle] at hl
    rw [hd]
    exact ⟨fun _ h => hnr ⟨h.1, h.2.1, fun _ => h.2.2.2⟩, fun _ => ⟨hv, hl, hw.fits_chain⟩⟩

/-- Two of five bytes fill the chunk, and a chunk of the largest size takes the rest: the class
of the smaller size has no memory, and nothing else is asked for. -/
theorem copies_exactly_iff_five :
    CopiesExactly 128 (fun n => (false, n = 0)) [⟨1, [9]⟩] ⟨2, []⟩ [[1, 2, 3], [], [4, 5]] 5 :=
  (@copies_exactly_iff 128 (by decide) _ _ ⟨2, []⟩ (by decide) (by decide) _ 5
    (by decide)).mpr (by decide)

/-- Two bytes fill the chunk, and the copy fails for lack of memory for nothing. -/
theorem copy_refused_at_exact_fit :
    storeItemCopyChunks 128 (fun _ => (false, false)) [⟨2, []⟩] [[1, 2]] 2 = .noMemory ∧
      ¬CopiesExactly 128 (fun _ => (false, false)) [] ⟨2, []⟩ [[1, 2]] 2 := by
  refine ⟨by decide, fun h => h ?_⟩
  decide

/-! ## Append and prepend -/

/-- How the values are laid out in memory: the chunks of the items kept in chunks, which
allocations of chunks succeed in each of the two copies, and the bytes behind
`ITEM_data` of an item kept in chunks. -/
structure Layout (Addr : Type*) where
  chain : Addr → List Chunk
  room : ℕ → ℕ → Bool × Bool
  raw : ℕ → UInt8

section

variable {Addr : Type*}

/-- The blocks of memory in which the value of an item stands. -/
def Layout.blocks (L : Layout Addr) (s : Store Addr) (a : Addr) : List Bytes :=
  if (s.items a).flags.chunked then (L.chain a).map Chunk.data else [(s.items a).data]

/-- The item is kept in chunks iff `do_item_alloc` finds its size too large for one piece,
and its chunks then hold its value. -/
structure Layout.Holds (L : Layout Addr) (S : Settings) (s : Store Addr) (a : Addr) : Prop where
  chunked : (s.items a).flags.chunked =
    largeItem S (s.key a) (s.items a).flagsConv (s.items a).nbytes
  chain : (s.items a).flags.chunked = true → chainBytes (L.chain a) = (s.items a).data

def Layout.copy (L : Layout Addr) (S : Settings) (s : Store Addr) (comm : Comm)
    (it old : Addr) : Copied :=
  if comm = .append then copyIntoChunks S.slabChunkSizeMax L.room (L.blocks s old) (L.blocks s it)
  else copyIntoChunks S.slabChunkSizeMax L.room (L.blocks s it) (L.blocks s old)

def Layout.env (L : Layout Addr) (S : Settings) (s : Store Addr) (comm : Comm)
    (it old : Addr) : CopyEnv where
  ok := match L.copy S s comm it old with
    | .done _ => true
    | _ => false
  raw := L.raw

end

/-- The bytes behind `ITEM_data` of the added item happen to be those that the copy
should take from it. -/
def RawMatches (raw : ℕ → UInt8) (comm : Comm) (add : Item) : Prop :=
  let bytes := (List.range add.nbytes).map raw
  if comm = .append then bytes = add.data
  else bytes.take (add.nbytes - 2) = add.data.take (add.nbytes - 2)

variable {Addr : Type*} [DecidableEq Addr] [Fintype Addr] {S : Settings}
  {s s' : Store Addr} {it old : Addr} {L : Layout Addr}

omit [DecidableEq Addr] [Fintype Addr] in
theorem Layout.Holds.flatten_blocks (h : L.Holds S s it) :
    (L.blocks s it).flatten = (s.items it).data := by
  unfold Layout.blocks
  split_ifs with hc
  · rw [← h.chain hc, chainBytes, List.flatMap_def]
  · simp

theorem largeItem_mono {key : Bytes} {flags n m : ℕ} (h : n ≤ m)
    (hl : largeItem S key flags n = true) : largeItem S key flags m = true := by
  simp only [largeItem, decide_eq_true_eq] at hl ⊢
  omega

omit [DecidableEq Addr] [Fintype Addr] in
theorem Layout.copy_spec (hmax : 48 < S.slabChunkSizeMax) (hol : L.Holds S s old)
    (hit : L.Holds S s it) {comm : Comm} (ho : (L.env S s comm it old).ok = true) :
    ∃ d, L.copy S s comm it old = .done d ∧
      chainBytes d.chain = storeItemCopyData comm (s.items old).data (s.items it).data := by
  unfold Layout.env Layout.copy at ho
  unfold Layout.copy storeItemCopyData
  split_ifs at ho ⊢ with hc
  · rcases copyIntoChunks_spec hmax L.room (L.blocks s old) (L.blocks s it) with
      hnone | ⟨d, hd, hv⟩
    · rw [hnone] at ho
      cases ho
    · refine ⟨d, hd, ?_⟩
      rw [hv, hol.flatten_blocks, hit.flatten_blocks]
  · rcases copyIntoChunks_spec hmax L.room (L.blocks s it) (L.blocks s old) with
      hnone | ⟨d, hd, hv⟩
    · rw [hnone] at ho
      cases ho
    · refine ⟨d, hd, ?_⟩
      rw [hv, hol.flatten_blocks, hit.flatten_blocks]

theorem refs_doStoreItem_concat (h : Inv S s) (hlt : CountsLow s) (hl : ¬s.Linked it)
    (hhi : s.Hit (s.key it) old) {comm : Comm}
    (hc : comm = .append ∨ comm = .prepend) (setStale : Bool) (rounds : ℕ → Round Addr)
    (env : CopyEnv) : (doStoreItem S s it comm setStale rounds env).1.refs = s.refs := by
  have hg := doItemGet_peek h hlt hhi
  have hh := holding_takeRef h hlt hhi.linked
  have hne : it ≠ old := by
    rintro rfl
    exact hl hhi.linked
  have hk : (takeRef s old).key it = (takeRef s old).key old := by
    rw [Store.key, Store.key, items_takeRef, if_neg hne, items_takeRef, if_pos rfl]
    exact hhi.key.symm
  have hb : ∀ t : Store Addr, t.refs = (takeRef s old).refs →
      (releaseRef t old).refs = s.refs := by
    intro t ht
    funext b
    rw [refs_releaseRef, ht, refs_takeRef]
    split_ifs <;> omega
  simp only [doStoreItem, hg, planStore_concat hc]
  split_ifs with hba hhd
  · exact hb _ rfl
  · exact hb _ rfl
  obtain ⟨s2, hr, hal | ⟨s3, new, hal, ha⟩⟩ :=
    hh.alloc ((takeRef s old).items old).flagsConv ((takeRef s old).items old).exptime
      (((takeRef s old).items it).nbytes + ((takeRef s old).items old).nbytes - 2) rounds
  · simp only [planConcat, hk, hal, StorePlan.run]
    exact hb _ hr.refs
  have hn : ∀ t : Store Addr, t.refs = s3.refs →
      (releaseRef (releaseRef t old) new).refs = s.refs := by
    intro t ht
    funext b
    rw [refs_releaseRef, refs_releaseRef, ht, ha.refs, hr.refs, refs_takeRef]
    split_ifs <;> omega
  simp only [planConcat, hk, hal]
  split_ifs
  · exact hn _ rfl
  · exact hn _ (refs_doItemReplace)

/-- The value after an append or prepend, with its `\r\n`. -/
def concatenated (comm : Comm) (vOld vAdd : Bytes) : Bytes :=
  if comm = .append then vOld ++ vAdd ++ ascii "\r\n" else vAdd ++ vOld ++ ascii "\r\n"

theorem take_value (v : Bytes) : (v ++ ascii "\r\n").take ((v ++ ascii "\r\n").length - 2) = v := by
  have : (v ++ ascii "\r\n").length - 2 = v.length := by
    rw [List.length_append]
    rfl
  rw [this, List.take_left]

theorem storeItemCopyData_eq (comm : Comm) (vOld vAdd : Bytes) :
    storeItemCopyData comm (vOld ++ ascii "\r\n") (vAdd ++ ascii "\r\n") =
      concatenated comm vOld vAdd := by
  unfold storeItemCopyData concatenated
  rw [take_value, take_value, List.append_assoc, List.append_assoc]

theorem storeItemCopyData_raw (comm : Comm) {raw : ℕ → UInt8} {add : Item} (vOld : Bytes)
    {vAdd : Bytes} (ha : add.data = vAdd ++ ascii "\r\n") :
    storeItemCopyData comm (vOld ++ ascii "\r\n") ((List.range add.nbytes).map raw) =
      concatenated comm vOld vAdd ↔ RawMatches raw comm add := by
  have hl : ((List.range add.nbytes).map raw).length = add.nbytes := by simp
  have hv : add.data.take (add.nbytes - 2) = vAdd := by
    rw [Item.nbytes, ha, take_value]
  simp only [storeItemCopyData, concatenated, RawMatches, take_value, hl]
  split_ifs
  · rw [List.append_assoc, List.append_right_inj, ha]
  · rw [List.append_assoc, List.append_left_inj, hv]

/-- An append or prepend to a key with a live item, whatever the layout of the items: it
gives back every reference it took; if it stores, the key has an item with the client
flags and the expiry time of the old one, whose bytes are those of its chunks, and
they are the concatenation iff the added item is not kept in chunks, or the new one
is too, or the bytes found in place of the value match by accident; else the old item
is as it was. -/
theorem concat_result (hmax : 48 < S.slabChunkSizeMax) (h : Inv S s) (hlt : CountsLow s)
    (hr : 0 < s.refs it) (hl : ¬s.Linked it) (hhit : s.Hit (s.key it) old)
    (hold : L.Holds S s old) (hit : L.Holds S s it) {vOld vAdd : Bytes}
    (hvOld : (s.items old).data = vOld ++ ascii "\r\n")
    (hvAdd : (s.items it).data = vAdd ++ ascii "\r\n") {comm : Comm}
    (hc : comm = .append ∨ comm = .prepend) (setStale : Bool) (rounds : ℕ → Round Addr) :
    ∃ s' r cas, doStoreItem S s it comm setStale rounds (L.env S s comm it old) = (s', r, cas) ∧
      Inv S s' ∧ s'.refs = s.refs ∧
      (r = .stored → ∃ new, s'.Linked new ∧ s'.key new = s.key it ∧
        (s'.items new).flagsConv = (s.items old).flagsConv ∧
        (s'.items new).exptime = (s.items old).exptime ∧
        ((s'.items new).flags.chunked = true → ∃ d, L.copy S s comm it old = .done d ∧
          chainBytes d.chain = (s'.items new).data) ∧
        ((s'.items new).data = concatenated comm vOld vAdd ↔
          ((s.items it).flags.chunked = true →
            largeItem S (s.key it) (s.items old).flagsConv
                ((s.items it).nbytes + (s.items old).nbytes - 2) = true ∨
              RawMatches L.raw comm (s.items it)))) ∧
      (r ≠ .stored → s'.Linked old ∧ (s'.items old).content = (s.items old).content) := by
  obtain ⟨s', r, cas, he, hs⟩ := doStoreItem_of_hit h hlt hr hl hhit comm setStale rounds
    (L.env S s comm it old)
  have hre := refs_doStoreItem_concat h hlt hl hhit hc setStale rounds
    (L.env S s comm it old)
  rw [he] at hre
  have hco : Concatenates S s s' it old comm (L.env S s comm it old) r cas := by
    obtain rfl | rfl := hc <;> exact hs
  refine ⟨s', r, cas, he, ?_⟩
  cases hco with
  | badToken hq =>
    refine ⟨hq.inv, hre, by simp, fun _ => ?_⟩
    have hli := (hq.lost old hhit.linked).resolve_right id
    exact ⟨hli, hq.content old (hq.inv.not_slabbed_of_linked hli)⟩
  | refused hp =>
    refine ⟨hp.inv, hre, by simp, fun _ => ?_⟩
    have hli := (hp.lost old hhit.linked).resolve_right fun hne => hne rfl
    exact ⟨hli, (hp.linked old hli).2.1⟩
  | stored new it' _ hst hm hch ho =>
    have hda : (s'.items new).data = it'.data :=
      have h := congrArg Item.data hst.item
      h
    refine ⟨hst.inv, hre, fun _ => ⟨new, hst.linked, ?_, ?_, ?_, fun hcn => ?_, ?_⟩, by simp⟩
    · exact hst.key_eq.trans (hm.key.trans hhit.key)
    · have hfl := congrArg Item.flagsConv hst.item
      exact hfl.trans hm.flags
    · exact hst.exptime_eq.trans hm.exptime
    · have hc' : it'.flags.chunked = true :=
        (congrArg (fun it : Item => it.flags.chunked) hst.item).symm.trans hcn
      obtain ⟨d, hd, hv⟩ := Layout.copy_spec hmax hold hit (ho hc')
      refine ⟨d, hd, ?_⟩
      rw [hv, hda, hm.data, hc']
      simp [copySource]
    rw [hda, hm.data, ← hhit.key, ← hch]
    by_cases hcn : it'.flags.chunked = true
    · -- the copy follows the chunks of both sources
      rw [hcn]
      simp only [copySource, not_true_eq_false, and_false, if_false]
      rw [hvOld, hvAdd, storeItemCopyData_eq]
      simp
    rw [Bool.not_eq_true] at hcn
    have hn : (s.items old).nbytes ≤ (s.items it).nbytes + (s.items old).nbytes - 2 := by
      have : (s.items it).nbytes = vAdd.length + 2 := by
        rw [Item.nbytes, hvAdd, List.length_append]
        rfl
      omega
    have hf : (s.items old).flags.chunked = false := by
      rw [← Bool.not_eq_true, hold.chunked]
      intro hla
      rw [hch, largeItem_mono hn hla] at hcn
      cases hcn
    rw [hcn]
    by_cases hci : (s.items it).flags.chunked = true
    · simp only [copySource, hf, hci, Bool.false_eq_true, false_and, if_false,
        not_false_eq_true, and_self, if_true, hvOld, false_or, forall_const]
      exact storeItemCopyData_raw comm vOld hvAdd
    · simp only [copySource, hf, hci, Bool.false_eq_true, false_and, if_false, hvOld, hvAdd,
        storeItemCopyData_eq, false_imp_iff]

/-! ## Small chunks -/

def chunkSettings : Settings := { smallSettings with slabChunkSizeMax := 128 }

/-- A client uploads a value for a store command, in the memory at `i`. -/
def uploadOps {n : ℕ} (i : Fin n) (key : Bytes) (flags : ℕ) (value : Bytes) :
    List (Op (Fin n)) :=
  [.alloc key flags 0 value.length (slabAt i), .fill i value 0]

def largeLayout : Layout (Fin 3) where
  chain := fun _ => [⟨0, []⟩, ⟨80, List.replicate 80 97⟩,
    ⟨22, List.replicate 20 97 ++ ascii "\r\n"⟩]
  room := fun _ _ => (true, true)
  raw := fun _ => 0

def appendTrace : List (Op (Fin 3)) :=
  storeOps 0 (ascii "k") (List.replicate 100 97 ++ ascii "\r\n") 0 .set 0 ++
    uploadOps 1 (ascii "k") 0 (ascii "bcd\r\n")

/-- What is known of the state after `appendTrace`. -/
def AppendReady (s : Store (Fin 3)) : Prop :=
  CountsLow s ∧ 0 < s.refs 1 ∧ (s.items 1).flags.linked = false ∧ s.Linked 0 ∧
  s.key 0 = s.key 1 ∧ s.oldestLive = 0 ∧ (s.items 0).exptime = 0 ∧
  (s.items 0).flags.chunked = true ∧ (s.items 1).flags.chunked = false ∧
  (s.items 0).data = List.replicate 100 97 ++ ascii "\r\n" ∧
  (s.items 1).data = ascii "bcd" ++ ascii "\r\n" ∧ s.key 1 = ascii "k" ∧
  (s.items 0).flagsConv = 0 ∧ (s.items 1).flagsConv = 0 ∧
  (doStoreItem chunkSettings s 1 .append false (slabAt 2)
    (largeLayout.env chunkSettings s .append 1 0)).2.1 = .stored

instance (s : Store (Fin 3)) : Decidable (AppendReady s) := inferInstanceAs (Decidable (_ ∧ _))

theorem concat_result_appendTrace :
    ∃ s s' : Store (Fin 3), ∃ cas new,
      doStoreItem chunkSettings s 1 .append false (slabAt 2)
        (largeLayout.env chunkSettings s .append 1 0) = (s', .stored, cas) ∧
      (s'.items new).data = concatenated .append (List.replicate 100 97) (ascii "bcd") := by
  have hi := emptyStore_reachable 3 chunkSettings fun s _ => CountsLow s
  obtain ⟨s, he, hlo, hr, hl, hli, hke, ho, hexp, hc0, hc1, hd0, hd1, hk, hf0, hf1,
    hs⟩ := hi.exists_of_exec appendTrace
    (p := AppendReady) (by decide +kernel)
  have hin : Inv chunkSettings s := reachable_inv (fun _ _ => id) he
  have hh : s.Hit (s.key 1) 0 := ⟨hli, hke, not_dead_of_oldestLive ho hexp⟩
  have hn0 : (s.items 0).nbytes = 102 := by rw [Item.nbytes, hd0]; decide
  have hn1 : (s.items 1).nbytes = 5 := by rw [Item.nbytes, hd1]; decide
  have hl0 : largeLayout.Holds chunkSettings s 0 := by
    refine ⟨?_, fun _ => ?_⟩
    · rw [hc0, hke, hk, hf0, hn0]
      decide
    · rw [hd0]
      decide
  have hl1 : largeLayout.Holds chunkSettings s 1 := by
    refine ⟨?_, fun hc => ?_⟩
    · rw [hc1, hk, hf1, hn1]
      decide
    · rw [hc1] at hc
      cases hc
  obtain ⟨s', r, cas, heq, -, -, hre, -⟩ := concat_result (by decide) hin hlo hr
    (by simp [Store.Linked, hl]) hh hl0 hl1 hd0 hd1 (.inl rfl) false (slabAt 2)
  obtain rfl : r = .stored := by
    rw [heq] at hs
    exact hs
  obtain ⟨new, -, -, -, -, -, hif⟩ := hre rfl
  exact ⟨s, s', cas, new, heq, hif.mpr fun hc => by rw [hc1] at hc; cases hc⟩

/-- The bytes behind `ITEM_data` of an item kept in chunks: the pointer `next` of its
first chunk, whose bytes are 1 here, and then `prev`, a null pointer. -/
def headerBytes : CopyEnv where
  raw := fun i => if i < 8 then 1 else 0

/-- The item has the value `v`. The upload of an append carries client flags, four bytes
that make it an item of 129 bytes; the new item has none and needs 126. -/
def flagTrace : List (Op (Fin 3)) :=
  storeOps 0 (ascii "k") (ascii "v\r\n") 0 .set 0 ++
    uploadOps 1 (ascii "k") 5 (List.replicate 65 120 ++ ascii "\r\n")

/-- The value after the append is not the concatenation: where the added bytes should be,
it has bytes of the chunk header. -/
theorem append_copies_chunk_header :
    ∃ s s' : Store (Fin 3), ∃ cas,
      (system (Fin 3) chunkSettings).Reachable (fun s _ => CountsLow s) s ∧
      (s.Linked 0 ∧ s.key 0 = s.key 1 ∧ (s.items 0).data = ascii "v" ++ ascii "\r\n") ∧
      (s.items 1).data = List.replicate 65 120 ++ ascii "\r\n" ∧
      (system (Fin 3) chunkSettings).step s (.store 1 .append false (slabAt 2) headerBytes) =
        some (s', .stored .stored cas) ∧
      s'.Linked 2 ∧ s'.key 2 = s.key 1 ∧
      (s'.items 2).data ≠ concatenated .append (ascii "v") (List.replicate 65 120) := by
  have hi := emptyStore_reachable 3 chunkSettings fun s _ => CountsLow s
  obtain ⟨s, he, ho, ha, han⟩ := hi.exists_of_exec flagTrace
    (p := fun s => (s.Linked 0 ∧ s.key 0 = s.key 1 ∧ (s.items 0).data = ascii "v" ++ ascii "\r\n") ∧
      (s.items 1).data = List.replicate 65 120 ++ ascii "\r\n" ∧
      (((system (Fin 3) chunkSettings).step s
          (.store 1 .append false (slabAt 2) headerBytes)).any fun t =>
        decide (t.2 = .stored .stored (some 2) ∧ t.1.Linked 2 ∧ t.1.key 2 = s.key 1 ∧
          (t.1.items 2).data ≠ concatenated .append (ascii "v") (List.replicate 65 120))) = true)
    (by decide +kernel)
  obtain ⟨⟨s', r⟩, hs, hp⟩ := (Option.any_eq_true _ _).mp han
  obtain ⟨hr, hl, hk, hn⟩ := of_decide_eq_true hp
  simp only at hr hl hk hn
  subst hr
  exact ⟨s, s', _, he, ho, ha, hs, hl, hk, hn⟩

end Memcached.Items
