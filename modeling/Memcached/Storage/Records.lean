import Memcached.Lib.LittleEndian
import Memcached.Storage.ReadBack
import Mathlib.Algebra.Order.BigOperators.Group.List

/-!
# Records of the external storage (`storage.c`)

`storage_write` copies an item into a record: the fields from `nbytes` on, the key, the client
flags and the value. The checksum of all this is kept in the field `exptime`, which is before
`nbytes`. `storage_get_item` reads the record into a new item, in one piece or into a header and
chunks of other sizes, and `_storage_get_item_cb` computes the checksum piece by piece.

Results:
* `copyChunks_eq`: the chunks of an item are copied as one value
* `headerOf_body`, `foldl_crc`: what is read back, and its checksum
* `record_read_back_iff`: which items come back as they were
* `record_lost`: one that does not
-/

namespace Memcached.Storage.Records

open Lib Items ReadBack
open List (length_append length_nil append_assoc take_left' drop_left' sum_cons)

/-! ## Items in memory -/

/-- The bits of `it_flags`: `ITEM_LINKED`, `ITEM_CAS`, `ITEM_CHUNKED` and `ITEM_CFLAGS`. -/
def linkedBit : ℕ := 0
def casBit : ℕ := 1
def chunkedBit : ℕ := 5
def cflagsBit : ℕ := 8

def hasFlag (itFlags bit : ℕ) : Bool := decide (itFlags / 2 ^ bit % 2 = 1)

/-- The value of an item, in one piece or in a chain of chunks. -/
inductive Data where
  | flat (bytes : Bytes)
  | chunked (chain : List Chunk)

def Data.bytes : Data → Bytes
  | .flat bytes => bytes
  | .chunked chain => chainBytes chain

/-- An item from the field `nbytes` on (`STORE_OFFSET`): the fields, the six bytes up to
`data`, the CAS value, the key with a byte behind it, the client flags and the value. -/
structure ItemMem where
  nbytes : ℕ
  refcount : ℕ
  itFlags : ℕ
  slabsClsid : UInt8
  pad : Bytes
  cas : Bytes
  key : Bytes
  nul : UInt8
  clientFlags : ℕ
  data : Data

/-- `ITEM_ntotal` of an item with this key length, these client flags and this size
(`memcached.h`, lines 143-146). -/
def ntotal (nkey nbytes : ℕ) (cflags cas : Bool) : ℕ :=
  48 + nkey + 1 + nbytes + (if cflags then 4 else 0) + if cas then 8 else 0

def ItemMem.ntotal (it : ItemMem) : ℕ :=
  Records.ntotal it.key.length it.nbytes (hasFlag it.itFlags cflagsBit) (hasFlag it.itFlags casBit)

/-- The fields have their types, and the item is linked as `do_item_alloc` has made it: with
a CAS value and with client flags where there are any, in chunks when it is larger than
`slab_chunk_size_max`, and with its whole value. -/
structure ItemMem.WF (useCas : Bool) (max : ℕ) (it : ItemMem) : Prop where
  nbytes_lt : it.nbytes < 2 ^ 31
  refcount_lt : it.refcount < 2 ^ 16
  itFlags_lt : it.itFlags < 2 ^ 16
  pad : it.pad.length = 6
  key : it.key.length ≤ 250
  clientFlags_lt : it.clientFlags < 2 ^ 32
  cas : it.cas.length = if hasFlag it.itFlags casBit then 8 else 0
  useCas : hasFlag it.itFlags casBit = useCas
  cflags : hasFlag it.itFlags cflagsBit = decide (it.clientFlags ≠ 0)
  linked : hasFlag it.itFlags linkedBit = true
  chunked : hasFlag it.itFlags chunkedBit = decide (max < it.ntotal)
  layout : (∃ chain, it.data = .chunked chain) ↔ hasFlag it.itFlags chunkedBit = true
  value : it.data.bytes.length = it.nbytes

/-- The bytes from `nbytes` up to the value, with these `it_flags`. -/
def ItemMem.headBytes (it : ItemMem) (itFlags : ℕ) : Bytes :=
  leBytes 4 it.nbytes ++ leBytes 2 it.refcount ++ leBytes 2 itFlags ++
    [it.slabsClsid, UInt8.ofNat it.key.length] ++ it.pad ++ it.cas ++ it.key ++ [it.nul] ++
    if hasFlag it.itFlags cflagsBit then leBytes 4 it.clientFlags else []

/-! ## Writing -/

/-- The loop over the chunks (lines 531-538); none when its assertion fails. -/
def copyChunks : List Chunk → (remain : ℕ) → Option Bytes
  | [], _ => some []
  | sch :: chain, remain =>
    if remain = 0 then some []
    else if remain < sch.data.length then none
    else (copyChunks chain (remain - sch.data.length)).map (sch.data ++ ·)

/-- What is copied into the record behind `STORE_OFFSET` (lines 518-543), with
the flag `ITEM_LINKED` cleared. -/
def recordBody (it : ItemMem) : Option Bytes :=
  let head := it.headBytes (it.itFlags - it.itFlags % 2)
  match it.data with
  | .flat bytes => some (head ++ bytes)
  | .chunked chain => (copyChunks chain it.ntotal).map (head ++ ·)

/-- `storage_write` (lines 512-545): the record, with bytes from before in place
of the three pointers, the hash value `hv` as `time` and the checksum as `exptime`. -/
def storageWrite (crc32c : UInt32 → Bytes → UInt32) (dirty : Bytes) (hv : ℕ) (it : ItemMem) :
    Option Bytes :=
  (recordBody it).map fun body =>
    dirty ++ leBytes 4 hv ++ leBytes 4 (crc32c 0 body).toNat ++ body

/-! ## Reading -/

/-- `storage_get_item` (lines 239-320) for the header item of a key: no iovec for
an item in one piece, else the lengths of its entries; none when it fails. -/
def storageGetItem (useCas : Bool) (max : ℕ) (room : ℕ → Bool × Bool)
    (nkey clientFlags nbytes : ℕ) : Option (Option (List ℕ)) :=
  let total := ntotal nkey nbytes (clientFlags ≠ 0) useCas
  if total > max then
    match storageGetChunks max room nbytes with
    | .done entries => some (some ((total - nbytes) :: entries.map Entry.iovLen))
    | _ => none
  else some none

def splitLens (bytes : Bytes) : List ℕ → List Bytes
  | [] => []
  | len :: lens => bytes.take len :: splitLens (bytes.drop len) lens

def ssizeMax : ℕ := 2 ^ 63 - 1

/-- The storage returns the bytes that were written, in the pieces that it is asked for.
`preadv` fails for more than `SSIZE_MAX` bytes. -/
def readRecord (record : Bytes) : Option (List ℕ) → Option (List Bytes)
  | none => some [record]
  | some lens => if lens.sum > ssizeMax then none else some (splitLens record lens)

structure View where
  key : Bytes
  clientFlags : ℕ
  nbytes : ℕ
  value : Bytes
deriving DecidableEq

/-! The macros for an item whose bytes from `nbytes` on are `mem` (`memcached.h`, lines
133-176). -/

def itFlagsOf (mem : Bytes) : ℕ := ofLe ((mem.drop 6).take 2)

def nbytesOf (mem : Bytes) : ℕ := ofLe (mem.take 4)

def nkeyOf (mem : Bytes) : ℕ := ((mem.drop 9).headD 0).toNat

def keyOff (mem : Bytes) : ℕ := 16 + if hasFlag (itFlagsOf mem) casBit then 8 else 0

def suffixOff (mem : Bytes) : ℕ := keyOff mem + nkeyOf mem + 1

def dataOff (mem : Bytes) : ℕ :=
  suffixOff mem + if hasFlag (itFlagsOf mem) cflagsBit then 4 else 0

def keyOf (mem : Bytes) : Bytes := (mem.drop (keyOff mem)).take (nkeyOf mem)

def flagsConv (mem : Bytes) : ℕ :=
  if hasFlag (itFlagsOf mem) cflagsBit then ofLe ((mem.drop (suffixOff mem)).take 4) else 0

inductive Outcome where
  | miss
  | hit (view : View)
deriving DecidableEq

/-- `_storage_get_item_cb` (lines 128-223) for the pieces that were read: the
checksum over all of them from `STORE_OFFSET` on, 32, is compared with `exptime`. -/
def storageGetItemCb (crc32c : UInt32 → Bytes → UInt32) : Option (List Bytes) → Outcome
  | none | some [] => .miss
  | some (mem :: chunks) =>
    let crc := ofLe ((mem.drop 28).take 4)
    let crc2 := chunks.foldl crc32c (crc32c 0 (mem.drop 32))
    if crc ≠ crc2.toNat then .miss
    else
      let it := mem.drop 32
      let value := if hasFlag (itFlagsOf it) chunkedBit then chunks.flatten
        else it.drop (dataOff it)
      .hit ⟨keyOf it, flagsConv it, nbytesOf it, value.take (nbytesOf it)⟩

/-! ## The record -/

theorem hasFlag_clear (itFlags : ℕ) {bit : ℕ} (h : bit ≠ linkedBit) :
    hasFlag (itFlags - itFlags % 2) bit = hasFlag itFlags bit := by
  obtain ⟨bit, rfl⟩ : ∃ b, bit = b + 1 := ⟨bit - 1, by unfold linkedBit at h; omega⟩
  have hh : (itFlags - itFlags % 2) / 2 = itFlags / 2 := by omega
  unfold hasFlag
  rw [Nat.pow_succ, Nat.mul_comm, ← Nat.div_div_eq_div_mul, ← Nat.div_div_eq_div_mul, hh]

theorem length_headBytes {useCas : Bool} {max : ℕ} {it : ItemMem} (h : it.WF useCas max)
    (itFlags : ℕ) : (it.headBytes itFlags).length + 32 + it.nbytes = it.ntotal := by
  unfold ItemMem.headBytes ItemMem.ntotal Records.ntotal
  simp only [length_append, length_leBytes, List.length_cons, length_nil, h.pad, h.cas]
  split_ifs <;> simp only [length_leBytes, length_nil] <;> omega

section Header

variable {useCas : Bool} {max : ℕ} {it : ItemMem} (h : it.WF useCas max) (rest : Bytes)
include h

theorem nbytesOf_head (itFlags : ℕ) : nbytesOf (it.headBytes itFlags ++ rest) = it.nbytes := by
  have ht : (it.headBytes itFlags ++ rest).take 4 = leBytes 4 it.nbytes := by
    simp only [ItemMem.headBytes, append_assoc]
    exact take_left' (length_leBytes 4 it.nbytes)
  rw [nbytesOf, ht]
  exact ofLe_leBytes (lt_trans h.nbytes_lt (by decide))

omit h in
theorem itFlagsOf_head {itFlags : ℕ} (hl : itFlags < 2 ^ 16) :
    itFlagsOf (it.headBytes itFlags ++ rest) = itFlags := by
  have ht : ((it.headBytes itFlags ++ rest).drop 6).take 2 = leBytes 2 itFlags := by
    rw [ItemMem.headBytes]
    simp only [append_assoc]
    rw [← append_assoc, drop_left' (by simp)]
    exact take_left' (length_leBytes 2 itFlags)
  rw [itFlagsOf, ht]
  exact ofLe_leBytes hl

theorem nkeyOf_head (itFlags : ℕ) : nkeyOf (it.headBytes itFlags ++ rest) = it.key.length := by
  have hk := h.key
  have hb : (UInt8.ofNat it.key.length).toNat = it.key.length :=
    UInt8.toNat_ofNat_of_lt (show it.key.length < 256 by omega)
  have hd : ((it.headBytes itFlags ++ rest).drop 9).headD 0 = UInt8.ofNat it.key.length := by
    have hs : it.headBytes itFlags ++ rest =
        (leBytes 4 it.nbytes ++ leBytes 2 it.refcount ++ leBytes 2 itFlags ++ [it.slabsClsid]) ++
          UInt8.ofNat it.key.length :: (it.pad ++ it.cas ++ it.key ++ [it.nul] ++
          (if hasFlag it.itFlags cflagsBit then leBytes 4 it.clientFlags else []) ++ rest) := by
      simp [ItemMem.headBytes]
    rw [hs, drop_left' (by simp)]
    rfl
  rw [nkeyOf, hd, hb]

theorem offsets_body :
    let mem := it.headBytes (it.itFlags - it.itFlags % 2) ++ rest
    itFlagsOf mem = it.itFlags - it.itFlags % 2 ∧ keyOff mem = 16 + it.cas.length ∧
      suffixOff mem = 16 + it.cas.length + it.key.length + 1 ∧
      dataOff mem = (it.headBytes (it.itFlags - it.itFlags % 2)).length := by
  intro mem
  have hl := h.itFlags_lt
  have hf : itFlagsOf mem = it.itFlags - it.itFlags % 2 := itFlagsOf_head rest (by omega)
  have hk : keyOff mem = 16 + it.cas.length := by
    rw [keyOff, hf, hasFlag_clear _ (by decide), h.cas]
  have hs : suffixOff mem = 16 + it.cas.length + it.key.length + 1 := by
    rw [suffixOff, hk, nkeyOf_head h]
  refine ⟨hf, hk, hs, ?_⟩
  rw [dataOff, hs, hf, hasFlag_clear _ (by decide), ItemMem.headBytes]
  have hc : (if hasFlag it.itFlags cflagsBit then leBytes 4 it.clientFlags else []).length =
      if hasFlag it.itFlags cflagsBit then 4 else 0 := by
    split_ifs
    · exact length_leBytes 4 it.clientFlags
    · rfl
  simp only [length_append, length_leBytes, List.length_cons, length_nil, h.pad, hc]

theorem headerOf_body :
    let mem := it.headBytes (it.itFlags - it.itFlags % 2) ++ rest
    keyOf mem = it.key ∧ flagsConv mem = it.clientFlags ∧ nbytesOf mem = it.nbytes ∧
      mem.drop (dataOff mem) = rest := by
  intro mem
  obtain ⟨hf, hk, hsu, hd⟩ := offsets_body h rest
  -- the record, split at the key and at the client flags
  have hs : mem = (leBytes 4 it.nbytes ++ leBytes 2 it.refcount ++
      leBytes 2 (it.itFlags - it.itFlags % 2) ++ [it.slabsClsid, UInt8.ofNat it.key.length] ++
      it.pad ++ it.cas) ++ (it.key ++ ([it.nul] ++
      ((if hasFlag it.itFlags cflagsBit then leBytes 4 it.clientFlags else []) ++ rest))) := by
    simp [mem, ItemMem.headBytes]
  refine ⟨?_, ?_, nbytesOf_head h rest _, ?_⟩
  · rw [keyOf, nkeyOf_head h, hk]
    show (mem.drop _).take _ = _
    rw [hs, drop_left' (by simp [h.pad]; omega)]
    exact take_left' rfl
  · rw [flagsConv, hf, hsu, hasFlag_clear _ (by decide)]
    show (if _ then ofLe ((mem.drop _).take 4) else 0) = _
    rw [hs, ← append_assoc _ it.key, ← append_assoc _ [it.nul],
      drop_left' (by simp [h.pad]; omega)]
    by_cases hc : hasFlag it.itFlags cflagsBit = true
    · rw [if_pos hc, if_pos hc, take_left' (length_leBytes 4 it.clientFlags)]
      exact ofLe_leBytes h.clientFlags_lt
    · rw [if_neg hc]
      rw [h.cflags, decide_eq_true_eq, not_not] at hc
      exact hc.symm
  · rw [hd]
    exact drop_left' rfl

end Header

theorem copyChunks_eq {chain : List Chunk} {remain : ℕ} (h : (chainBytes chain).length < remain) :
    copyChunks chain remain = some (chainBytes chain) := by
  induction chain generalizing remain with
  | nil => rfl
  | cons sch chain ih =>
    rw [chainBytes, List.flatMap_cons, length_append] at h
    rw [copyChunks, if_neg (by omega), if_neg (by omega), ih (by unfold chainBytes; omega)]
    rfl

theorem recordBody_eq {useCas : Bool} {max : ℕ} {it : ItemMem} (h : it.WF useCas max) :
    recordBody it = some (it.headBytes (it.itFlags - it.itFlags % 2) ++ it.data.bytes) := by
  have hva := h.value
  have ht := length_headBytes h it.itFlags
  unfold recordBody
  rcases hd : it.data with bytes | chain
  · rfl
  rw [hd] at hva
  rw [Data.bytes] at hva
  simp only
  rw [copyChunks_eq (by omega)]
  rfl

/-! ## Pieces -/

theorem splitLens_flatten {bytes : Bytes} {lens : List ℕ} (h : lens.sum = bytes.length) :
    (splitLens bytes lens).flatten = bytes := by
  induction lens generalizing bytes with
  | nil =>
    rw [List.sum_nil] at h
    rw [List.length_eq_zero_iff.mp h.symm]
    rfl
  | cons len lens ih =>
    rw [sum_cons] at h
    rw [splitLens, List.flatten_cons, ih (by rw [List.length_drop]; omega)]
    exact List.take_append_drop len bytes

theorem foldl_crc {crc32c : UInt32 → Bytes → UInt32}
    (hcrc : ∀ c a b, crc32c (crc32c c a) b = crc32c c (a ++ b)) (c : UInt32) (front : Bytes)
    (pieces : List Bytes) :
    pieces.foldl crc32c (crc32c c front) = crc32c c (front ++ pieces.flatten) := by
  induction pieces generalizing front with
  | nil => rw [List.foldl_nil, List.flatten_nil, List.append_nil]
  | cons piece pieces ih =>
    rw [List.foldl_cons, hcrc, ih, List.flatten_cons, append_assoc]

/-! ## Main result -/

section RoundTrip

variable {crc32c : UInt32 → Bytes → UInt32}
  (hcrc : ∀ c a b, crc32c (crc32c c a) b = crc32c c (a ++ b))
  {useCas : Bool} {max : ℕ} {it : ItemMem} (h : it.WF useCas max) {dirty : Bytes} {hv : ℕ}
  (hdirty : dirty.length = 24)

def ItemMem.view (it : ItemMem) : View := ⟨it.key, it.clientFlags, it.nbytes, it.data.bytes⟩

include hcrc h hdirty

/-- A first piece with the header and `rest`, and pieces for the chunks, together the bytes of
the record: the checksum is right, and the item is the one that was written. -/
theorem storageGetItemCb_hit {rest : Bytes} (chunks : List Bytes)
    (hb : rest ++ chunks.flatten = it.data.bytes)
    (hva : (if hasFlag it.itFlags chunkedBit then chunks.flatten else rest) = it.data.bytes) :
    let head := it.headBytes (it.itFlags - it.itFlags % 2)
    storageGetItemCb crc32c (some ((dirty ++ leBytes 4 hv ++
      leBytes 4 (crc32c 0 (head ++ it.data.bytes)).toNat ++ (head ++ rest)) :: chunks)) =
      .hit it.view := by
  intro head
  set pre := dirty ++ leBytes 4 hv with hp
  set crc := crc32c 0 (head ++ it.data.bytes) with hcr
  have he : ((pre ++ leBytes 4 crc.toNat ++ (head ++ rest)).drop 28).take 4 =
      leBytes 4 crc.toNat := by
    rw [append_assoc, drop_left' (by simp [hp, hdirty])]
    exact take_left' (length_leBytes 4 _)
  have hm : (pre ++ leBytes 4 crc.toNat ++ (head ++ rest)).drop 32 = head ++ rest :=
    drop_left' (by simp [hp, hdirty])
  have hs : chunks.foldl crc32c (crc32c 0 (head ++ rest)) = crc := by
    rw [foldl_crc hcrc, append_assoc, hb]
  obtain ⟨hk, hf, hn, hd⟩ := headerOf_body h rest
  have hc : hasFlag (itFlagsOf (head ++ rest)) chunkedBit =
      hasFlag it.itFlags chunkedBit := by
    rw [(offsets_body h rest).1, hasFlag_clear _ (by decide)]
  have hcm : ofLe (leBytes 4 crc.toNat) = crc.toNat := ofLe_leBytes crc.toNat_lt
  simp only [storageGetItemCb, he, hm, hs, hcm, ne_eq, not_true, if_false]
  rw [hk, hf, hn, hd, hc, hva, List.take_of_length_le h.value.le]
  rfl

/-- Every linked item, in one piece or in chunks of any sizes, that is written and read back
into an item in one piece or in chunks of any sizes: the checksum is right and the key,
the client flags, the length and the value are the same, exactly when no chunk of the
largest size was allocated in place of a smaller last one. -/
theorem record_read_back_iff (hmax : 48 < max) (hint : max < 2 ^ 31) (room : ℕ → Bool × Bool)
    {lens : Option (List ℕ)}
    (hget : storageGetItem useCas max room it.key.length it.clientFlags it.nbytes = some lens) :
    ∃ record, storageWrite crc32c dirty hv it = some record ∧
      (storageGetItemCb crc32c (readRecord record lens) = .hit it.view ↔
        (max < it.ntotal →
          ¬LargerLast room 0 (it.nbytes / (max - 48)) (it.nbytes % (max - 48)))) := by
  set head := it.headBytes (it.itFlags - it.itFlags % 2) with hhea
  refine ⟨dirty ++ leBytes 4 hv ++ leBytes 4 (crc32c 0 (head ++ it.data.bytes)).toNat ++
    (head ++ it.data.bytes), by rw [storageWrite, recordBody_eq h]; rfl, ?_⟩
  set pre := dirty ++ leBytes 4 hv ++ leBytes 4 (crc32c 0 (head ++ it.data.bytes)).toNat with hpre
  have hpr : pre.length = 32 := by simp [hpre, hdirty]
  have hhe : head.length + 32 + it.nbytes = it.ntotal := length_headBytes h _
  have hnt :
      ntotal it.key.length it.nbytes (decide (it.clientFlags ≠ 0)) useCas = it.ntotal := by
    rw [ItemMem.ntotal, h.cflags, h.useCas]
  have hn := h.nbytes_lt
  simp only [storageGetItem, hnt] at hget
  by_cases hb : it.ntotal > max
  · rw [if_pos hb] at hget
    rcases hl : storageGetChunks max room it.nbytes with entries | _ | _ | _
    all_goals
      rw [hl] at hget
      simp only [Option.some.injEq, reduceCtorEq] at hget
    subst hget
    have hi := storageGetChunks_exactly_iff hmax hint room (q := it.nbytes / (max - 48)) hn
      (Nat.mod_lt _ (show 0 < max - 48 by omega)) (by rw [Nat.mul_comm, Nat.div_add_mod])
    obtain ⟨ht, hu⟩ := fetchLoop_done hmax hint room iovMax []
      (show it.nbytes < 2 ^ 64 by omega) (by simp) hl
    rw [imp_iff_right hb, ← hi, hl]
    obtain ht | hh := ht
    · have hto : total entries = it.nbytes := by simpa [total] using ht
      have hsu : (entries.map Entry.iovLen).sum = it.data.bytes.length := hto.trans h.value.symm
      refine iff_of_true ?_ ⟨hto, fun e he => ?_⟩
      · have hs : ¬((it.ntotal - it.nbytes) :: entries.map Entry.iovLen).sum > ssizeMax := by
          have hk := h.key
          have hc := h.cas
          rw [sum_cons, hsu, h.value]
          unfold ItemMem.ntotal ntotal ssizeMax
          split_ifs <;> omega
        have hp : splitLens (pre ++ (head ++ it.data.bytes))
            ((it.ntotal - it.nbytes) :: entries.map Entry.iovLen) =
            (pre ++ (head ++ [])) :: splitLens it.data.bytes (entries.map Entry.iovLen) := by
          have hlen : (pre ++ head).length = it.ntotal - it.nbytes := by
            rw [length_append]
            omega
          rw [splitLens, ← append_assoc, take_left' hlen, drop_left' hlen,
            List.append_nil]
        rw [readRecord, if_neg hs, hp]
        exact storageGetItemCb_hit hcrc h hdirty _ (splitLens_flatten hsu) (by
          rw [h.chunked, decide_eq_true hb]
          exact splitLens_flatten hsu)
      · have hle : e.iovLen ≤ total entries :=
          List.single_le_sum (by simp) _ (List.mem_map_of_mem he)
        rw [hu e he]
        omega
    · refine iff_of_false ?_ fun hex => ?_
      · have hla : ((it.ntotal - it.nbytes) :: entries.map Entry.iovLen).sum > ssizeMax := by
          rw [sum_cons]
          unfold total at hh
          unfold ssizeMax
          omega
        rw [readRecord, if_pos hla]
        simp [storageGetItemCb]
      · have hto : total entries = it.nbytes := hex.1
        omega
  · rw [if_neg hb] at hget
    cases hget
    refine iff_of_true ?_ fun hlt => absurd hlt hb
    exact storageGetItemCb_hit hcrc h hdirty [] (by simp) (by
      rw [h.chunked, decide_eq_false hb]
      rfl)

end RoundTrip

/-- CRC-32C (`crc32c.c`), bit by bit. -/
def crc32c (crc : UInt32) (bytes : Bytes) : UInt32 :=
  let shift (c : UInt32) := if c &&& 1 = 1 then (c >>> 1) ^^^ 0x82f63b78 else c >>> 1
  ~~~bytes.foldl (fun c b => shift^[8] (c ^^^ b.toUInt32)) (~~~crc)

theorem crc32c_append (c : UInt32) (a b : Bytes) : crc32c (crc32c c a) b = crc32c c (a ++ b) := by
  simp only [crc32c, UInt32.not_not, List.foldl_append]

/-- A value of 150 bytes in two chunks with room for 80 each, with the key `k` and the client
flags 7. -/
def largeItem : ItemMem where
  nbytes := 150
  refcount := 2
  itFlags := 1 + 2 + 32 + 256
  slabsClsid := 5
  pad := List.replicate 6 0
  cas := List.replicate 8 1
  key := [107]
  nul := 0
  clientFlags := 7
  data := .chunked [⟨0, []⟩, ⟨80, List.replicate 80 97⟩, ⟨80, List.replicate 70 98⟩]

theorem largeItem_wf : largeItem.WF true 128 where
  nbytes_lt := by decide
  refcount_lt := by decide
  itFlags_lt := by decide
  pad := by decide
  key := by decide
  clientFlags_lt := by decide
  cas := by decide
  useCas := by decide
  cflags := by decide
  linked := by decide
  chunked := by decide
  layout := iff_of_true ⟨_, rfl⟩ (by decide)
  value := rfl

/-- The item is read back into chunks of 80 and 70 bytes. -/
theorem record_read_back_iff_large :
    storageGetItem true 128 (fun _ => (true, true)) 1 7 150 = some (some [62, 80, 70]) ∧
      ∃ record, storageWrite crc32c (List.replicate 24 9) 5 largeItem = some record ∧
        storageGetItemCb crc32c (readRecord record (some [62, 80, 70])) = .hit largeItem.view := by
  have hg : storageGetItem true 128 (fun _ => (true, true)) largeItem.key.length
      largeItem.clientFlags largeItem.nbytes = some (some [62, 80, 70]) := by
    decide
  have hm : ∃ record, storageWrite crc32c (List.replicate 24 9) 5 largeItem = some record ∧
      (storageGetItemCb crc32c (readRecord record (some [62, 80, 70])) = .hit largeItem.view ↔
        (128 < largeItem.ntotal → ¬LargerLast (fun _ => (true, true)) 0
          (largeItem.nbytes / (128 - 48)) (largeItem.nbytes % (128 - 48)))) :=
    record_read_back_iff crc32c_append largeItem_wf rfl (by decide) (by decide) _ hg
  obtain ⟨record, hw, hr⟩ := hm
  exact ⟨hg, record, hw, hr.mpr fun _ hl => absurd hl.2.2.2.1 (by decide)⟩

/-- There is no memory in the class of the last 70 bytes: the entries are for more bytes than
can be read at once, and the item is a miss. -/
theorem record_lost : ∃ record lens,
    storageWrite crc32c (List.replicate 24 9) 5 largeItem = some record ∧
    storageGetItem true 128 (fun i => (decide (i ≠ 1), true)) 1 7 150 = some (some lens) ∧
    storageGetItemCb crc32c (readRecord record (some lens)) = .miss := by
  refine ⟨_, [62, 80, 70, 2 ^ 64 - 10], by rw [storageWrite, recordBody_eq largeItem_wf]; rfl,
    by decide, ?_⟩
  rw [readRecord, if_pos (by decide)]
  rfl

end Memcached.Storage.Records
