import Mathlib.Algebra.Order.Group.Nat
import Mathlib.Data.Finset.Basic

/-!
# The slab allocator of `slabs.c` and its page mover

Memory comes in pages. Each slab class owns an array `slab_list` of pages, of which the
first `slabs` entries are in use, and a free list of chunks; class 0 is the pool of pages
that no class uses. The mover thread takes a page from one class to another in many
critical sections: `slab_rebalance_start` picks the page, `slab_rebalance_move` empties it
chunk by chunk, and `slab_rebalance_finish` moves it between the arrays.

A page is the address of its first byte and a chunk is a page with an index. An array is a
total function: what lies beyond `list_size` does not belong to it. What `malloc` and
`realloc` answer, and what the mover finds out about an item, are arguments. `live` is not
in the source: it is the set of pages obtained and not yet freed.
-/

namespace Memcached.Slabs

open Function (update)

/-! ## State -/

abbrev Page := ℕ

/-- A chunk: the page it lies in and its index there. -/
structure Chunk where
  page : Page
  idx : ℕ
deriving DecidableEq

/-- What the allocator reads of a chunk's `it_flags`: on a free list
(`ITEM_SLABBED`), cleared for a page move (`ITEM_SLABBED|ITEM_FETCHED`), or in
use. -/
inductive ChunkState where
  | slabbed
  | cleared
  | inUse
deriving DecidableEq

/-- `slabclass_t` (lines 28-40), without the constants `size` and
`perslab`. -/
structure SlabClass where
  slots : List Chunk
  slCurr : ℕ
  slabs : ℕ
  slabList : ℕ → Page
  listSize : ℕ

/-- `struct slab_rebalance` (`memcached.h`), without its statistics; `slabPos` is
the index of the chunk that `slab_pos` points at. -/
structure SlabRebal where
  sClsid : ℕ
  dClsid : ℕ
  slabStart : Option Page
  slabPos : ℕ
  busyItems : ℕ
  done : ℕ
  completed : ℕ → Bool

/-- The settings and the class constants that `slabs_init` leaves behind. -/
structure Config where
  powerLargest : ℕ
  size : ℕ → ℕ
  perslab : ℕ → ℕ
  slabPageSize : ℕ
  slabChunkSizeMax : ℕ
  slabReassign : Bool
  /-- `mem_base != NULL`: pages are cut from one preallocated area. -/
  memBase : Bool
  slabPageSize_pos : 0 < slabPageSize
  /-- Class 0 is the pool: nothing reads its sizes, and any positive ones do. -/
  chunks_pos : ∀ id, 0 < size id * perslab id

/-- The globals of `slabs.c` (lines 42-58). -/
structure SlabState where
  slabclass : ℕ → SlabClass
  memLimit : ℕ
  memMalloced : ℕ
  memLimitReached : Bool
  memCurrent : ℕ
  memAvail : ℕ
  rebal : SlabRebal
  slabRebalanceSignal : ℕ
  chunks : Chunk → ChunkState
  live : Finset Page

/-- `SLAB_GLOBAL_PAGE_POOL` -/
def globalPagePool : ℕ := 0

def powerSmallest : ℕ := 1

def chunkAlignBytes : ℕ := 8

/-- What the C library answers in a step. -/
structure LibC where
  malloc : Option Page
  reallocOk : Bool

def SlabState.setClass (s : SlabState) (id : ℕ) (p : SlabClass) : SlabState :=
  { s with slabclass := update s.slabclass id p }

/-- `p->slab_list[p->slabs++] = ptr` -/
def SlabClass.append (p : SlabClass) (ptr : Page) : SlabClass :=
  { p with slabList := update p.slabList p.slabs ptr, slabs := p.slabs + 1 }

/-- `p->slabs--`, where `slabs` is not zero. -/
def SlabClass.pop (p : SlabClass) : SlabClass := { p with slabs := p.slabs - 1 }

/-! ## Pages -/

/-- The class with its array enlarged (lines 340-344). -/
def SlabClass.grown (p : SlabClass) : SlabClass :=
  { p with listSize := if p.listSize ≠ 0 then p.listSize * 2 else 16 }

/-- `grow_slab_list` (lines 337-347). -/
def growSlabList (s : SlabState) (id : ℕ) (reallocOk : Bool) : SlabState × Bool :=
  let p := s.slabclass id
  if p.slabs = p.listSize then
    if reallocOk then (s.setClass id p.grown, true) else (s, false)
  else (s, true)

/-- `get_page_from_global_pool` (lines 359-367). -/
def getPageFromGlobalPool (s : SlabState) : SlabState × Option Page :=
  let p := s.slabclass globalPagePool
  if p.slabs < 1 then (s, none)
  else (s.setClass globalPagePool p.pop, some (p.slabList (p.slabs - 1)))

/-- The size rounded up to a multiple of `CHUNK_ALIGN_BYTES` (lines 624-626). -/
def alignSize (size : ℕ) : ℕ :=
  if size % chunkAlignBytes ≠ 0 then size + (chunkAlignBytes - size % chunkAlignBytes) else size

/-- `memory_allocate` (lines 610-638). -/
def memoryAllocate (cfg : Config) (s : SlabState) (size : ℕ) (lib : LibC) :
    SlabState × Option Page :=
  if cfg.memBase = false then
    let s := { s with memMalloced := s.memMalloced + size }
    match lib.malloc with
    | none => (s, none)
    | some ptr => ({ s with live := insert ptr s.live }, some ptr)
  else
    let ret := s.memCurrent
    if size > s.memAvail then (s, none)
    else
      ({ s with
          memCurrent := s.memCurrent + alignSize size
          memAvail := if alignSize size < s.memAvail then s.memAvail - alignSize size else 0
          memMalloced := s.memMalloced + alignSize size
          live := insert ret s.live }, some ret)

/-- Puts a chunk on the free list of a class (lines 511-517). -/
def pushSlot (s : SlabState) (it : Chunk) (id : ℕ) : SlabState :=
  let p := s.slabclass id
  { s.setClass id { p with slots := it :: p.slots, slCurr := p.slCurr + 1 } with
    chunks := update s.chunks it .slabbed }

/-- `do_slabs_free` of a chunk that is not a chunked item's header (lines
498-523). -/
def doSlabsFree (cfg : Config) (s : SlabState) (it : Chunk) (id : ℕ) : SlabState :=
  if id < powerSmallest ∨ id > cfg.powerLargest then s else pushSlot s it id

/-- `do_slabs_free_chunked` (lines 450-495): the header and every chained chunk,
each with the class its memory belongs to. -/
def doSlabsFreeChunked (s : SlabState) (parts : List (Chunk × ℕ)) : SlabState :=
  parts.foldl (fun s part => pushSlot s part.1 part.2) s

/-- `split_slab_page_into_freelist` (lines 349-356). -/
def splitSlabPageIntoFreelist (cfg : Config) (s : SlabState) (ptr : Page) (id : ℕ) : SlabState :=
  (List.range (cfg.perslab id)).foldl (fun s x => doSlabsFree cfg s ⟨ptr, x⟩ id) s

/-- The length of a new page of class `id` (lines 372-374). -/
def newslabLen (cfg : Config) (id : ℕ) : ℕ :=
  if cfg.slabReassign ∨ cfg.slabChunkSizeMax ≠ cfg.slabPageSize then cfg.slabPageSize
  else cfg.size id * cfg.perslab id

/-- The test of lines 377-378: the memory limit refuses a new page. -/
def MemLimitHit (cfg : Config) (s : SlabState) (id : ℕ) : Prop :=
  s.memLimit ≠ 0 ∧ s.memMalloced + newslabLen cfg id > s.memLimit ∧
    0 < (s.slabclass id).slabs ∧ (s.slabclass globalPagePool).slabs = 0

instance (cfg : Config) (s : SlabState) (id : ℕ) : Decidable (MemLimitHit cfg s id) :=
  inferInstanceAs (Decidable (_ ∧ _))

/-- `(ptr = get_page_from_global_pool()) == NULL && (ptr = memory_allocate(len)) == 0` -/
def takePage (cfg : Config) (s : SlabState) (id : ℕ) (lib : LibC) : SlabState × Option Page :=
  match getPageFromGlobalPool s with
  | (s, some ptr) => (s, some ptr)
  | (s, none) => memoryAllocate cfg s (newslabLen cfg id) lib

/-- `do_slabs_newslab` (lines 369-403); returns the page given to the class. -/
def doSlabsNewslab (cfg : Config) (s : SlabState) (id : ℕ) (lib : LibC) : SlabState × Option Page :=
  if MemLimitHit cfg s id then ({ s with memLimitReached := true }, none)
  else
    match growSlabList s id lib.reallocOk with
    | (s, false) => (s, none)
    | (s, true) =>
      match takePage cfg s id lib with
      | (s, none) => (s, none)
      | (s, some ptr) =>
        let s := splitSlabPageIntoFreelist cfg s ptr id
        (s.setClass id ((s.slabclass id).append ptr), some ptr)

/-- `do_slabs_alloc` (lines 406-448); returns the chunk, and the page given to
the class on the way. -/
def doSlabsAlloc (cfg : Config) (s : SlabState) (id : ℕ) (noNewpage : Bool) (lib : LibC) :
    SlabState × Option Chunk × Option Page :=
  if id < powerSmallest ∨ id > cfg.powerLargest then (s, none, none)
  else
    let (s, page) := if (s.slabclass id).slCurr = 0 ∧ noNewpage = false then
      doSlabsNewslab cfg s id lib else (s, none)
    let p := s.slabclass id
    match p.slots with
    | it :: slots =>
      if p.slCurr ≠ 0 then
        ({ s.setClass id { p with slots := slots, slCurr := p.slCurr - 1 } with
            chunks := update s.chunks it .inUse }, some it, page)
      else (s, none, page)
    | [] => (s, none, page)

theorem doSlabsAlloc_of_valid {cfg : Config} {s : SlabState} {id : ℕ} {noNewpage : Bool}
    {lib : LibC} {n : SlabState × Option Page} (hi : ¬(id < powerSmallest ∨ id > cfg.powerLargest))
    (hn : n = if (s.slabclass id).slCurr = 0 ∧ noNewpage = false then
      doSlabsNewslab cfg s id lib else (s, none)) :
    doSlabsAlloc cfg s id noNewpage lib =
      match (n.1.slabclass id).slots with
      | it :: slots =>
        if (n.1.slabclass id).slCurr ≠ 0 then
          ({ n.1.setClass id { n.1.slabclass id with
              slots := slots, slCurr := (n.1.slabclass id).slCurr - 1 } with
            chunks := update n.1.chunks it .inUse }, some it, n.2)
        else (n.1, none, n.2)
      | [] => (n.1, none, n.2) := by
  rw [hn]
  exact if_neg hi

/-- `free(p); mem_malloced -= settings.slab_page_size;` -/
def freePage (cfg : Config) (s : SlabState) (p : Page) : SlabState :=
  { s with memMalloced := s.memMalloced - cfg.slabPageSize, live := s.live.erase p }

/-- The loop of `memory_release` (lines 649-653), over the pages of the pool. -/
def releaseLoop (cfg : Config) : ℕ → SlabState → SlabState × List Page
  | 0, s => (s, [])
  | n + 1, s =>
    if s.memMalloced > s.memLimit then
      match getPageFromGlobalPool s with
      | (s, none) => (s, [])
      | (s, some p) =>
        let r := releaseLoop cfg n (freePage cfg s p)
        (r.1, p :: r.2)
    else (s, [])

/-- `memory_release` (lines 641-654); returns the pages it frees. -/
def memoryRelease (cfg : Config) (s : SlabState) : SlabState × List Page :=
  if cfg.memBase = true then (s, [])
  else if cfg.slabReassign = false then (s, [])
  else releaseLoop cfg (s.slabclass globalPagePool).slabs s

/-- `do_slabs_adjust_mem_limit` (lines 678-687). -/
def doSlabsAdjustMemLimit (cfg : Config) (s : SlabState) (newMemLimit : ℕ) :
    SlabState × List Page :=
  if cfg.memBase = true then (s, [])
  else memoryRelease cfg { s with memLimit := newMemLimit, memLimitReached := false }

/-! ## The page mover -/

/-- What `slab_rebalance_move` finds out about an item in use (lines 878-946): it
is busy or locked; it is idle and worth saving; it has expired or was flushed;
and whether it, or the item whose chunk it is, is chunked (`parts` are then the
chunks that freeing the item gives back). -/
inductive InUse where
  | busy
  | save
  | expired
  | chunked (parts : List (Chunk × ℕ)) (expired : Bool)
deriving DecidableEq

/-- `do_slabs_reassign` (lines 1264-1296); for `src = -1` the class that
`slabs_reassign_pick_any` chose. -/
def doSlabsReassign (cfg : Config) (s : SlabState) (src dst : ℕ) : SlabState :=
  if s.slabRebalanceSignal ≠ 0 then s
  else if src = dst then s
  else if src > cfg.powerLargest ∨ dst > cfg.powerLargest then s
  else if (s.slabclass src).slabs < 2 then s
  else
    { s with
      rebal := { s.rebal with sClsid := src, dClsid := dst }
      slabRebalanceSignal := 1 }

/-- The mover picks the first page of the source class (lines 759-776). -/
def pickPage (s : SlabState) : SlabState :=
  { s with
    rebal := { s.rebal with
      slabStart := some ((s.slabclass s.rebal.sClsid).slabList 0)
      slabPos := 0
      done := if s.rebal.sClsid = globalPagePool then 1 else 0
      completed := fun _ => false }
    slabRebalanceSignal := 2 }

/-- `slab_rebalance_start` (lines 730-786), with the reaction of the mover thread to
a failure (lines 1211-1215). -/
def slabRebalanceStart (cfg : Config) (s : SlabState) (lib : LibC) : SlabState :=
  let src := s.rebal.sClsid
  let dst := s.rebal.dClsid
  let badClass := src > cfg.powerLargest ∨ dst > cfg.powerLargest ∨ src = dst
  let (s, grown) := growSlabList s dst lib.reallocOk
  if badClass ∨ grown = false ∨ (s.slabclass src).slabs < 2 then
    { s with slabRebalanceSignal := 0 }
  else pickPage s

/-- `slab_rebalance_alloc` (lines 789-818): takes chunks off the free list until
one lies outside the page being moved. -/
def slabRebalanceAlloc (cfg : Config) (id : ℕ) (slabStart : Option Page) (lib : LibC) :
    ℕ → SlabState → SlabState × Option Chunk
  | 0, s => (s, none)
  | n + 1, s =>
    match doSlabsAlloc cfg s id true lib with
    | (s, none, _) => (s, none)
    | (s, some it, _) =>
      if some it.page = slabStart then
        slabRebalanceAlloc cfg id slabStart lib n
          { s with chunks := update s.chunks it .cleared }
      else (s, some it)

/-- `slab_rebalance_cut_free` (lines 822-831). -/
def slabRebalanceCutFree (s : SlabState) (id : ℕ) (it : Chunk) : SlabState :=
  let p := s.slabclass id
  s.setClass id { p with slots := p.slots.erase it, slCurr := p.slCurr - 1 }

/-- The chunk under `slab_pos` is done: it is cleared, and marked in `completed`. -/
def markCompleted (s : SlabState) (it : Chunk) : SlabState :=
  { s with
    chunks := update s.chunks it .cleared
    rebal := { s.rebal with completed := update s.rebal.completed it.idx true } }

def markBusy (s : SlabState) : SlabState :=
  { s with rebal := { s.rebal with busyItems := s.rebal.busyItems + 1 } }

/-- The chunk cannot be saved (lines 1040-1058): its item is unlinked; a chunked
item is freed and its chunks are looked at again later. -/
def slabRebalanceEvict (s : SlabState) (it : Chunk) : InUse → SlabState
  | .chunked parts _ => markBusy (doSlabsFreeChunked s parts)
  | _ => markCompleted s it

/-- The chunk is copied to a free chunk of its class (lines 977-1038), or evicted
when there is none. -/
def slabRebalanceSave (cfg : Config) (s : SlabState) (it : Chunk) (found : InUse) (lib : LibC) :
    SlabState :=
  match slabRebalanceAlloc cfg s.rebal.sClsid s.rebal.slabStart lib
      (cfg.perslab s.rebal.sClsid) s with
  | (s, none) => slabRebalanceEvict s it found
  | (s, some _) => markCompleted s it

/-- The part of `slab_rebalance_move` under `slabs_lock` (lines 870-1082). -/
def slabRebalanceMoveChunk (cfg : Config) (s : SlabState) (it : Chunk) (found : InUse)
    (lib : LibC) : SlabState :=
  match s.chunks it with
  | .cleared => s
  | .slabbed => markCompleted (slabRebalanceCutFree s s.rebal.sClsid it) it
  | .inUse =>
    match found with
    | .busy => markBusy s
    | .save | .chunked _ false => slabRebalanceSave cfg s it found lib
    | .expired | .chunked _ true => slabRebalanceEvict s it found

/-- The chunk under `slab_pos`, unless it is done (lines 868-1084). -/
def slabRebalanceLook (cfg : Config) (s : SlabState) (found : InUse) (lib : LibC) : SlabState :=
  match s.rebal.slabStart with
  | none => s
  | some page =>
    if s.rebal.completed s.rebal.slabPos then s
    else slabRebalanceMoveChunk cfg s ⟨page, s.rebal.slabPos⟩ found lib

/-- `slab_pos` goes to the next chunk; at the end of the page the mover starts again
if there were busy items, and is done otherwise (lines 1090-1104). -/
def advanceSlabPos (cfg : Config) (s : SlabState) : SlabState :=
  if s.rebal.slabPos + 1 ≥ cfg.perslab s.rebal.sClsid then
    if s.rebal.busyItems ≠ 0 then { s with rebal := { s.rebal with slabPos := 0, busyItems := 0 } }
    else
      { s with
        rebal := { s.rebal with slabPos := s.rebal.slabPos + 1, done := s.rebal.done + 1 } }
  else { s with rebal := { s.rebal with slabPos := s.rebal.slabPos + 1 } }

/-- `slab_rebalance_move` (lines 856-1107). -/
def slabRebalanceMove (cfg : Config) (s : SlabState) (found : InUse) (lib : LibC) : SlabState :=
  advanceSlabPos cfg (slabRebalanceLook cfg s found lib)

/-- `s_cls->slabs--` on an `unsigned int`, and the loop that shifts the array
(lines 1143-1147). -/
def SlabClass.shift (p : SlabClass) : SlabClass :=
  let slabs := if p.slabs = 0 then 2 ^ 32 - 1 else p.slabs - 1
  { p with slabs := slabs, slabList := fun x => p.slabList (if x < slabs then x + 1 else x) }

/-- `slab_rebalance_finish` (lines 1109-1197); returns the pages that
`memory_release` frees at its end. -/
def slabRebalanceFinish (cfg : Config) (s : SlabState) : SlabState × List Page :=
  let src := s.rebal.sClsid
  let dst := s.rebal.dClsid
  let slabStart := s.rebal.slabStart.getD 0
  let s := s.setClass src (s.slabclass src).shift
  let s := s.setClass dst ((s.slabclass dst).append slabStart)
  let (s, freed) := if dst > globalPagePool then
      (splitSlabPageIntoFreelist cfg s slabStart dst, [])
    else memoryRelease cfg { s with memLimitReached := false }
  ({ s with
      rebal := { s.rebal with done := 0, sClsid := 0, dClsid := 0, slabStart := none, slabPos := 0 }
      slabRebalanceSignal := 0 }, freed)

/-! ## Steps -/

inductive Act where
  | newslab (id : ℕ) (lib : LibC)
  | alloc (id : ℕ) (noNewpage : Bool) (lib : LibC)
  | free (it : Chunk) (id : ℕ)
  | freeChunked (parts : List (Chunk × ℕ))
  | adjustMemLimit (newMemLimit : ℕ)
  | reassign (src dst : ℕ)
  | rebalanceStart (lib : LibC)
  | rebalanceMove (found : InUse) (lib : LibC)
  | rebalanceFinish

/-- `slabs_init` (lines 208-296) before any page is allocated. -/
def slabsInit (limit memCurrent : ℕ) : SlabState where
  slabclass := fun _ =>
    { slots := [], slCurr := 0, slabs := 0, slabList := fun _ => 0, listSize := 0 }
  memLimit := limit
  memMalloced := 0
  memLimitReached := false
  memCurrent := memCurrent
  memAvail := limit
  rebal :=
    { sClsid := 0, dClsid := 0, slabStart := none, slabPos := 0, busyItems := 0, done := 0,
      completed := fun _ => false }
  slabRebalanceSignal := 0
  chunks := fun _ => .inUse
  live := ∅

/-- The pages that a step gives to a class and those that it frees. -/
structure PageEvents where
  handed : Option Page := none
  released : List Page := []

/-- `malloc` never returns a page that is still allocated. -/
def LibC.Fresh (lib : LibC) (s : SlabState) : Prop := ∀ ptr, lib.malloc = some ptr → ptr ∉ s.live

instance (lib : LibC) (s : SlabState) : Decidable (lib.Fresh s) :=
  decidable_of_iff (∀ ptr ∈ lib.malloc, ptr ∉ s.live) Iff.rfl

/-- One critical section; `none` when it cannot run. The mover thread starts a move
when one was requested, continues while the page is not empty and finishes
when it is (lines 1210-1224). -/
def step (cfg : Config) (s : SlabState) : Act → Option (SlabState × PageEvents)
  | .newslab id lib =>
    if lib.Fresh s ∧ powerSmallest ≤ id ∧ id ≤ cfg.powerLargest then
      let r := doSlabsNewslab cfg s id lib
      some (r.1, { handed := r.2 })
    else none
  | .alloc id noNewpage lib =>
    if lib.Fresh s then
      let r := doSlabsAlloc cfg s id noNewpage lib
      some (r.1, { handed := r.2.2 })
    else none
  | .free it id => some (doSlabsFree cfg s it id, {})
  | .freeChunked parts => some (doSlabsFreeChunked s parts, {})
  | .adjustMemLimit newMemLimit =>
    let r := doSlabsAdjustMemLimit cfg s newMemLimit
    some (r.1, { released := r.2 })
  | .reassign src dst => some (doSlabsReassign cfg s src dst, {})
  | .rebalanceStart lib =>
    if s.slabRebalanceSignal = 1 then some (slabRebalanceStart cfg s lib, {}) else none
  | .rebalanceMove found lib =>
    if s.slabRebalanceSignal = 2 ∧ s.rebal.done = 0 then
      some (slabRebalanceMove cfg s found lib, {})
    else none
  | .rebalanceFinish =>
    if s.rebal.done ≠ 0 then
      let r := slabRebalanceFinish cfg s
      some (r.1, { released := r.2 })
    else none

end Memcached.Slabs
