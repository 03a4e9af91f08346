import Memcached.Slabs.Mover

/-!
# What the chunks of a page hold

The allocator's state is joined here with the headers of the chunks: a chunk holds
nothing, memory without a header yet, an item, or a part of a chunked item. The workers
allocate, upload, link, unlink, read and free; the mover looks at one chunk of its page at
a time and decides from the headers what to do with it.

`refcount` is the 16-bit counter of the source; `refs` is not in the source: it is
the number of references that the threads hold. `clsid` is the class that the memory
of the chunk belongs to, which for the header of a chunked item is `orig_clsid`.
-/

namespace Memcached.Slabs

open Lib

/-! ## What the chunks hold -/

/-- What a chunk holds: nothing, memory that `do_slabs_alloc` has returned, an item
with its chain if it is chunked, or a chained chunk of an item. -/
inductive Kind where
  | free
  | taken
  | item (linked : Bool) (chain : Option (List Chunk))
  | part (head : Chunk)
deriving DecidableEq

/-- The header of a chunk; `clsid` is the class its memory belongs to. -/
structure Header where
  clsid : ℕ
  refcount : ℕ
  refs : ℕ
  kind : Kind
deriving DecidableEq

structure PageState where
  slabs : SlabState
  hdr : Chunk → Header

def PageState.clsid (m : PageState) (c : Chunk) : ℕ := (m.hdr c).clsid

def PageState.kind (m : PageState) (c : Chunk) : Kind := (m.hdr c).kind

def PageState.setHdr (m : PageState) (c : Chunk) (f : Header → Header) : PageState :=
  { m with hdr := Function.update m.hdr c (f (m.hdr c)) }

/-- A page that was wiped and cut into chunks of class `id`. -/
def formatted (hdr : Chunk → Header) (page : Page) (id : ℕ) : Chunk → Header := fun c =>
  if c.page = page then { hdr c with clsid := id, refcount := 0, kind := .free } else hdr c

/-- The chunks are no longer in use. -/
def freed (hdr : Chunk → Header) (l : List Chunk) : Chunk → Header := fun c =>
  if c ∈ l then { hdr c with kind := .free } else hdr c

/-- The chunks, each with the class its memory belongs to. -/
def PageState.parts (m : PageState) (l : List Chunk) : List (Chunk × ℕ) :=
  l.map fun c => (c, m.clsid c)

/-! ## The operations of the workers -/

/-- `item_free` (`items.c`, lines 363-375). -/
def itemFree (cfg : Config) (m : PageState) (c : Chunk) : PageState :=
  match m.kind c with
  | .item _ (some chain) =>
    { slabs := doSlabsFreeChunked m.slabs (m.parts (c :: chain)), hdr := freed m.hdr (c :: chain) }
  | _ => { slabs := doSlabsFree cfg m.slabs c (m.clsid c), hdr := freed m.hdr [c] }

/-- `do_item_remove` (`items.c`, lines 552-560), on a 16-bit counter. -/
def doItemRemove (cfg : Config) (m : PageState) (c : Chunk) : PageState :=
  let refcount := ((m.hdr c).refcount + 65535) % 65536
  let m := m.setHdr c fun h => { h with refcount := refcount }
  if refcount = 0 then itemFree cfg m c else m

/-- The headers after `do_slabs_newslab`. -/
def newslabHdr (hdr : Chunk → Header) (page : Option Page) (id : ℕ) : Chunk → Header :=
  match page with
  | some page => formatted hdr page id
  | none => hdr

/-- `it->refcount = 1` in `do_slabs_alloc` (`slabs.c`, lines 430-437): the caller holds
the memory. -/
def Header.take (h : Header) : Header :=
  { h with refcount := 1, refs := h.refs + 1, kind := .taken }

/-- `slabs_alloc` on the allocator and on the headers. -/
def allocChunk (cfg : Config) (m : PageState) (id : ℕ) (lib : LibC) : PageState :=
  let r := doSlabsAlloc cfg m.slabs id false lib
  let hdr := newslabHdr m.hdr r.2.2 id
  match r.2.1 with
  | some c => { slabs := r.1, hdr := Function.update hdr c (hdr c).take }
  | none => { slabs := r.1, hdr := hdr }

/-- `do_item_alloc_chunk` after its allocation: the chunk becomes the last one of
the item's chain. -/
def attachChunk (m : PageState) (head c : Chunk) (chain : List Chunk) : PageState :=
  (m.setHdr c fun h => { h with refs := h.refs - 1, kind := .part head }).setHdr head
    fun h => { h with kind := .item false (some (chain ++ [c])) }

/-! ## The mover -/

/-- What the mover cannot read off the chunk: whether it gets the item lock, whether
the item has expired or was flushed, and whether `busy_loops` is above
`SLAB_MOVE_MAX_LOOPS`. -/
structure Glance where
  locked : Bool
  expired : Bool
  overdue : Bool

/-- The item of a chunk: `ch->head` for a chained chunk (`slabs.c`, lines 878-886). -/
def PageState.itemOf (m : PageState) (c : Chunk) : Chunk :=
  match m.kind c with
  | .part head => head
  | _ => c

/-- `refcount_incr(it) == 2` -/
def PageState.Idle (m : PageState) (it : Chunk) : Prop := ((m.hdr it).refcount + 1) % 65536 = 2

instance (m : PageState) (it : Chunk) : Decidable (m.Idle it) :=
  inferInstanceAs (Decidable (_ = _))

/-- What `slab_rebalance_move` finds out about a chunk in use (lines 878-946). -/
def moveStatus (m : PageState) (c : Chunk) (g : Glance) : InUse :=
  match m.kind (m.itemOf c) with
  | .item true chain =>
    if g.locked = true ∨ ¬m.Idle (m.itemOf c) then .busy
    else match chain with
      | some chain => .chunked (m.parts (m.itemOf c :: chain)) g.expired
      | none => if g.expired then .expired else .save
  | _ => .busy

/-- A busy item is unlinked after too many rounds (lines 914-926). -/
def busyHdr (m : PageState) (it : Chunk) (g : Glance) : Chunk → Header :=
  match m.kind it with
  | .item true chain =>
    if g.locked = false ∧ g.overdue = true ∧ 2 < ((m.hdr it).refcount + 1) % 65536 then
      Function.update m.hdr it
        { m.hdr it with refcount := (m.hdr it).refcount - 1, kind := .item false chain }
    else m.hdr
  | _ => m.hdr

/-- `it->refcount = 0; it->it_flags = ITEM_SLABBED|ITEM_FETCHED;` -/
def clearHdr (hdr : Chunk → Header) (c : Chunk) : Chunk → Header :=
  Function.update hdr c { hdr c with refcount := 0, kind := .free }

/-- The item is not saved (lines 1040-1058): a chunked one is freed as a whole. -/
def evictHdr (m : PageState) (c : Chunk) : Chunk → Header :=
  match m.kind (m.itemOf c) with
  | .item _ (some chain) => freed m.hdr (m.itemOf c :: chain)
  | _ => clearHdr m.hdr c

/-- The chunk is copied to `new` (lines 985-1038): an item is replaced by its copy and
the heads of its chain follow it; a chained chunk is replaced in its chain. -/
def rescueHdr (m : PageState) (c new : Chunk) : Chunk → Header :=
  match m.kind c with
  | .part head =>
    match m.kind head with
    | .item linked (some chain) => fun p =>
      if p = c then { m.hdr c with refcount := 0, kind := .free }
      else if p = new then { m.hdr c with refs := (m.hdr new).refs }
      else if p = head then
        { m.hdr head with
          kind := .item linked (some (chain.map fun q => if q = c then new else q)) }
      else m.hdr p
    | _ => m.hdr
  | .item linked chain => fun p =>
    if p = c then { m.hdr c with refcount := 0, kind := .free }
    else if p = new then
      { m.hdr c with refcount := 1, refs := (m.hdr new).refs, kind := .item linked chain }
    else if p ∈ chain.getD [] then { m.hdr p with kind := .part new }
    else m.hdr p
  | _ => m.hdr

/-- The headers after `slab_rebalance_move` has looked at a chunk. -/
def lookHdr (cfg : Config) (m : PageState) (c : Chunk) (g : Glance) (lib : LibC) :
    Chunk → Header :=
  match m.slabs.chunks c with
  | .cleared => m.hdr
  | .slabbed => clearHdr m.hdr c
  | .inUse =>
    match moveStatus m c g with
    | .busy => busyHdr m (m.itemOf c) g
    | .expired | .chunked _ true => evictHdr m c
    | .save | .chunked _ false =>
      match (slabRebalanceAlloc cfg m.slabs.rebal.sClsid m.slabs.rebal.slabStart lib
          (cfg.perslab m.slabs.rebal.sClsid) m.slabs).2 with
      | none => evictHdr m c
      | some new => rescueHdr m c new

/-- `slab_rebalance_move` on the allocator and on the headers. -/
def movePass (cfg : Config) (m : PageState) (g : Glance) (lib : LibC) : PageState :=
  match m.slabs.rebal.slabStart with
  | none => m
  | some page =>
    let c : Chunk := ⟨page, m.slabs.rebal.slabPos⟩
    { slabs := slabRebalanceMove cfg m.slabs (moveStatus m c g) lib
      hdr := if m.slabs.rebal.completed c.idx then m.hdr else lookHdr cfg m c g lib }

/-- `slab_rebalance_finish` on the allocator and on the headers. -/
def finishMove (cfg : Config) (m : PageState) : PageState :=
  { slabs := (slabRebalanceFinish cfg m.slabs).1
    hdr := if m.slabs.rebal.dClsid > globalPagePool then
        formatted m.hdr (m.slabs.rebal.slabStart.getD 0) m.slabs.rebal.dClsid
      else m.hdr }

/-! ## The system -/

inductive PageOp where
  | alloc (id : ℕ) (lib : LibC)
  | header (c : Chunk) (chunked : Bool)
  | uploadChunk (head c : Chunk)
  | link (c : Chunk)
  | unlink (c : Chunk)
  | get (c : Chunk)
  | release (c : Chunk)
  | adjustMemLimit (newMemLimit : ℕ)
  | reassign (src dst : ℕ)
  | rebalanceStart (lib : LibC)
  | rebalanceMove (g : Glance) (lib : LibC)
  | rebalanceFinish

/-- One operation; `none` when it cannot run. A worker links, and gives up, only an
item to which it holds a reference. -/
def pageStep (cfg : Config) (m : PageState) : PageOp → Option (PageState × Unit)
  | .alloc id lib => if lib.Fresh m.slabs then some (allocChunk cfg m id lib, ()) else none
  | .header c chunked =>
    if m.kind c = .taken then
      some (m.setHdr c fun h =>
        { h with kind := .item false (if chunked then some [] else none) }, ())
    else none
  | .uploadChunk head c =>
    match m.kind head, m.kind c with
    | .item false (some chain), .taken => some (attachChunk m head c chain, ())
    | _, _ => none
  | .link c =>
    match m.kind c with
    | .item false chain =>
      if 0 < (m.hdr c).refs then
        some (m.setHdr c fun h =>
          { h with refcount := (h.refcount + 1) % 65536, kind := .item true chain }, ())
      else none
    | _ => none
  | .unlink c =>
    match m.kind c with
    | .item true chain =>
      some (doItemRemove cfg (m.setHdr c fun h => { h with kind := .item false chain }) c, ())
    | _ => none
  | .get c =>
    match m.kind c with
    | .item true _ =>
      some (m.setHdr c fun h =>
        { h with refcount := (h.refcount + 1) % 65536, refs := h.refs + 1 }, ())
    | _ => none
  | .release c =>
    if 0 < (m.hdr c).refs then
      some (doItemRemove cfg (m.setHdr c fun h => { h with refs := h.refs - 1 }) c, ())
    else none
  | .adjustMemLimit newMemLimit =>
    some ({ m with slabs := (doSlabsAdjustMemLimit cfg m.slabs newMemLimit).1 }, ())
  | .reassign src dst => some ({ m with slabs := doSlabsReassign cfg m.slabs src dst }, ())
  | .rebalanceStart lib =>
    if m.slabs.slabRebalanceSignal = 1 then
      some ({ m with slabs := slabRebalanceStart cfg m.slabs lib }, ())
    else none
  | .rebalanceMove g lib =>
    if m.slabs.slabRebalanceSignal = 2 ∧ m.slabs.rebal.done = 0 then
      some (movePass cfg m g lib, ())
    else none
  | .rebalanceFinish =>
    if m.slabs.rebal.done ≠ 0 then some (finishMove cfg m, ()) else none

/-- No chunk holds anything after `slabs_init`. -/
def pageInit (limit memCurrent : ℕ) : PageState where
  slabs := slabsInit limit memCurrent
  hdr := fun _ => { clsid := 0, refcount := 0, refs := 0, kind := .free }

/-- The allocator, its mover and the items in its chunks. -/
def pageSystem (cfg : Config) : System PageState PageOp Unit where
  init := fun m => ∃ limit memCurrent, m = pageInit limit memCurrent
  step := pageStep cfg

instance (cfg : Config) (s : SlabState) (id : ℕ) (lib : LibC) :
    Decidable (RequestsPage cfg s id lib) :=
  inferInstanceAs (Decidable (_ ∧ _))

/-- The condition on the steps of a run: no reference is taken to an item whose
counter is at its limit, and while a page of the pool is being moved it is left
there. -/
def CountsFit (cfg : Config) (m : PageState) : PageOp → Prop
  | .link c | .get c => (m.hdr c).refcount < 65535
  | .alloc id lib =>
    m.slabs.rebal.slabStart ≠ none → m.slabs.rebal.sClsid = globalPagePool →
      EntersNewslab cfg m.slabs id false → RequestsPage cfg m.slabs id lib →
      (m.slabs.slabclass globalPagePool).slabs ≠ 1
  | .adjustMemLimit newMemLimit =>
    m.slabs.rebal.slabStart ≠ none → m.slabs.rebal.sClsid = globalPagePool →
      cfg.memBase = false → cfg.slabReassign = true → m.slabs.memMalloced ≤
        newMemLimit + ((m.slabs.slabclass globalPagePool).slabs - 1) * cfg.slabPageSize
  | _ => True

instance (cfg : Config) (m : PageState) (op : PageOp) : Decidable (CountsFit cfg m op) := by
  cases op <;> unfold CountsFit <;> infer_instance

end Memcached.Slabs
