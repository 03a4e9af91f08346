import Memcached.Assoc.Model
import Memcached.Lib.DList
import Memcached.Util.Numbers

/-!
# Items (`items.c`)

An item is a header and its data in one piece of slab memory. Items are found through the
hash table of `assoc.c`, every linked item is on one of the LRU lists of its slab class,
and a 16-bit count says how many parties hold a reference to it; memory goes back to the
slab allocator when that count is dropped to 0.

Item memory is an arbitrary finite type of addresses. `slabs_alloc` hands out free memory,
or none, as it pleases. Every function is a step of one thread that holds the item lock of
its key; what the source learns from other threads is an argument.

`Store.refs` and `Store.freed` are not in the source. `refs` counts the references that
are handed to callers and not yet given back, `freed` records in what state of the item
each `item_free` was called. No function reads them.
-/

namespace Memcached.Items

open Lib Assoc
open Function (update)

/-! ## Item headers -/

/-- The four LRU lists of a slab class (`memcached.h`, `HOT_LRU` …). -/
inductive Lru where
  | hot
  | warm
  | cold
  | temp
deriving DecidableEq

/-- `it_flags` (`memcached.h`, `ITEM_LINKED` …). -/
structure ItFlags where
  linked : Bool := false
  cas : Bool := false
  slabbed : Bool := false
  fetched : Bool := false
  active : Bool := false
  chunked : Bool := false
  hdr : Bool := false
  cflags : Bool := false
  tokenSent : Bool := false
  stale : Bool := false
  keyBinary : Bool := false
deriving DecidableEq

/-- `struct _stritem`: `suffix` are the client flags, `data` the value with its
final `\r\n`, and `slabs_clsid` is split into its class and its LRU bits. -/
structure Item where
  key : Bytes
  suffix : ℕ
  data : Bytes
  exptime : ℕ
  time : ℕ
  refcount : ℕ
  flags : ItFlags
  clsid : ℕ
  lru : Lru
  casUnique : ℕ
deriving DecidableEq

def Item.getCas (it : Item) : ℕ := if it.flags.cas then it.casUnique else 0

/-- `FLAGS_CONV`: the client flags. -/
def Item.flagsConv (it : Item) : ℕ := if it.flags.cflags then it.suffix else 0

def Item.nbytes (it : Item) : ℕ := it.data.length

/-- `ITEM_ntotal`, with `sizeof(item)` 48. -/
def Item.ntotal (it : Item) : ℕ :=
  48 + it.key.length + 1 + it.nbytes + (if it.flags.cflags then 4 else 0) +
    (if it.flags.cas then 8 else 0)

/-- What an item adds to `sizes_bytes`: of an item in external storage only the
header (`sizeof(item_hdr)` 12) is in memory. -/
def Item.lruBytes (it : Item) : ℕ :=
  if it.flags.hdr then it.ntotal - it.nbytes + 12 else it.ntotal

def Item.expiredAt (it : Item) (now : ℕ) : Bool := it.exptime != 0 && it.exptime ≤ now

/-! ## Settings and state -/

/-- The settings the functions read. `slabsClsid` is `slabs_clsid` of `slabs.c`,
which gives the class of a size or 0, and `hash` the hash function. -/
structure Settings where
  useCas : Bool
  lruSegmented : Bool
  tempLru : Bool
  temporaryTtl : ℕ
  evictToFree : Bool
  hotLruPct : ℕ
  warmLruPct : ℕ
  slabChunkSizeMax : ℕ
  processStarted : ℕ
  slabsClsid : ℕ → ℕ
  hash : Bytes → UInt32

/-- How `item_free` found an item. -/
structure Freed where
  linked : Bool
  slabbed : Bool
  holders : ℕ
deriving DecidableEq

/-- A node of an LRU list: an item, or the crawler of a list (`crawlers` in
`crawler.c`), which is linked into the list it walks. -/
abbrev Node (Addr : Type*) := Addr ⊕ (ℕ × Lru)

/-- The LRU lists: `heads`, `tails` and the `next` and `prev` fields, the counters of
each list, the totals in `stats_state`, and of each crawler that is linked
(`it_flags` 1) its `remaining`. -/
structure LruLists (Addr : Type*) where
  ptrs : DMem (ℕ × Lru) (Node Addr)
  sizes : ℕ × Lru → ℕ
  sizesBytes : ℕ × Lru → ℕ
  currItems : ℕ
  currBytes : ℕ
  crawlers : ℕ × Lru → Option ℕ

def LruLists.empty {Addr : Type*} : LruLists Addr where
  ptrs := { head := fun _ => none, tail := fun _ => none,
            next := fun _ => none, prev := fun _ => none }
  sizes := fun _ => 0
  sizesBytes := fun _ => 0
  currItems := 0
  currBytes := 0
  crawlers := fun _ => none

/-- The globals of `items.c`, the item memory and the two flush settings. `bumps` are
the entries of all bump buffers. -/
structure Store (Addr : Type*) where
  items : Addr → Item
  assoc : HashTable Addr
  lru : LruLists Addr
  casId : ℕ
  currentTime : ℕ
  oldestLive : ℕ
  oldestCas : ℕ
  bumps : List Addr
  refs : Addr → ℕ
  freed : List Freed

variable {Addr : Type*}

def Store.key (s : Store Addr) (a : Addr) : Bytes := (s.items a).key

/-- `x - y` of `rel_time_t`, an unsigned 32-bit type. -/
def sub32 (x y : ℕ) : ℕ := (x + (2 ^ 32 - y % 2 ^ 32)) % 2 ^ 32

/-- `item_is_flushed` (lines 125-136). -/
def itemIsFlushed (s : Store Addr) (it : Item) : Bool :=
  if s.oldestLive = 0 ∨ s.oldestLive > s.currentTime then false
  else it.time ≤ s.oldestLive ∨
    (s.oldestCas ≠ 0 ∧ it.getCas ≠ 0 ∧ it.getCas < s.oldestCas)

section

variable [DecidableEq Addr]

def Store.modify (s : Store Addr) (a : Addr) (f : Item → Item) : Store Addr :=
  { s with items := update s.items a (f (s.items a)) }

/-- `get_cas_id` (lines 112-117): `++cas_id`, in 64 bits. -/
def Store.nextCasId (s : Store Addr) : ℕ := (s.casId + 1) % 2 ^ 64

/-- The CAS value of an item after
`ITEM_set_cas(it, (settings.use_cas) ? get_cas_id() : 0)`, a macro that does
nothing for items without a CAS field. -/
def freshCas (S : Settings) (s : Store Addr) (a : Addr) : ℕ :=
  if (s.items a).flags.cas then if S.useCas then s.nextCasId else 0
  else (s.items a).casUnique

/-- `ITEM_set_cas(it, (settings.use_cas) ? get_cas_id() : 0)`, which takes an id only
for items that have a CAS field. -/
def setFreshCas (S : Settings) (s : Store Addr) (a : Addr) : Store Addr :=
  { s.modify a fun it => { it with casUnique := freshCas S s a } with
    casId := if (s.items a).flags.cas ∧ S.useCas then s.nextCasId else s.casId }

/-! ## Reference counts -/

/-- `refcount_incr` on a 16-bit field. -/
def refcountIncr (s : Store Addr) (a : Addr) : Store Addr :=
  s.modify a fun it => { it with refcount := (it.refcount + 1) % 2 ^ 16 }

/-- Notes one more reference in the hands of a caller. -/
def Store.noteRef (s : Store Addr) (a : Addr) : Store Addr :=
  { s with refs := update s.refs a (s.refs a + 1) }

/-- Notes one reference less in the hands of callers. -/
def Store.forgetRef (s : Store Addr) (a : Addr) : Store Addr :=
  { s with refs := update s.refs a (s.refs a - 1) }

/-- `refcount_incr` on behalf of the caller. -/
def takeRef (s : Store Addr) (a : Addr) : Store Addr := (refcountIncr s a).noteRef a

/-- `item_free` (lines 363-377) with `slabs_free`. -/
def itemFree (s : Store Addr) (a : Addr) : Store Addr :=
  { s.modify a fun it => { it with flags := { slabbed := true } } with
    freed :=
      { linked := (s.items a).flags.linked
        slabbed := (s.items a).flags.slabbed
        holders := s.refs a + s.bumps.count a } :: s.freed }

/-- `refcount_decr` on a 16-bit field. -/
def refcountDecr (s : Store Addr) (a : Addr) : Store Addr :=
  s.modify a fun it => { it with refcount := (it.refcount + (2 ^ 16 - 1)) % 2 ^ 16 }

/-- `do_item_remove` (lines 552-561). -/
def doItemRemove (s : Store Addr) (a : Addr) : Store Addr :=
  let s := refcountDecr s a
  if (s.items a).refcount = 0 then itemFree s a else s

/-- `do_item_remove` of a reference that the caller holds. -/
def releaseRef (s : Store Addr) (a : Addr) : Store Addr := doItemRemove (s.forgetRef a) a

/-! ## LRU lists and the hash table -/

def Item.queue (it : Item) : ℕ × Lru := (it.clsid, it.lru)

/-- `do_item_link_q` (lines 421-445): the item is the new head. -/
def doItemLinkQ (s : Store Addr) (a : Addr) : Store Addr :=
  let it := s.items a
  { s with
    lru := { s.lru with
      ptrs := s.lru.ptrs.pushHead it.queue (.inl a)
      sizes := update s.lru.sizes it.queue (s.lru.sizes it.queue + 1)
      sizesBytes := update s.lru.sizesBytes it.queue
        (s.lru.sizesBytes it.queue + it.lruBytes) } }

/-- `do_item_unlink_q` (lines 461-489). -/
def doItemUnlinkQ (s : Store Addr) (a : Addr) : Store Addr :=
  let it := s.items a
  { s with
    lru := { s.lru with
      ptrs := s.lru.ptrs.unlink it.queue (.inl a)
      sizes := update s.lru.sizes it.queue (s.lru.sizes it.queue - 1)
      sizesBytes := update s.lru.sizesBytes it.queue
        (s.lru.sizesBytes it.queue - it.lruBytes) } }

/-- Takes the item off its list and puts it in front of list `lru` of its class, as
`do_item_update` and `lru_pull_tail` do in several steps. -/
def lruMove (s : Store Addr) (a : Addr) (lru : Lru) : Store Addr :=
  doItemLinkQ ((doItemUnlinkQ s a).modify a fun it => { it with lru := lru }) a

/-- Sets or clears `ITEM_ACTIVE`. -/
def setActive (s : Store Addr) (a : Addr) (active : Bool) : Store Addr :=
  s.modify a fun it => { it with flags := { it.flags with active := active } }

/-- `it->time = current_time` -/
def touchTime (s : Store Addr) (a : Addr) : Store Addr :=
  s.modify a fun it => { it with time := s.currentTime }

/-- Marks the item as linked, counts it and inserts it into the hash table. -/
def hashLink (S : Settings) (s : Store Addr) (a : Addr) : Store Addr :=
  { s.modify a fun it => { it with flags := { it.flags with linked := true } } with
    assoc := assocInsert s.assoc a (S.hash (s.key a))
    lru := { s.lru with
      currItems := s.lru.currItems + 1
      currBytes := s.lru.currBytes + (s.items a).ntotal } }

/-- `do_item_link` (lines 499-519). -/
def doItemLink (S : Settings) (s : Store Addr) (a : Addr) : Store Addr :=
  let s := setFreshCas S (touchTime s a) a
  refcountIncr (doItemLinkQ (hashLink S s a) a) a

/-- `do_item_update` (lines 563-590). -/
def doItemUpdate (S : Settings) (s : Store Addr) (a : Addr) : Store Addr :=
  let it := s.items a
  if S.lruSegmented then
    if it.flags.linked then
      if it.lru = .cold ∧ it.flags.active then
        lruMove (setActive (touchTime s a) a false) a .warm
      else touchTime s a
    else s
  else if it.time < sub32 s.currentTime 60 then
    if it.flags.linked then lruMove (touchTime s a) a it.lru else s
  else s

/-- `lru_bump_async` (lines 1312-1334); `room` says whether the bump
buffer took the entry. -/
def lruBumpAsync (s : Store Addr) (a : Addr) (room : Bool) : Store Addr × Bool :=
  let s := refcountIncr s a
  if room then ({ s with bumps := a :: s.bumps }, true) else (refcountDecr s a, false)

/-- `do_item_bump` (lines 1063-1087). -/
def doItemBump (S : Settings) (s : Store Addr) (a : Addr) (room : Bool) : Store Addr :=
  let it := s.items a
  if S.lruSegmented then
    if it.flags.active then s
    else if it.flags.fetched then
      let s := setActive s a true
      if it.lru ≠ .cold then touchTime s a
      else
        match lruBumpAsync s a room with
        | (s, true) => s
        | (s, false) => setActive s a false
    else s.modify a fun it => { it with flags := { it.flags with fetched := true } }
  else
    doItemUpdate S (s.modify a fun it => { it with flags := { it.flags with fetched := true } }) a

variable [Fintype Addr]

/-- Marks the item as not linked, no longer counts it and takes it out of the hash
table. -/
def hashUnlink (S : Settings) (s : Store Addr) (a : Addr) : Store Addr :=
  { s.modify a fun it => { it with flags := { it.flags with linked := false } } with
    assoc := assocDelete s.key s.assoc (s.key a) (S.hash (s.key a))
    lru := { s.lru with
      currItems := s.lru.currItems - 1
      currBytes := s.lru.currBytes - (s.items a).ntotal } }

/-- `do_item_unlink` and `do_item_unlink_nolock` (lines 521-550), which
differ in the LRU lock only. -/
def doItemUnlink (S : Settings) (s : Store Addr) (a : Addr) : Store Addr :=
  if (s.items a).flags.linked then
    doItemRemove (doItemUnlinkQ (hashUnlink S s a) a) a
  else s

/-- `do_item_replace` (lines 592-599). -/
def doItemReplace (S : Settings) (s : Store Addr) (a new : Addr) : Store Addr :=
  doItemLink S (doItemUnlink S s a) new

/-- `do_item_get` (lines 978-1058): the item, for which the caller then
holds a reference. Items that are flushed or expired are unlinked here. -/
def doItemGet (S : Settings) (s : Store Addr) (key : Bytes) (doUpdate room : Bool) :
    Store Addr × Option Addr :=
  match assocFind s.key s.assoc key (S.hash key) with
  | none => (s, none)
  | some a =>
    let s := takeRef s a
    let it := s.items a
    if itemIsFlushed s it then (releaseRef (doItemUnlink S s a) a, none)
    else if it.expiredAt s.currentTime then (releaseRef (doItemUnlink S s a) a, none)
    else (if doUpdate then doItemBump S s a room else s, some a)

def setExptime (s : Store Addr) (a : Addr) (exptime : ℕ) : Store Addr :=
  s.modify a fun it => { it with exptime := exptime }

/-- `do_item_touch` (lines 1090-1097). -/
def doItemTouch (S : Settings) (s : Store Addr) (key : Bytes) (exptime : ℕ) (room : Bool) :
    Store Addr × Option Addr :=
  match doItemGet S s key true room with
  | (s, none) => (s, none)
  | (s, some a) => (setExptime s a exptime, some a)

/-- One entry of `lru_maintainer_bumps` (lines 1359-1366). -/
def lruMaintainerBump (S : Settings) (s : Store Addr) (a : Addr) : Store Addr :=
  doItemRemove { doItemUpdate S s a with bumps := s.bumps.erase a } a

/-! ## Eviction and allocation -/

/-- The arguments of `lru_pull_tail`; `evict`, `crawlBlocks` and `returnItem` are the
flags `LRU_PULL_EVICT`, `LRU_PULL_CRAWL_BLOCKS` and `LRU_PULL_RETURN_ITEM`. -/
structure Pull where
  id : ℕ
  curLru : Lru
  totalBytes : ℕ := 0
  evict : Bool := false
  crawlBlocks : Bool := false
  returnItem : Bool := false
  maxAge : ℕ := 0

/-- `limit` in `lru_pull_tail` (lines 1180-1184). -/
def Pull.limit (S : Settings) (p : Pull) : ℕ :=
  let hot := p.totalBytes * S.hotLruPct % 2 ^ 64 / 100
  let warm := p.totalBytes * S.warmLruPct % 2 ^ 64 / 100
  if p.curLru = .hot ∧ hot ≠ 0 then hot else warm

/-- How an iteration of `lru_pull_tail` ends: with the next item, or with the loop
stopped and the item to be moved to another list or not. -/
inductive Pulled where
  | again
  | stop (moveTo : Option Lru)
deriving DecidableEq

/-- What `lru_pull_tail` does with a tail item that is neither expired nor flushed
(lines 1176-1256), and how many items that counts as removed. The
item of a `stop` with a list still has to be moved there. -/
def lruPullLive (S : Settings) (s : Store Addr) (p : Pull) (search : Addr) :
    Store Addr × ℕ × Pulled :=
  let it := s.items search
  match p.curLru with
  | .hot =>
    if it.flags.active then (setActive s search false, 1, .stop (some .warm))
    else if s.lru.sizesBytes (p.id, p.curLru) > p.limit S ∨
        sub32 s.currentTime it.time > p.maxAge then
      (s, 1, .stop (some .cold))
    else (s, 0, .stop none)
  | .warm =>
    if it.flags.active then
      (releaseRef (lruMove (setActive s search false) search it.lru) search, 1, .again)
    else if s.lru.sizesBytes (p.id, p.curLru) > p.limit S ∨
        sub32 s.currentTime it.time > p.maxAge then
      (s, 1, .stop (some .cold))
    else (s, 0, .stop none)
  | .cold =>
    if p.evict then
      if S.evictToFree then (doItemUnlink S s search, 1, .stop none) else (s, 0, .stop none)
    else if p.returnItem then (s, 0, .stop none)
    else if it.flags.active ∧ S.lruSegmented then
      (setActive s search false, 1, .stop (some .warm))
    else (s, 0, .stop none)
  | .temp => (s, 0, .stop none)

/-- One iteration of `lru_pull_tail` (lines 1141-1256), with the item's
lock taken and `tail_repair_time` 0. -/
def lruPullOne (S : Settings) (s : Store Addr) (p : Pull) (search : Addr) :
    Store Addr × ℕ × Pulled :=
  let s := takeRef s search
  let it := s.items search
  if (it.exptime ≠ 0 ∧ it.exptime < s.currentTime) ∨ itemIsFlushed s it then
    (releaseRef (doItemUnlink S s search) search, 1, .again)
  else lruPullLive S s p search

/-- The item that an iteration of `lru_pull_tail` looks at: a crawler is passed over
(lines 1125-1133). A list has one crawler at most, its own, so the node
before a crawler is an item. -/
def pastCrawler (s : Store Addr) : Option (Node Addr) → Option Addr
  | none => none
  | some (.inl a) => some a
  | some (.inr q) =>
    match s.lru.ptrs.prev (.inr q) with
    | some (.inl a) => some a
    | _ => none

/-- The loop of `lru_pull_tail` (lines 1122-1259). `trylock` says for
each of the remaining tries which hash values `item_trylock` succeeds for. -/
def lruPullLoop (S : Settings) (p : Pull) (trylock : ℕ → UInt32 → Bool) :
    ℕ → Store Addr → Option (Node Addr) → ℕ → Store Addr × ℕ × Option (Addr × Option Lru)
  | 0, s, _, removed => (s, removed, none)
  | tries + 1, s, node, removed =>
    if p.crawlBlocks ∧ node.any Sum.isRight then (s, 0, none)
    else
      match pastCrawler s node with
      | none => (s, removed, none)
      | some search =>
        let nextIt := s.lru.ptrs.prev (.inl search)
        if trylock tries (S.hash (s.key search)) then
          match lruPullOne S s p search with
          | (s, n, .again) => lruPullLoop S p trylock tries s nextIt (removed + n)
          | (s, n, .stop moveTo) => (s, removed + n, some (search, moveTo))
        else lruPullLoop S p trylock tries s nextIt removed

/-- The item goes to its new list. -/
def lruPullMove (s : Store Addr) (it : Addr) (moveTo : Option Lru) : Store Addr :=
  match moveTo with
  | some lru => lruMove s it lru
  | none => s

/-- The end of `lru_pull_tail` (lines 1263-1273): the item moves to its
new list, and the reference is dropped unless the item is to be returned. -/
def lruPullDone (s : Store Addr) (p : Pull) (it : Addr) (moveTo : Option Lru) : Store Addr :=
  if p.returnItem then lruPullMove s it moveTo else releaseRef (lruPullMove s it moveTo) it

/-- `lru_pull_tail` (lines 1103-1277): the number of items removed, and
the item of `ret_it`. -/
def lruPullTail (S : Settings) (s : Store Addr) (p : Pull) (trylock : ℕ → UInt32 → Bool) :
    Store Addr × ℕ × Option Addr :=
  if p.id = 0 then (s, 0, none)
  else
    match lruPullLoop S p trylock 5 s (s.lru.ptrs.tail (p.id, p.curLru)) 0 with
    | (s, removed, none) => (s, removed, none)
    | (s, removed, some (it, moveTo)) =>
      (lruPullDone s p it moveTo, removed,
        if p.returnItem ∧ p.curLru = .cold ∧ ¬p.evict then some it else none)

/-- What one round of `do_item_alloc_pull` meets: the memory `slabs_alloc` would
give, and the item locks that can be taken. -/
structure Round (Addr : Type*) where
  slab : Option Addr
  trylock : ℕ → UInt32 → Bool

/-- What `do_slabs_alloc` does to the memory it hands out: it is not free any more, and
its first reference is the caller's. -/
def slabTake (s : Store Addr) (a : Addr) : Store Addr :=
  (s.modify a fun it =>
    { it with refcount := 1, flags := { it.flags with slabbed := false } }).noteRef a

/-- `slabs_alloc`: free memory, or nothing. -/
def slabsAlloc (s : Store Addr) (slab : Option Addr) : Option (Store Addr × Addr) :=
  match slab with
  | none => none
  | some a => if (s.items a).flags.slabbed then some (slabTake s a, a) else none

/-- The loop of `do_item_alloc_pull` (lines 175-212), at most `tries`
rounds of it. -/
def doItemAllocPull (S : Settings) (id : ℕ) (rounds : ℕ → Round Addr) :
    ℕ → Store Addr → Store Addr × Option Addr
  | 0, s => (s, none)
  | tries + 1, s =>
    let r := rounds tries
    let s := if S.lruSegmented then s
      else (lruPullTail S s { id := id, curLru := .cold } r.trylock).1
    match slabsAlloc s r.slab with
    | some (s, a) => (s, some a)
    | none =>
      match lruPullTail S s { id := id, curLru := .cold, evict := true } r.trylock with
      | (s, removed, _) =>
        if removed = 0 then
          if S.lruSegmented then
            doItemAllocPull S id rounds tries
              (lruPullTail S s { id := id, curLru := .hot } r.trylock).1
          else (s, none)
        else doItemAllocPull S id rounds tries s

/-- The list a new item starts on (lines 320-329). -/
def initialLru (S : Settings) (s : Store Addr) (exptime : ℕ) : Lru :=
  if S.tempLru ∧ sub32 exptime s.currentTime ≤ S.temporaryTtl then .temp
  else if S.lruSegmented then .hot
  else .cold

/-- The header that `do_item_alloc` writes (lines 313-357). The data is
whatever was in memory, here zeroes, until the caller writes it. -/
def itemInit (S : Settings) (s : Store Addr) (key : Bytes) (flags exptime nbytes id : ℕ)
    (chunked : Bool) (it : Item) : Item :=
  { it with
    key := key
    suffix := if flags = 0 then it.suffix else flags
    data := List.replicate nbytes 0
    exptime := exptime
    flags := { it.flags with
      chunked := it.flags.chunked || chunked
      cas := it.flags.cas || S.useCas
      cflags := it.flags.cflags || flags ≠ 0 }
    clsid := id
    lru := initialLru S s exptime }

/-- The end of `do_item_alloc`: memory of class `pullId` becomes an item of class
`id`. -/
def itemFromSlab (S : Settings) (s : Store Addr) (key : Bytes) (flags exptime nbytes id : ℕ)
    (chunked : Bool) (pullId : ℕ) (rounds : ℕ → Round Addr) : Store Addr × Option Addr :=
  match doItemAllocPull S pullId rounds 10 s with
  | (s, none) => (s, none)
  | (s, some a) => (s.modify a (itemInit S s key flags exptime nbytes id chunked), some a)

/-- `do_item_alloc` (lines 262-361): a new item that is not linked and
whose only reference is the caller's. -/
def doItemAlloc (S : Settings) (s : Store Addr) (key : Bytes) (flags exptime nbytes : ℕ)
    (rounds : ℕ → Round Addr) : Store Addr × Option Addr :=
  let nsuffix := if flags = 0 then 0 else 4
  let cas := if S.useCas then 8 else 0
  let ntotal := 48 + (key.length + 1) + nsuffix + nbytes + cas
  let id := S.slabsClsid ntotal
  if nbytes < 2 ∨ id = 0 then (s, none)
  else if ntotal > S.slabChunkSizeMax then
    -- a large item starts as a header of another class; `sizeof(item_chunk)` is 48
    let htotal := key.length + 1 + nsuffix + 48 + 48 + cas
    itemFromSlab S s key flags exptime nbytes id true (S.slabsClsid htotal) rounds
  else itemFromSlab S s key flags exptime nbytes id false id rounds

end

end Memcached.Items
