import Memcached.Items.Model
import Memcached.Lib.Run

/-!
# Store operations and the system of items (`memcached.c`)

`do_store_item`, `do_add_delta` and the parts of the delete, meta delete and flush
commands that work on items, over the functions of `items.c`. `system` takes them as the
atomic steps of one machine: each runs under its item lock. The guards of the steps are
what the callers see to: they only give back references they hold, and only link an item
that is not linked.
-/

namespace Memcached.Items

open Lib Assoc

variable {Addr : Type*} [DecidableEq Addr] [Fintype Addr]

/-! ## `do_store_item` -/

/-- The store commands, `NREAD_ADD` …. -/
inductive Comm where
  | add
  | set
  | replace
  | append
  | prepend
  | cas
deriving DecidableEq

inductive StoreItemType where
  | notStored
  | stored
  | exists
  | notFound
deriving DecidableEq

/-- `enum cas_result` of `do_store_item`. -/
inductive CasResult where
  | none
  | match
  | badval
  | stale
deriving DecidableEq

/-- The CAS test of `do_store_item` (lines 1758-1770). -/
def casTest (itCas oldCas : ℕ) (setStale : Bool) : CasResult :=
  if itCas = 0 then .none
  else if itCas = oldCas then .match
  else if setStale ∧ itCas < oldCas then .stale
  else .badval

def setData (s : Store Addr) (a : Addr) (data : Bytes) : Store Addr :=
  s.modify a fun it => { it with data := data }

/-- What `_store_item_copy_data` meets: whether there is memory for the chunks of a large
item, and the bytes in memory behind `ITEM_data` of an item that is kept in chunks,
where the header of its first chunk stands. -/
structure CopyEnv where
  ok : Bool := true
  raw : ℕ → UInt8 := fun _ => 0

/-- The bytes that `_store_item_copy_data` takes from an item: the copy into an item kept
in chunks follows the chunks of its source, any other copies from `ITEM_data`. -/
def copySource (env : CopyEnv) (intoChunks : Bool) (src : Item) : Bytes :=
  if src.flags.chunked ∧ ¬intoChunks then (List.range src.nbytes).map env.raw else src.data

/-- `_store_item_copy_data` (lines 1712-1737): the value in front
loses its `\r\n`. -/
def storeItemCopyData (comm : Comm) (old add : Bytes) : Bytes :=
  if comm = .append then old.take (old.length - 2) ++ add
  else add.take (add.length - 2) ++ old

/-- A stale store keeps the expiry time and the marks of the old item
(lines 1787-1794). -/
def keepStale (s : Store Addr) (a old : Addr) : Store Addr :=
  s.modify a fun it =>
    { it with
      exptime := (s.items old).exptime
      flags := { it.flags with
        stale := true
        tokenSent := it.flags.tokenSent || (s.items old).flags.tokenSent } }

/-- The item lock of `hv` is held, so `item_trylock` fails for it. -/
def lockHeld (hv : UInt32) (rounds : ℕ → Round Addr) (i : ℕ) : Round Addr :=
  { rounds i with trylock := fun n hv' => hv' != hv && (rounds i).trylock n hv' }

/-- What the switch of `do_store_item` decides: the answer, the item to put in
place of the old one, and the item allocated by append and prepend. -/
structure StorePlan (Addr : Type*) where
  store : Store Addr
  stored : StoreItemType
  link : Option Addr := none
  newIt : Option Addr := none

/-- Append and prepend (lines 1815-1847). -/
def planConcat (S : Settings) (s : Store Addr) (it old : Addr) (comm : Comm)
    (rounds : ℕ → Round Addr) (env : CopyEnv) : StorePlan Addr :=
  match doItemAlloc S s (s.key it) (s.items old).flagsConv (s.items old).exptime
      ((s.items it).nbytes + (s.items old).nbytes - 2)
      (lockHeld (S.hash (s.key it)) rounds) with
  | (s, none) => { store := s, stored := .notStored }
  | (s, some new) =>
    if (s.items new).flags.chunked ∧ ¬env.ok then
      { store := s, stored := .notStored, newIt := some new }
    else
      let source := copySource env (s.items new).flags.chunked
      { store := setData s new (storeItemCopyData comm (source (s.items old)) (source (s.items it)))
        stored := .stored
        link := some new
        newIt := some new }

/-- The switch of `do_store_item` for a key that has an item (`memcached.c`,
lines 1772-1850). -/
def planStore (S : Settings) (s : Store Addr) (it old : Addr) (comm : Comm) (setStale : Bool)
    (rounds : ℕ → Round Addr) (env : CopyEnv) : StorePlan Addr :=
  let casRes := casTest (s.items it).getCas (s.items old).getCas setStale
  match comm with
  | .add => { store := doItemUpdate S s old, stored := .notStored }
  | .cas =>
    match casRes with
    | .match => { store := s, stored := .stored, link := some it }
    | .stale => { store := keepStale s it old, stored := .stored, link := some it }
    | _ => { store := s, stored := .exists }
  | .append | .prepend =>
    if casRes ≠ .none ∧ casRes ≠ .match then { store := s, stored := .exists }
    else if (s.items old).flags.hdr then { store := s, stored := .notStored }
    else planConcat S s it old comm rounds env
  | .replace | .set => { store := s, stored := .stored, link := some it }

/-- The end of `do_store_item` for a key that has an item (lines
1852-1863). -/
def StorePlan.run (S : Settings) (p : StorePlan Addr) (old : Addr) : Store Addr :=
  let s := match p.link with
    | some new => doItemReplace S p.store old new
    | none => p.store
  let s := releaseRef s old
  match p.newIt with
  | some new => releaseRef s new
  | none => s

/-- `do_store_item` (lines 1744-1903), with the CAS value it leaves
in `c->cas`. -/
def doStoreItem (S : Settings) (s : Store Addr) (it : Addr) (comm : Comm) (setStale : Bool)
    (rounds : ℕ → Round Addr) (env : CopyEnv) : Store Addr × StoreItemType × Option ℕ :=
  match doItemGet S s (s.key it) false false with
  | (s, some old) =>
    let p := planStore S s it old comm setStale rounds env
    let s := p.run S old
    (s, p.stored, p.link.map fun new => (s.items new).getCas)
  | (s, none) =>
    match comm with
    | .add | .set =>
      let s := doItemLink S s it
      (s, .stored, some (s.items it).getCas)
    | .cas => (s, .notFound, none)
    | .replace | .append | .prepend => (s, .notStored, none)

/-- The store command of a meta set (`process_mset_command`, `proto_text.c`, lines
1445-1478): the letter of its `M` token, 0 when it has none, and whether it has a
`C` token; `none` for an invalid letter. -/
def msetComm (mode : UInt8) (hasCas : Bool) : Option Comm :=
  let comm? := match mode.toNat with
    | 0 => some Comm.set
    | 69 => some .add -- E
    | 65 => some .append -- A
    | 80 => some .prepend -- P
    | 82 => some .replace -- R
    | 83 => some .set -- S
    | _ => none
  comm?.map fun comm => if hasCas ∧ (comm = .set ∨ comm = .replace) then .cas else comm

/-! ## `do_add_delta` -/

inductive DeltaResult where
  | ok
  | nonNumeric
  | eom
  | itemNotFound
  | casMismatch
deriving DecidableEq

/-- The new value (lines 2452-2462), in 64 bits. -/
def applyDelta (value : ℕ) (incr : Bool) (delta : ℕ) : ℕ :=
  if incr then (value + delta) % 2 ^ 64
  else if delta > value then 0
  else value - delta

def setCas (s : Store Addr) (a : Addr) (cas : ℕ) : Store Addr :=
  s.modify a fun it => if it.flags.cas then { it with casUnique := cas } else it

/-- The new number is written over the old one and padded with spaces
(lines 2477-2489). -/
def deltaInPlace (S : Settings) (s : Store Addr) (a : Addr) (buf : Bytes) : Store Addr :=
  let it := s.items a
  let data := buf ++ List.replicate (it.nbytes - buf.length - 2) 32 ++ it.data.drop (it.nbytes - 2)
  doItemUpdate S (setData (setFreshCas S s a) a data) a

/-- The new number goes into a new item (lines 2490-2506); `none`
when there is no memory for it. -/
def deltaReplace (S : Settings) (s : Store Addr) (a : Addr) (buf : Bytes)
    (rounds : ℕ → Round Addr) : Store Addr × Bool :=
  let it := s.items a
  match doItemAlloc S s it.key it.flagsConv it.exptime (buf.length + 2)
      (lockHeld (S.hash it.key) rounds) with
  | (s, none) => (releaseRef s a, false)
  | (s, some new) =>
    let s := doItemReplace S (setData s new (buf ++ ascii "\r\n")) a new
    -- the CAS value that is returned below is read from the old item
    let s := setCas s a (if S.useCas then (s.items new).getCas else 0)
    (releaseRef s new, true)

structure DeltaReply (Addr : Type*) where
  result : DeltaResult
  value : Bytes := []
  cas : ℕ := 0
  itRet : Option Addr := none
deriving DecidableEq

/-- The end of `do_add_delta` (lines 2516-2524). -/
def deltaDone (s : Store Addr) (a : Addr) (buf : Bytes) (keep : Bool) :
    Store Addr × DeltaReply Addr :=
  let reply := { result := .ok, value := buf, cas := (s.items a).getCas }
  if keep then (s, { reply with itRet := some a }) else (releaseRef s a, reply)

/-- `do_add_delta` (lines 2414-2525). `cas` is `*cas`, 0 when the
command has none, and `keep` says that the caller wants the item. `beyond` are the bytes
that follow the data of each item in memory. -/
def doAddDeltaIn (S : Settings) (beyond : Addr → Bytes) (s : Store Addr) (key : Bytes)
    (incr : Bool) (delta cas : ℕ) (keep : Bool) (rounds : ℕ → Round Addr) :
    Store Addr × DeltaReply Addr :=
  match doItemGet S s key false false with
  | (s, none) => (s, { result := .itemNotFound })
  | (s, some a) =>
    let it := s.items a
    if it.nbytes ≤ 2 ∨ it.flags.chunked ∨ it.flags.hdr then
      (releaseRef s a, { result := .nonNumeric })
    else if cas ≠ 0 ∧ it.getCas ≠ cas then (releaseRef s a, { result := .casMismatch })
    else
      match Util.safeStrtoull (it.data ++ beyond a) with
      | none => (releaseRef s a, { result := .nonNumeric })
      | some value =>
        let buf := Util.itoaU64 (applyDelta value incr delta)
        if buf.length + 2 ≤ it.nbytes ∧ it.refcount = 2 then
          deltaDone (deltaInPlace S s a buf) a buf keep
        else if it.refcount > 1 then
          match deltaReplace S s a buf rounds with
          | (s, false) => (s, { result := .eom })
          | (s, true) => deltaDone s a buf keep
        else
          (if it.refcount = 1 then releaseRef s a else s, { result := .itemNotFound })

/-- `do_add_delta` when a zero byte follows the item. -/
def doAddDelta (S : Settings) : Store Addr → Bytes → Bool → ℕ → ℕ → Bool → (ℕ → Round Addr) →
    Store Addr × DeltaReply Addr := doAddDeltaIn S fun _ => []

/-! ## Delete, meta delete and flush -/

/-- `process_delete_command` with its item (`proto_text.c`, lines 2151-2170): whether
there was an item. -/
def processDelete (S : Settings) (s : Store Addr) (key : Bytes) : Store Addr × Bool :=
  match doItemGet S s key false false with
  | (s, none) => (s, false)
  | (s, some a) => (releaseRef (doItemUnlink S s a) a, true)

/-- The answers `NF`, `EX` and `HD` of a meta delete. -/
inductive MetaDeleted where
  | notFound
  | exists
  | done
deriving DecidableEq

/-- Invalidates an item instead of deleting it (`proto_text.c`, lines 1629-1637). -/
def markStale (S : Settings) (s : Store Addr) (a : Addr) (newTtl : Option ℕ) : Store Addr :=
  setFreshCas S
    (s.modify a fun it =>
      { it with
        exptime := newTtl.getD it.exptime
        flags := { it.flags with stale := true, tokenSent := false } }) a

/-- `process_mdelete_command` with its item (`proto_text.c`, lines 1614-1678): `cas` is
the value of flag `C`, `setStale` says that flag `I` is given and `newTtl` is
the value of flag `T`. -/
def processMdelete (S : Settings) (s : Store Addr) (key : Bytes) (cas : Option ℕ)
    (setStale : Bool) (newTtl : Option ℕ) : Store Addr × MetaDeleted :=
  match doItemGet S s key false false with
  | (s, none) => (s, .notFound)
  | (s, some a) =>
    if cas.any fun c => (s.items a).getCas != c then (releaseRef s a, .exists)
    else
      let s := if setStale then markStale S s a newTtl else doItemUnlink S s a
      (releaseRef s a, .done)

/-- `REALTIME_MAXDELTA`, 30 days. -/
def realtimeMaxdelta : ℕ := 60 * 60 * 24 * 30

/-- `realtime` (lines 224-242), for times that are not negative. -/
def realtime (S : Settings) (s : Store Addr) (exptime : ℕ) : ℕ :=
  if exptime = 0 then 0
  else if exptime > realtimeMaxdelta then
    if exptime ≤ S.processStarted then 1 else (exptime - S.processStarted) % 2 ^ 32
  else (exptime + s.currentTime) % 2 ^ 32

/-- `process_flush_all_command` (`proto_text.c`, lines 2500-2512) and
`process_bin_flush` (`proto_bin.c`, lines 1265-1275). -/
def processFlushAll (S : Settings) (s : Store Addr) (exptime : ℤ) : Store Addr :=
  let newOldest := if exptime > 0 then realtime S s exptime.toNat else s.currentTime
  if S.useCas then
    let oldestLive := sub32 newOldest 1
    if oldestLive ≤ s.currentTime then
      { s with oldestLive := oldestLive, casId := s.nextCasId, oldestCas := s.nextCasId }
    else { s with oldestLive := oldestLive }
  else { s with oldestLive := newOldest }

/-! ## The system -/

inductive Op (Addr : Type*) where
  | tick (now : ℕ)
  | assocExpand (callocOk : Bool)
  | assocMigrate
  | alloc (key : Bytes) (flags exptime nbytes : ℕ) (rounds : ℕ → Round Addr)
  | fill (it : Addr) (data : Bytes) (cas : ℕ)
  | get (key : Bytes) (doUpdate room : Bool)
  | touch (key : Bytes) (exptime : ℕ) (room : Bool)
  | remove (it : Addr)
  | unlink (it : Addr)
  | link (it : Addr)
  | replace (it new : Addr)
  | store (it : Addr) (comm : Comm) (setStale : Bool) (rounds : ℕ → Round Addr) (env : CopyEnv)
  | addDelta (key : Bytes) (incr : Bool) (delta cas : ℕ) (keep : Bool) (rounds : ℕ → Round Addr)
  | delete (key : Bytes)
  | mdelete (key : Bytes) (cas : Option ℕ) (setStale : Bool) (newTtl : Option ℕ)
  | bump (it : Addr)
  | pullTail (p : Pull) (trylock : ℕ → UInt32 → Bool)
  | flushAll (exptime : ℤ)

inductive Reply (Addr : Type*) where
  | done
  | item (it : Option Addr)
  | stored (result : StoreItemType) (cas : Option ℕ)
  | delta (reply : DeltaReply Addr)
  | deleted (found : Bool)
  | mdeleted (result : MetaDeleted)
  | pulled (removed : ℕ) (it : Option Addr)
deriving DecidableEq

/-- What the callers of the functions see to. -/
def Guard (S : Settings) (s : Store Addr) : Op Addr → Prop
  | .tick now => s.currentTime ≤ now ∧ now < 2 ^ 32
  | .assocExpand _ => s.assoc.expanding = false
  | .assocMigrate => s.assoc.expanding = true
  | .fill a data cas =>
    0 < s.refs a ∧ (s.items a).flags.linked = false ∧ data.length = (s.items a).nbytes ∧
      cas < 2 ^ 64
  | .remove a => 0 < s.refs a
  | .unlink a => 0 < s.refs a
  | .link a =>
    0 < s.refs a ∧ (s.items a).flags.linked = false ∧
      assocFind s.key s.assoc (s.key a) (S.hash (s.key a)) = none
  | .replace a new =>
    0 < s.refs a ∧ (s.items a).flags.linked = true ∧ 0 < s.refs new ∧
      (s.items new).flags.linked = false ∧ s.key new = s.key a
  | .store a _ _ _ _ => 0 < s.refs a ∧ (s.items a).flags.linked = false
  | .bump a => a ∈ s.bumps
  | .pullTail p _ => p.returnItem → p.curLru = .cold ∧ p.evict = false
  | .alloc .. | .get .. | .touch .. | .addDelta .. | .delete _ | .mdelete .. | .flushAll _ => True

instance (S : Settings) (s : Store Addr) (op : Op Addr) : Decidable (Guard S s op) := by
  delta Guard
  split <;> infer_instance

def apply (S : Settings) (s : Store Addr) : Op Addr → Store Addr × Reply Addr
  | .tick now => ({ s with currentTime := now }, .done)
  | .assocExpand callocOk => ({ s with assoc := assocExpand s.assoc callocOk }, .done)
  | .assocMigrate => ({ s with assoc := assocMigrate S.hash s.key s.assoc }, .done)
  | .alloc key flags exptime nbytes rounds =>
    let (s, it) := doItemAlloc S s key flags exptime nbytes rounds
    (s, .item it)
  | .fill a data cas => (setCas (setData s a data) a cas, .done)
  | .get key doUpdate room =>
    let (s, it) := doItemGet S s key doUpdate room
    (s, .item it)
  | .touch key exptime room =>
    let (s, it) := doItemTouch S s key exptime room
    (s, .item it)
  | .remove a => (releaseRef s a, .done)
  | .unlink a => (doItemUnlink S s a, .done)
  | .link a => (doItemLink S s a, .done)
  | .replace a new => (doItemReplace S s a new, .done)
  | .store a comm setStale rounds env =>
    let (s, result, cas) := doStoreItem S s a comm setStale rounds env
    (s, .stored result cas)
  | .addDelta key incr delta cas keep rounds =>
    let (s, reply) := doAddDelta S s key incr delta cas keep rounds
    (s, .delta reply)
  | .delete key =>
    let (s, found) := processDelete S s key
    (s, .deleted found)
  | .mdelete key cas setStale newTtl =>
    let (s, result) := processMdelete S s key cas setStale newTtl
    (s, .mdeleted result)
  | .bump a => (lruMaintainerBump S s a, .done)
  | .pullTail p trylock =>
    let (s, removed, it) := lruPullTail S s p trylock
    (s, .pulled removed it)
  | .flushAll exptime => (processFlushAll S s exptime, .done)

/-- One step: refused when the callers would not make it. -/
def step (S : Settings) (s : Store Addr) (op : Op Addr) : Option (Store Addr × Reply Addr) :=
  if Guard S s op then some (apply S s op) else none

structure Init (s : Store Addr) : Prop where
  items : ∀ a, (s.items a).flags = { slabbed := true } ∧ (s.items a).refcount = 0
  assoc : ∃ hashpower, s.assoc = assocInit hashpower
  lru : s.lru = .empty
  casId : s.casId = 0
  currentTime : s.currentTime < 2 ^ 32
  oldestLive : s.oldestLive = 0
  oldestCas : s.oldestCas = 0
  bumps : s.bumps = []
  refs : ∀ a, s.refs a = 0
  freed : s.freed = []

def system (Addr : Type*) [DecidableEq Addr] [Fintype Addr] (S : Settings) :
    System (Store Addr) (Op Addr) (Reply Addr) where
  init := Init
  step := step S

end Memcached.Items
