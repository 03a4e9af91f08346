import Memcached.Items.StoreItem
import Memcached.Items.Edits

/-!
# What a step of the item cache does to the linked items

Every step either serves requests without changing an item, stores an item,
changes one in place, or moves the clock (`Change`). `step_change` sorts all steps
of `system` into these kinds, once, and shows that the invariant holds again;
properties of runs are derived from that.

Results:
* `step_change`: what a step does
* `step_inv`: it keeps the invariant
-/

namespace Memcached.Items

open Lib Assoc

variable {Addr : Type*} [DecidableEq Addr] [Fintype Addr] {S : Settings}
  {s s' s'' : Store Addr} {a b : Addr} {L T : Addr → Prop}

/-! ## Kinds of steps -/

/-- No item is linked or changed, only items of `lost` are unlinked and only items of
`stamped` get a new access time. -/
structure Serves (S : Settings) (lost stamped : Addr → Prop) (s s' : Store Addr) : Prop where
  inv : Inv S s'
  linked : ∀ b, s'.Linked b → s.Linked b ∧ (s'.items b).content = (s.items b).content ∧
    ((s'.items b).time = (s.items b).time ∨ stamped b ∧ (s'.items b).time = s.currentTime)
  lost : ∀ b, s.Linked b → s'.Linked b ∨ lost b
  casId : s'.casId = s.casId
  clock : s'.clock = s.clock

theorem Quiet.serves (h : Quiet S L T s s') : Serves S L T s s' where
  inv := h.inv
  linked := fun b hb =>
    have hs := h.inv.not_slabbed_of_linked hb
    ⟨h.linked b hb, h.content b hs, h.time b hs⟩
  lost := h.lost
  casId := h.casId
  clock := h.clock

theorem Published.serves (h : Published S L s s') : Serves S L nothing s s' where
  inv := h.inv
  linked := fun b hb =>
    have ⟨hl, hc, ht⟩ := h.linked b hb
    ⟨hl, hc, .inl ht⟩
  lost := h.lost
  casId := h.casId
  clock := h.clock

/-- The content of an item after a change in place: a new expiry time only, or anything
with a new CAS value and the old mark of the key. -/
def EditOf (S : Settings) (s : Store Addr) (a : Addr) (c : Item) (casId : ℕ) : Prop :=
  (∃ exptime, c = { (s.items a).content with exptime := exptime } ∧ casId = s.casId) ∨
    (c.casUnique = freshCas S s a ∧ c.flags.cas = (s.items a).flags.cas ∧
      c.flagsConv = (s.items a).flagsConv ∧ casId = casIdAfter S s (s.items a) ∧
      c.flags.keyBinary = (s.items a).flags.keyBinary)

/-- The step stores an item of its own for the key. -/
def StoresKey (S : Settings) (s : Store Addr) (op : Op Addr) (key : Bytes) : Prop :=
  match op with
  | .store a comm setStale rounds env =>
    s.key a = key ∧ (doStoreItem S s a comm setStale rounds env).2.1 = .stored
  | .link a | .replace _ a => s.key a = key
  | _ => False

instance (s : Store Addr) (op : Op Addr) (key : Bytes) : Decidable (StoresKey S s op key) := by
  delta StoresKey
  induction op using Op.casesOn <;> infer_instance

/-- The step puts a new item in the place of a live one of the key: an increment whose
result does not fit. -/
def Increments (s : Store Addr) (op : Op Addr) (key : Bytes) : Prop :=
  match op with
  | .addDelta k _ _ _ _ _ => k = key ∧ ∃ a, s.Hit key a
  | _ => False

inductive Change (S : Settings) (s : Store Addr) (op : Op Addr) (s' : Store Addr) : Prop where
  | serves (L T : Addr → Prop) (h : Serves S L T s s')
      (hT : ∀ b, T b → s.Linked b ∧ ¬s.Dead b ∨ op = .bump b)
  | stores (L : Addr → Prop) (new : Addr) (it : Item) (h : Stores S L s s' new it)
      (hcas : it.flags.cas = S.useCas) (hkey : StoresKey S s op it.key ∨ Increments s op it.key)
  | edits (a : Addr) (c : Item) (n : ℕ) (h : Edits S s s' a c n) (hlive : ¬s.Dead a)
      (hc : EditOf S s a c n)
  | tick (now : ℕ) (h : s' = { s with currentTime := now }) (hop : op = .tick now)
      (hnow : s.currentTime ≤ now)
  | flush (exptime : ℤ) (h : s' = processFlushAll S s exptime) (hop : op = .flushAll exptime)

/-! ## Store operations -/

theorem getCas_of_flag {it : Item} (h : it.flags.cas = true) : it.getCas = it.casUnique := by
  rw [Item.getCas, if_pos h]

variable {op : Op Addr}

theorem Published.change (h : Published S L s s') : Change S s op s' :=
  .serves L nothing h.serves fun _ => False.elim

section

variable (h : Inv S s) (hlt : CountsLow s)
include h hlt

/-- A store serves an item that is alive, or stores one of its own. -/
theorem doStoreItem_effect (hr : 0 < s.refs a)
    (hl : ¬s.Linked a) (comm : Comm) (setStale : Bool) (rounds : ℕ → Round Addr) (env : CopyEnv) :
    let s' := (doStoreItem S s a comm setStale rounds env).1
    (∃ L T, Serves S L T s s' ∧ ∀ b, T b → s.Linked b ∧ ¬s.Dead b) ∨
      ∃ L new it, Stores S L s s' new it ∧ it.flags.cas = S.useCas ∧
        StoresKey S s (.store a comm setStale rounds env) it.key := by
  have hca := h.cas a (h.not_slabbed_of_refs hr)
  simp only
  obtain hmi | ⟨old, hh⟩ := missing_or_hit s (s.key a)
  · obtain ⟨s', r, cas, he, -, hs⟩ :=
      doStoreItem_of_missing h hlt hr hl hmi comm setStale rounds env
    have hk : r = .stored →
        StoresKey S s (.store a comm setStale rounds env) (s.key a) := by
      rintro rfl
      exact ⟨rfl, by rw [he]⟩
    rw [he]
    cases comm with
    | add | set => exact .inr ⟨_, a, _, hs.2.2, hca, hk hs.1⟩
    | replace | append | prepend | cas =>
      exact .inl ⟨_, _, hs.2.2.serves, fun _ => False.elim⟩
  obtain ⟨s', r, cas, he, hs⟩ :=
    doStoreItem_of_hit h hlt hr hl hh comm setStale rounds env
  have hk : r = .stored →
      StoresKey S s (.store a comm setStale rounds env) (s.key a) := by
    rintro rfl
    exact ⟨rfl, by rw [he]⟩
  have hco : Concatenates S s s' a old comm env r cas →
      (∃ L T, Serves S L T s s' ∧ ∀ b, T b → s.Linked b ∧ ¬s.Dead b) ∨
        ∃ L new it, Stores S L s s' new it ∧ it.flags.cas = S.useCas ∧
          StoresKey S s (.store a comm setStale rounds env) it.key := by
    intro hc
    cases hc with
    | badToken hq => exact .inl ⟨_, _, hq.published.serves, fun _ => False.elim⟩
    | refused hp => exact .inl ⟨_, _, hp.serves, fun _ => False.elim⟩
    | stored new it' _ hst hm _ _ =>
      refine .inr ⟨_, new, it', hst, hm.cas, ?_⟩
      rw [hm.key.trans hh.key]
      exact hk rfl
  rw [he]
  cases comm with
  | add =>
    refine .inl ⟨_, _, hs.2.2.serves, fun b hb => ?_⟩
    rw [hb]
    exact ⟨hh.linked, hh.live⟩
  | set => exact .inr ⟨_, a, _, hs.2.2, hca, hk hs.1⟩
  | replace => exact .inr ⟨_, a, _, hs.2.2, hca, hk hs.1⟩
  | cas =>
    simp only at hs
    split at hs
    · exact .inr ⟨_, a, _, hs.2.2, hca, hk hs.1⟩
    · exact .inr ⟨_, a, _, hs.2.2, hca, hk hs.1⟩
    · exact .inl ⟨_, _, hs.2.2.published.serves, fun _ => False.elim⟩
  | append => exact hco hs
  | prepend => exact hco hs

theorem doStoreItem_change (hr : 0 < s.refs a)
    (hl : ¬s.Linked a) (comm : Comm) (setStale : Bool) (rounds : ℕ → Round Addr) (env : CopyEnv) :
    Change S s (.store a comm setStale rounds env)
      (doStoreItem S s a comm setStale rounds env).1 := by
  rcases doStoreItem_effect h hlt hr hl comm setStale rounds env with
    ⟨L, T, hs, hT⟩ | ⟨L, new, it, hst, hc, hk⟩
  · exact .serves L T hs fun b hb => .inl (hT b hb)
  · exact .stores L new it hst hc (.inl hk)

theorem doAddDelta_change (key : Bytes) (incr : Bool)
    (delta cas : ℕ) (keep : Bool) (rounds : ℕ → Round Addr) :
    Change S s (.addDelta key incr delta cas keep rounds)
      (doAddDelta S s key incr delta cas keep rounds).1 := by
  obtain hmi | ⟨a, hh⟩ := missing_or_hit s key
  · obtain ⟨s', reply, he, -, hp⟩ := doAddDelta_of_missing h hlt hmi incr delta cas keep rounds
    rw [he]
    exact hp.change
  obtain ⟨s', reply, he, ⟨-, hp⟩ | ⟨-, buf, hed | ⟨new, it', hs, hm⟩⟩⟩ :=
    doAddDelta_of_hit h hlt hh incr delta cas keep rounds
  · rw [he]
    exact hp.change
  · rw [he]
    exact .edits a _ _ hed hh.live (.inr ⟨rfl, rfl, rfl, rfl, rfl⟩)
  rw [he]
  refine .stores _ new it' hs hm.cas (.inr ?_)
  rw [hm.key.trans hh.key]
  exact ⟨rfl, a, hh⟩

theorem processMdelete_change (key : Bytes) (cas : Option ℕ)
    (setStale : Bool) (newTtl : Option ℕ) (op : Op Addr) :
    Change S s op (processMdelete S s key cas setStale newTtl).1 := by
  obtain hm | ⟨a, hh⟩ := missing_or_hit s key
  · obtain ⟨s', he, hp⟩ := processMdelete_of_missing h hlt hm cas setStale newTtl
    rw [he]
    exact hp.change
  obtain ⟨s', r, he, hq | hed | ⟨hp, -⟩⟩ :=
    processMdelete_of_hit h hlt hh cas setStale newTtl
  · rw [he]
    exact hq.published.change
  · rw [he]
    exact .edits a _ _ hed hh.live (.inr ⟨rfl, rfl, rfl, rfl, rfl⟩)
  · rw [he]
    exact hp.change

end

/-! ## The other steps -/

section

variable (h : Inv S s)
include h

/-- Clients do not see a table that grows. -/
theorem assoc_published {t : HashTable Addr}
    (ht : Assoc.Inv S.hash s.key t s.stored) : Published S nothing s { s with assoc := t } where
  inv := ⟨⟨ht, h.lru, h.sized.congr (fun _ => Iff.rfl) (fun _ _ => ⟨rfl, rfl⟩) rfl⟩,
    ⟨h.refcount, h.lt, h.slabbed, h.freed⟩, ⟨h.wiped, h.cas⟩⟩
  linked := fun _ hb => ⟨hb, rfl, rfl⟩
  lost := fun _ hb => .inl hb
  casId := rfl
  clock := rfl

variable (hlt : CountsLow s)
include hlt

theorem doItemAlloc_some {key : Bytes} {flags exptime nbytes : ℕ} {rounds : ℕ → Round Addr}
    (he : doItemAlloc S s key flags exptime nbytes rounds = (s', some a)) :
    ∃ s1, Pulling S rounds s s1 ∧ Allocated S s1 s' a key flags exptime nbytes := by
  obtain ⟨s1, hp, hn | ⟨s2, a', hs, ha⟩⟩ :=
    doItemAlloc_spec h hlt.countsOpen key flags exptime nbytes rounds
  · rw [he] at hn
    cases hn
  · rw [he] at hs
    cases hs
    exact ⟨s1, hp, ha⟩

theorem doItemAlloc_published (key : Bytes) (flags exptime nbytes : ℕ) (rounds : ℕ → Round Addr) :
    Published S (Lockable S rounds s) s (doItemAlloc S s key flags exptime nbytes rounds).1 := by
  obtain ⟨s1, hp, he | ⟨s', a, he, ha⟩⟩ :=
    doItemAlloc_spec h hlt.countsOpen key flags exptime nbytes rounds
  · rw [he]
    exact hp.toQuiet.published
  · rw [he]
    exact (hp.toQuiet.published.trans (ha.published hp.inv)).mono
      fun b _ hb => hb.elim id False.elim

theorem doItemGet_change (key : Bytes) (doUpdate room : Bool)
    (op : Op Addr) : Change S s op (doItemGet S s key doUpdate room).1 := by
  obtain hm | ⟨a, hh⟩ := missing_or_hit s key
  · obtain ⟨s', he, hq, -⟩ := doItemGet_of_missing h hlt hm doUpdate room
    rw [he]
    exact hq.published.change
  obtain ⟨s', he, hq, -⟩ := doItemGet_of_hit h hlt hh doUpdate room
  rw [he]
  refine .serves _ _ hq.serves fun b hb => .inl ?_
  rw [hb.2]
  exact ⟨hh.linked, hh.live⟩

theorem doItemTouch_change (key : Bytes) (exptime : ℕ)
    (room : Bool) (op : Op Addr) : Change S s op (doItemTouch S s key exptime room).1 := by
  obtain hm | ⟨a, hh⟩ := missing_or_hit s key
  · obtain ⟨s', he, hp⟩ := doItemTouch_of_missing h hlt hm exptime room
    rw [he]
    exact hp.change
  · obtain ⟨s', he, hed⟩ := doItemTouch_of_hit h hlt hh exptime room
    rw [he]
    exact .edits a _ _ hed hh.live (.inl ⟨exptime, rfl, rfl⟩)

theorem processDelete_change (key : Bytes) (op : Op Addr) :
    Change S s op (processDelete S s key).1 := by
  obtain hm | ⟨a, hh⟩ := missing_or_hit s key
  · obtain ⟨s', he, hp⟩ := processDelete_of_missing h hlt hm
    rw [he]
    exact hp.change
  · obtain ⟨s', he, -, hp, -⟩ := processDelete_of_hit h hlt hh
    rw [he]
    exact hp.change

end

variable {r : Reply Addr}

theorem step_eq (h : step S s op = some (s', r)) : Guard S s op ∧ apply S s op = (s', r) := by
  unfold step at h
  split_ifs at h with hg
  exact ⟨hg, Option.some.inj h⟩

omit [DecidableEq Addr] [Fintype Addr] in
theorem items_processFlushAll {exptime : ℤ} : (processFlushAll S s exptime).items = s.items := by
  simp only [processFlushAll]
  split_ifs <;> rfl

section

variable (h : Inv S s)
include h

theorem fill_published {data : Bytes} {cas : ℕ} (hg : Guard S s (.fill a data cas)) :
    Published S nothing s (setCas (setData s a data) a cas) := by
  obtain ⟨hr, hl, -⟩ := hg
  have hd := setData_published h hr (by simp [Store.Linked, hl]) data
  have hc := setCas_published (a := a) hd.inv hr
    (by simp [Store.Linked, items_setData, hl]) cas
  exact (hd.trans hc).mono fun b _ hb => hb.elim id id

/-- Every step is of one of these kinds. -/
theorem step_change (hlt : CountsLow s)
    (hs : step S s op = some (s', r)) : Change S s op s' := by
  obtain ⟨hg, hap⟩ := step_eq hs
  have ho := hlt.countsOpen
  obtain rfl : (apply S s op).1 = s' := by rw [hap]
  cases op with
  | tick now => exact .tick now rfl rfl hg.1
  | assocExpand callocOk => exact (assoc_published h (h.assoc.assocExpand hg callocOk)).change
  | assocMigrate => exact (assoc_published h (h.assoc.assocMigrate hg)).change
  | alloc key flags exptime nbytes rounds =>
    exact (doItemAlloc_published h hlt key flags exptime nbytes rounds).change
  | fill a data cas => exact (fill_published h hg).change
  | get key doUpdate room => exact doItemGet_change h hlt key doUpdate room _
  | touch key exptime room => exact doItemTouch_change h hlt key exptime room _
  | remove a => exact (releaseRef_quiet h hg).published.change
  | unlink a => exact (doItemUnlink_quiet h).published.change
  | link a =>
    obtain ⟨hr, hl, ha⟩ := hg
    exact .stores _ a _ (doItemLink_stores h (by simp [Store.Linked, hl]) hr
      (h.find_eq_none_iff.mp ha) (ho a)) (h.cas a (h.not_slabbed_of_refs hr)) (.inl rfl)
  | replace a new =>
    obtain ⟨-, hol, hr, hl, hk⟩ := hg
    exact .stores _ new _ (doItemReplace_stores h hol (by simp [Store.Linked, hl]) hr hk
      (ho new)) (h.cas new (h.not_slabbed_of_refs hr)) (.inl rfl)
  | store a comm setStale rounds env =>
    obtain ⟨hr, hl⟩ := hg
    exact doStoreItem_change h hlt hr (by simp [Store.Linked, hl]) comm setStale rounds env
  | addDelta key incr delta cas keep rounds =>
    exact doAddDelta_change h hlt key incr delta cas keep rounds
  | delete key => exact processDelete_change h hlt key _
  | mdelete key cas setStale newTtl =>
    exact processMdelete_change h hlt key cas setStale newTtl _
  | bump a =>
    refine .serves _ _ (lruMaintainerBump_quiet h hg).serves fun b hb => .inr ?_
    rw [hb]
  | pullTail p trylock =>
    obtain ⟨s', n, ret, he, hq, -⟩ := lruPullTail_spec h ho p trylock hg
    simp only [apply, he]
    exact hq.published.change
  | flushAll exptime => exact .flush exptime rfl rfl

theorem Inv.of_clock (hi : s'.items = s.items) (ha : s'.assoc = s.assoc)
    (hl : s'.lru = s.lru) (hb : s'.bumps = s.bumps) (hr : s'.refs = s.refs)
    (hf : s'.freed = s.freed) : Inv S s' :=
  h.congr ⟨fun a => by rw [hi], fun a _ => by rw [hi], ha, hl, hb, hr, hf⟩
    ⟨fun a => by rw [Store.Slabbed, hi]; exact h.wiped a,
      fun a => by rw [Store.Slabbed, hi]; exact h.cas a⟩

theorem Change.inv (hc : Change S s op s') : Inv S s' := by
  cases hc with
  | serves L T hs _ => exact hs.inv
  | stores L new it hs _ _ => exact hs.inv
  | edits a c n he _ _ => exact he.inv
  | tick now heq _ _ =>
    subst heq
    exact h.of_clock rfl rfl rfl rfl rfl rfl
  | flush exptime heq _ =>
    subst heq
    simp only [processFlushAll]
    split_ifs <;> exact h.of_clock rfl rfl rfl rfl rfl rfl

theorem step_inv (hlt : CountsLow s) (hs : step S s op = some (s', r)) : Inv S s' :=
  (step_change h hlt hs).inv h

end

/-- An empty cache has the invariant. -/
theorem inv_of_init (h : Init s) : Inv S s := by
  have hl : ∀ a, ¬s.Linked a := fun a => by simp [Store.Linked, (h.items a).1]
  have hh : ∀ a, s.holders a = 0 := fun a => by
    simp [Store.holders, hl, h.refs, h.bumps]
  have hs : s.stored = ∅ := by
    ext a
    simp [hl]
  obtain ⟨hashpower, has⟩ := h.assoc
  refine ⟨⟨?_, fun i => ⟨[], ?_⟩, ?_⟩, ⟨fun a => ?_, fun a => ?_, fun a => ?_, ?_⟩,
    ⟨fun a _ => ?_, ?_⟩⟩
  · rw [has, hs]
    exact inv_assocInit S.hash s.key hashpower
  · simp [h.lru, Linked, Store.place, hl, LruLists.empty]
  · refine ⟨⟨fun q => ?_, fun q => ?_⟩, ?_, ?_⟩ <;> simp [h.lru, hs, LruLists.empty]
  · rw [(h.items a).2, hh]
  · rw [(h.items a).2]
    decide
  · simp [Store.Slabbed, (h.items a).1, hh]
  · simp [h.freed]
  · simp [Item.content, (h.items a).1]
  · intro a ha
    simp [Store.Slabbed, (h.items a).1] at ha

/-! ## A small cache to run the system on -/

/-- One slab class, a segmented LRU, CAS values on. -/
def smallSettings : Settings where
  useCas := true
  lruSegmented := true
  tempLru := false
  temporaryTtl := 61
  evictToFree := true
  hotLruPct := 20
  warmLruPct := 40
  slabChunkSizeMax := 524288
  processStarted := 1000
  slabsClsid := fun _ => 1
  hash := fun _ => 0

def emptyStore (n : ℕ) : Store (Fin n) where
  items := fun _ =>
    { key := [], suffix := 0, data := [], exptime := 0, time := 0, refcount := 0,
      flags := { slabbed := true }, clsid := 1, lru := .hot, casUnique := 0 }
  assoc := assocInit 16
  lru := .empty
  casId := 0
  currentTime := 2
  oldestLive := 0
  oldestCas := 0
  bumps := []
  refs := fun _ => 0
  freed := []

theorem emptyStore_init (n : ℕ) : Init (emptyStore n) where
  items := fun _ => ⟨rfl, rfl⟩
  assoc := ⟨16, rfl⟩
  lru := rfl
  casId := rfl
  currentTime := by
    show 2 < 2 ^ 32
    decide
  oldestLive := rfl
  oldestCas := rfl
  bumps := rfl
  refs := fun _ => rfl
  freed := rfl

theorem emptyStore_reachable (n : ℕ) (S : Settings) (ok : Store (Fin n) → Op (Fin n) → Prop) :
    (system (Fin n) S).Reachable ok (emptyStore n) :=
  .of_init (emptyStore_init n)

/-- `slabs_alloc` gives the memory at `i`, and no item lock is free. -/
def slabAt {n : ℕ} (i : Fin n) : ℕ → Round (Fin n) := fun _ => ⟨some i, fun _ _ => false⟩

/-- A client stores a value with a store command, in the memory at `i`. -/
def storeOps {n : ℕ} (i : Fin n) (key value : Bytes) (exptime : ℕ) (comm : Comm) (cas : ℕ) :
    List (Op (Fin n)) :=
  [.alloc key 0 exptime value.length (slabAt i), .fill i value cas,
   .store i comm false (slabAt i) {}, .remove i]

end Memcached.Items
