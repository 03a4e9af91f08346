import Memcached.Storage.Pages
import Memcached.Util.Numbers

/-!
# Object accounting of the external storage (`extstore.c`, `storage.c`)

A page counts the objects in it that are in use and their bytes, and the engine has totals.
The item layer adds an object when an item is written out, and takes it away with the header
item. Compaction takes an object away before it knows whether the header item will point at a
copy: a header that it skips, or whose copy is lost, is taken away a second time.

Results:
* `accounting_exact`: the counts are right if no header is skipped
* `skipped_header_uncounted`: one that is
-/

namespace Memcached.Storage.Accounts

open Lib

/-! ## State -/

/-- The `item_hdr` of a linked header item, the length `ITEM_ntotal` of the item that was
written out, and whether the header item is in `COLD_LRU`. -/
structure Header (n : ℕ) where
  page : Fin n
  version : ℕ
  offset : ℕ
  ntotal : ℕ
  cold : Bool
deriving DecidableEq

/-- The engine, the header items linked in the hash table, and the totals `objects_used` and
`bytes_used`. `keys` are the keys that had a header item. The totals are the numbers that
the 64-bit counters stand for: one below zero is an underflow. -/
structure Store (n : ℕ) where
  engine : Pages.Engine n
  headers : Bytes → Option (Header n)
  keys : Finset Bytes
  objectsUsed : ℤ
  bytesUsed : ℤ
  headers_none : ∀ key, key ∉ keys → headers key = none

variable {n : ℕ}

/-- The header item of a key is linked, replaced or unlinked. -/
def Store.setHeader (s : Store n) (key : Bytes) (h : Option (Header n)) : Store n :=
  { s with
    headers := Function.update s.headers key h
    keys := insert key s.keys
    headers_none := fun key' hkey' => by
      rw [Finset.mem_insert, not_or] at hkey'
      rw [Function.update_of_ne hkey'.1]
      exact s.headers_none key' hkey'.2 }

/-! ## Functions -/

/-- `extstore_write` (lines 586-604), the counters. -/
def extstoreWrite (s : Store n) (id : Fin n) (len : ℕ) : Store n :=
  let p := s.engine.pages id
  { s with
    engine := s.engine.setPage id
      { p with bytesUsed := p.bytesUsed + len, objCount := p.objCount + 1 }
    bytesUsed := s.bytesUsed + len
    objectsUsed := s.objectsUsed + 1 }

/-- `extstore_delete` (lines 649-682): the counters of the page stop at zero. -/
def extstoreDelete (s : Store n) (id : Fin n) (version count bytes : ℕ) : Store n :=
  let p := s.engine.pages id
  if p.closed = false ∧ p.version = version then
    { s with
      engine := s.engine.setPage id
        { p with bytesUsed := p.bytesUsed - bytes, objCount := p.objCount - count }
      bytesUsed := s.bytesUsed - bytes
      objectsUsed := s.objectsUsed - count }
  else s

/-- `_free_page` (lines 852-898). -/
def freePage (s : Store n) (id : Fin n) : Store n :=
  let p := s.engine.pages id
  { s with
    engine := Pages.freePage s.engine id
    objectsUsed := s.objectsUsed - p.objCount
    bytesUsed := s.bytesUsed - p.bytesUsed }

/-- The maintenance thread looks at a page (lines 933-960). -/
def maintPage (s : Store n) (id : Fin n) : Store n :=
  let p := s.engine.pages id
  if p.active || p.free then s
  else if (p.objCount == 0 || p.closed) && p.refcount == 0 then freePage s id
  else s

/-- The maintenance thread evicts a page (lines 962-979). -/
def evictPage (s : Store n) (id : Fin n) : Store n :=
  let p := s.engine.pages id
  if p.active || p.free || p.closed then s
  else
    let s := { s with engine := s.engine.setPage id { p with closed := true } }
    if p.refcount == 0 then freePage s id else s

/-- `storage_write` (`storage.c`, lines 476-570) for an item in memory, when the request for
space gave the page `id`. -/
def storageWrite (s : Store n) (key : Bytes) (id : Fin n) (offset ntotal : ℕ) (cold : Bool) :
    Store n :=
  (extstoreWrite s id ntotal).setHeader key
    (some ⟨id, (s.engine.pages id).version, offset, ntotal, cold⟩)

/-- `storage_delete` (`storage.c`, lines 49-55) of the item of a key that leaves the hash table:
it is overwritten, deleted, expired, evicted or read back into memory. -/
def storageDelete (s : Store n) (key : Bytes) : Store n :=
  match s.headers key with
  | none => s
  | some h => (extstoreDelete s h.page h.version 1 h.ntotal).setHeader key none

/-- A record that the walk over a page meets: the page that is walked, the record, whether the
item linked under its key is neither flushed nor expired, and the place that the requests
for space gave. -/
structure Visit (n : ℕ) where
  dropUnread : Bool
  page : Fin n
  version : ℕ
  key : Bytes
  ntotal : ℕ
  refcount : ℕ
  live : Bool
  granted : Option (Fin n × ℕ)

/-- The header is valid for the walk (`storage.c`, lines 802-806). -/
def Visit.Valid (v : Visit n) (h : Header n) : Prop :=
  v.live = true ∧ h.page = v.page ∧ h.version = v.version

instance (v : Visit n) (h : Header n) : Decidable (v.Valid h) :=
  inferInstanceAs (Decidable (_ ∧ _))

/-- The body of the loop of `storage_compact_readback` (`storage.c`, lines 798-861). -/
def compactRecord (s : Store n) (v : Visit n) : Store n :=
  match s.headers v.key with
  | none => s
  | some h =>
    if v.Valid h then
      let s := extstoreDelete s v.page v.version 1 v.ntotal
      -- skipped
      if v.dropUnread = true ∧ h.cold = true then s
      else
        match v.granted with
        | none => s
        | some (id, offset) =>
          let version := (s.engine.pages id).version
          let s := extstoreWrite s id v.ntotal
          -- lost, unless nobody else holds the item
          if v.refcount = 2 then
            s.setHeader v.key (some { h with page := id, version := version, offset := offset })
          else s
    else s

/-! ## Runs -/

inductive Action (n : ℕ) where
  | allocate (bucket freeBucket : ℕ)
  | maint (id : Fin n)
  | evict (id : Fin n)
  | use (id : Fin n) (u : Pages.Usage)
  | write (key : Bytes) (id : Fin n) (offset ntotal : ℕ) (cold : Bool)
  | delete (key : Bytes)
  | compact (v : Visit n)

def Store.Writable (s : Store n) (id : Fin n) : Prop :=
  (s.engine.pages id).active = true ∧ (s.engine.pages id).free = false

instance (s : Store n) (id : Fin n) : Decidable (s.Writable id) :=
  inferInstanceAs (Decidable (_ ∧ _))

/-- A flush, a read or the closing of a page: its counters stay, and it is not opened. -/
def Store.Uses (s : Store n) (id : Fin n) (u : Pages.Usage) : Prop :=
  u.objCount = (s.engine.pages id).objCount ∧ u.bytesUsed = (s.engine.pages id).bytesUsed ∧
    ((s.engine.pages id).closed = true → u.closed = true) ∧
    (s.engine.pages id).free = false ∧ (u.active = true → (s.engine.pages id).active = true)

instance (s : Store n) (id : Fin n) (u : Pages.Usage) : Decidable (s.Uses id u) :=
  inferInstanceAs (Decidable (_ ∧ _))

/-- One action. Only an item in memory is written out, and objects go to pages in use. -/
def step (s : Store n) : Action n → Option (Store n × Unit)
  | .allocate bucket freeBucket =>
    if bucket < s.engine.pageBuckets ∧ freeBucket < s.engine.pageBuckets ∧
        Pages.bucketFull s.engine bucket then
      some ({ s with engine := (Pages.allocatePage s.engine bucket freeBucket).1 }, ())
    else none
  | .maint id => some (maintPage s id, ())
  | .evict id => some (evictPage s id, ())
  | .use id u =>
    if s.Uses id u then
      some ({ s with engine := s.engine.setPage id ((s.engine.pages id).use u) }, ())
    else none
  | .write key id offset ntotal cold =>
    if s.headers key = none ∧ s.Writable id then
      some (storageWrite s key id offset ntotal cold, ())
    else none
  | .delete key => some (storageDelete s key, ())
  | .compact v =>
    if ∀ x ∈ v.granted, s.Writable x.1 then some (compactRecord s v, ()) else none

def emptyStore (e : Pages.Engine n) : Store n where
  engine := e
  headers _ := none
  keys := ∅
  objectsUsed := 0
  bytesUsed := 0
  headers_none _ _ := rfl

def storage (cf : Pages.Conf) : System (Store cf.pageCount) (Action cf.pageCount) Unit where
  init s := ∃ e, Pages.extstoreInit cf = some e ∧ s = emptyStore e
  step := step

/-- The record of a valid header is rescued: it is the header's own by its length, it is
neither skipped nor lost. -/
def Rescued (s : Store n) (v : Visit n) : Prop :=
  ∀ h ∈ s.headers v.key, v.Valid h →
    v.ntotal = h.ntotal ∧ ¬(v.dropUnread = true ∧ h.cold = true) ∧ v.granted.isSome = true ∧
      v.refcount = 2

instance (s : Store n) (v : Visit n) : Decidable (Rescued s v) :=
  inferInstanceAs (Decidable (∀ h ∈ s.headers v.key, _))

/-- The steps that keep the accounts: compaction rescues what it meets, and the version numbers
do not run out. -/
def Accountable (s : Store n) : Action n → Prop
  | .allocate _ _ => s.engine.version + 1 < 2 ^ 32
  | .compact v => Rescued s v
  | _ => True

instance (s : Store n) (a : Action n) : Decidable (Accountable s a) :=
  match a with
  | .allocate _ _ => inferInstanceAs (Decidable (_ < _))
  | .compact v => inferInstanceAs (Decidable (Rescued s v))
  | .maint _ | .evict _ | .use _ _ | .write .. | .delete _ => inferInstanceAs (Decidable True)

def anyAction (_ : Store n) (_ : Action n) : Prop := True

instance (s : Store n) (a : Action n) : Decidable (anyAction s a) :=
  inferInstanceAs (Decidable True)

/-! ## Exact accounts -/

inductive Measure where
  | objects
  | bytes

/-- `obj_count` and `bytes_used` of a page. -/
def used : Measure → Pages.Page → ℕ
  | .objects, p => p.objCount
  | .bytes, p => p.bytesUsed

/-- `objects_used` and `bytes_used` of the engine. -/
def Store.total (s : Store n) : Measure → ℤ
  | .objects => s.objectsUsed
  | .bytes => s.bytesUsed

def Header.size (h : Header n) : Measure → ℕ
  | .objects => 1
  | .bytes => h.ntotal

/-- What the item under a key counts for at a page and version. -/
def weight (m : Measure) (id : Fin n) (version : ℕ) : Option (Header n) → ℕ
  | none => 0
  | some h => if h.page = id ∧ h.version = version then h.size m else 0

/-- The number, or the size, of the linked header items that point at a page and version. -/
def Store.tally (s : Store n) (m : Measure) (id : Fin n) (version : ℕ) : ℕ :=
  ∑ key ∈ s.keys, weight m id version (s.headers key)

/-- The counters of every open page count the header items that point at it, and the totals
are the sums over all pages. -/
structure Exact (s : Store n) (m : Measure) : Prop where
  page : ∀ id, (s.engine.pages id).closed = false →
    used m (s.engine.pages id) = s.tally m id (s.engine.pages id).version
  total : s.total m = ((∑ id, used m (s.engine.pages id) : ℕ) : ℤ)

/-! ## Sums -/

theorem sum_change {α : Type*} [DecidableEq α] {s : Finset α} {f g : α → ℕ} {a : α}
    (ha : a ∈ s) (h : ∀ b, b ≠ a → g b = f b) : ∑ b ∈ s, g b + f a = ∑ b ∈ s, f b + g a := by
  have hr : ∑ b ∈ s.erase a, g b = ∑ b ∈ s.erase a, f b :=
    Finset.sum_congr rfl fun b hb => h b (Finset.ne_of_mem_erase hb)
  rw [← Finset.add_sum_erase s g ha, ← Finset.add_sum_erase s f ha, hr]
  omega

variable {s : Store n} {m : Measure} {id : Fin n} {version : ℕ}

@[simp] theorem setHeader_self (s : Store n) (key : Bytes) (h : Option (Header n)) :
    (s.setHeader key h).headers key = h :=
  Function.update_self ..

theorem setHeader_of_ne (s : Store n) {key key' : Bytes} (hn : key' ≠ key)
    (h : Option (Header n)) : (s.setHeader key h).headers key' = s.headers key' :=
  Function.update_of_ne hn ..

@[simp] theorem setPage_self (e : Pages.Engine n) (id : Fin n) (p : Pages.Page) :
    (e.setPage id p).pages id = p :=
  Function.update_self ..

theorem setPage_of_ne (e : Pages.Engine n) {id a : Fin n} (hn : a ≠ id) (p : Pages.Page) :
    (e.setPage id p).pages a = e.pages a :=
  Function.update_of_ne hn ..

theorem tally_setHeader (s : Store n) (m : Measure) (id : Fin n) (version : ℕ) (key : Bytes)
    (h : Option (Header n)) :
    (s.setHeader key h).tally m id version + weight m id version (s.headers key) =
      s.tally m id version + weight m id version h := by
  have ho : s.tally m id version =
      ∑ key' ∈ insert key s.keys, weight m id version (s.headers key') := by
    rw [Store.tally, Finset.sum_insert_of_eq_zero_if_notMem]
    intro hk
    rw [s.headers_none key hk]
    rfl
  have hs := sum_change (Finset.mem_insert_self key s.keys)
    (f := fun key' => weight m id version (s.headers key'))
    (g := fun key' => weight m id version ((s.setHeader key h).headers key'))
    fun key' hn => by rw [setHeader_of_ne s hn]
  rw [setHeader_self, ← ho] at hs
  exact hs

theorem tally_eq_zero (h : ∀ key hdr, s.headers key = some hdr →
    ¬(hdr.page = id ∧ hdr.version = version)) : s.tally m id version = 0 := by
  refine Finset.sum_eq_zero fun key _ => ?_
  rcases hk : s.headers key with _ | hdr
  · rfl
  · exact if_neg (h key hdr hk)

theorem sum_setPage (e : Pages.Engine n) (id : Fin n) (p : Pages.Page) :
    ∑ a, used m ((e.setPage id p).pages a) + used m (e.pages id) =
      ∑ a, used m (e.pages a) + used m p := by
  have hs := sum_change (Finset.mem_univ id) (f := fun a => used m (e.pages a))
    (g := fun a => used m ((e.setPage id p).pages a)) fun a ha => by rw [setPage_of_ne e ha]
  rw [setPage_self] at hs
  exact hs

theorem weight_some_self (m : Measure) (h : Header n) :
    weight m h.page h.version (some h) = h.size m :=
  if_pos ⟨rfl, rfl⟩

theorem weight_of_ne {h : Header n} (hn : ¬(h.page = id ∧ h.version = version)) :
    weight m id version (some h) = 0 :=
  if_neg hn

/-! ## The invariant -/

/-- Free pages are empty and have no version; versions in use lie below the next one. -/
structure Inv (s : Store n) : Prop where
  pages : Pages.Inv s.engine
  version_pos : 0 < s.engine.version
  free : ∀ id, (s.engine.pages id).free = true →
    (s.engine.pages id).version = 0 ∧ ∀ m, used m (s.engine.pages id) = 0
  versions : ∀ id, (s.engine.pages id).free = false →
    0 < (s.engine.pages id).version ∧ (s.engine.pages id).version < s.engine.version
  headers : ∀ key h, s.headers key = some h → 0 < h.version ∧ h.version < s.engine.version
  exact : ∀ m, Exact s m

/-- A page keeps its version and its counters, and is not opened. -/
structure Keeps (p p' : Pages.Page) : Prop where
  place : p.SamePlace p'
  version : p'.version = p.version
  used : ∀ m, used m p' = used m p
  closed : p'.closed = false → p.closed = false

variable {p : Pages.Page}

theorem Inv.setPage (h : Inv s) (hp : Keeps (s.engine.pages id) p) :
    Inv { s with engine := s.engine.setPage id p } := by
  have hpa : ∀ a, Keeps (s.engine.pages a) ((s.engine.setPage id p).pages a) := by
    intro a
    obtain rfl | ha := eq_or_ne a id
    · rw [setPage_self]
      exact hp
    · rw [setPage_of_ne _ ha]
      exact ⟨⟨rfl, rfl, rfl⟩, rfl, fun _ => rfl, fun hc => hc⟩
  refine ⟨Pages.setPage_inv h.pages hp.place, h.version_pos, fun a ha => ?_, fun a ha => ?_,
    h.headers, fun m => ⟨fun a ha => ?_, ?_⟩⟩
  · obtain ⟨hv, hu⟩ := h.free a ((hpa a).place.free ▸ ha)
    exact ⟨(hpa a).version.trans hv, fun m => ((hpa a).used m).trans (hu m)⟩
  · show 0 < ((s.engine.setPage id p).pages a).version ∧
      ((s.engine.setPage id p).pages a).version < s.engine.version
    rw [(hpa a).version]
    exact h.versions a ((hpa a).place.free ▸ ha)
  · show used m ((s.engine.setPage id p).pages a) =
      s.tally m a ((s.engine.setPage id p).pages a).version
    rw [(hpa a).used m, (hpa a).version]
    exact (h.exact m).page a ((hpa a).closed ha)
  · show s.total m = _
    rw [(h.exact m).total]
    congr 1
    exact Finset.sum_congr rfl fun a _ => ((hpa a).used m).symm

/-! ## Objects come and go -/

theorem used_write (m : Measure) (p : Pages.Page) (h : Header n) :
    used m { p with bytesUsed := p.bytesUsed + h.ntotal, objCount := p.objCount + 1 } =
      used m p + h.size m := by
  cases m <;> rfl

theorem used_delete (m : Measure) (p : Pages.Page) (h : Header n) :
    used m { p with bytesUsed := p.bytesUsed - h.ntotal, objCount := p.objCount - 1 } =
      used m p - h.size m := by
  cases m <;> rfl

/-- The counters of a page and the header item of a key change together: what every open page
gains or loses, its headers gain or lose. -/
theorem Inv.change (h : Inv s) (id : Fin n) (s' : Store n) {key : Bytes}
    {hdr : Option (Header n)} (he : s'.engine = s.engine.setPage id p)
    (hh : s'.headers = s.headers) (hke : s'.keys = s.keys)
    (hp : (s.engine.pages id).SamePlace p) (hv : p.version = (s.engine.pages id).version)
    (hc : p.closed = (s.engine.pages id).closed)
    (hf : (s.engine.pages id).free = true → ∀ m, used m p = 0)
    (hhd : ∀ h' ∈ hdr, 0 < h'.version ∧ h'.version < s.engine.version)
    (hba : ∀ m a, (s.engine.pages a).closed = false →
      used m ((s.engine.setPage id p).pages a) +
          weight m a (s.engine.pages a).version (s.headers key) =
        used m (s.engine.pages a) + weight m a (s.engine.pages a).version hdr)
    (hto : ∀ m, s'.total m + used m (s.engine.pages id) = s.total m + used m p) :
    Inv (s'.setHeader key hdr) := by
  have hk : ∀ a, ((s.engine.setPage id p).pages a).free = (s.engine.pages a).free ∧
      ((s.engine.setPage id p).pages a).version = (s.engine.pages a).version ∧
      ((s.engine.setPage id p).pages a).closed = (s.engine.pages a).closed := by
    intro a
    obtain rfl | ha := eq_or_ne a id
    · rw [setPage_self]
      exact ⟨hp.free, hv, hc⟩
    · rw [setPage_of_ne _ ha]
      exact ⟨rfl, rfl, rfl⟩
  have hse : (s'.setHeader key hdr).engine = s.engine.setPage id p := he
  refine ⟨?_, ?_, fun a ha => ?_, fun a ha => ?_, fun key' h' hk' => ?_,
    fun m => ⟨fun a ha => ?_, ?_⟩⟩
  · rw [hse]
    exact Pages.setPage_inv h.pages hp
  · rw [hse]
    exact h.version_pos
  · rw [hse] at ha ⊢
    rw [(hk a).1] at ha
    obtain ⟨hz, hem⟩ := h.free a ha
    refine ⟨(hk a).2.1.trans hz, fun m => ?_⟩
    obtain rfl | hn := eq_or_ne a id
    · rw [setPage_self]
      exact hf ha m
    · rw [setPage_of_ne _ hn]
      exact hem m
  · rw [hse] at ha ⊢
    rw [(hk a).1] at ha
    rw [(hk a).2.1]
    exact h.versions a ha
  · rw [hse]
    obtain rfl | hn := eq_or_ne key' key
    · rw [setHeader_self] at hk'
      exact hhd h' hk'
    · rw [setHeader_of_ne _ hn, hh] at hk'
      exact h.headers key' h' hk'
  · rw [hse] at ha ⊢
    rw [(hk a).2.2] at ha
    have hex := (h.exact m).page a ha
    have hb := hba m a ha
    have ht := tally_setHeader s' m a (s.engine.pages a).version key hdr
    have hs : s'.tally m a (s.engine.pages a).version =
        s.tally m a (s.engine.pages a).version := by
      rw [Store.tally, Store.tally, hh, hke]
    rw [hs, hh] at ht
    rw [(hk a).2.1]
    omega
  · have hsu := sum_setPage (m := m) s.engine id p
    have ho := (h.exact m).total
    have hch := hto m
    rw [hse]
    show s'.total m = _
    omega

theorem storageWrite_inv (h : Inv s) {key : Bytes} (hk : s.headers key = none)
    (hu : (s.engine.pages id).free = false) (offset ntotal : ℕ) (cold : Bool) :
    Inv (storageWrite s key id offset ntotal cold) := by
  have hw := fun m => used_write m (s.engine.pages id)
    ⟨id, (s.engine.pages id).version, offset, ntotal, cold⟩
  refine h.change id (extstoreWrite s id ntotal) rfl rfl rfl ⟨rfl, rfl, rfl⟩ rfl rfl ?_ ?_ ?_ ?_
  · intro hf
    rw [hu] at hf
    cases hf
  · intro h' hh'
    cases hh'
    exact h.versions id hu
  · intro m a _
    rw [hk]
    obtain rfl | ha := eq_or_ne a id
    · rw [setPage_self]
      show _ + 0 = _ + if _ then _ else 0
      rw [if_pos ⟨rfl, rfl⟩]
      exact hw m
    · rw [setPage_of_ne _ ha]
      show _ + 0 = _ + if _ then _ else 0
      rw [if_neg fun hat => ha hat.1.symm]
  intro m
  have hp := hw m
  cases m with
  | objects =>
    show s.objectsUsed + 1 + _ = s.objectsUsed + _
    rw [hp]
    show _ = _ + ((_ + 1 : ℕ) : ℤ)
    omega
  | bytes =>
    show s.bytesUsed + ntotal + _ = s.bytesUsed + _
    rw [hp]
    show _ = _ + ((_ + ntotal : ℕ) : ℤ)
    omega

theorem storageDelete_inv (h : Inv s) (key : Bytes) : Inv (storageDelete s key) := by
  unfold storageDelete
  rcases hk : s.headers key with _ | hdr
  · exact h
  simp only
  by_cases ho : (s.engine.pages hdr.page).closed = false ∧
      (s.engine.pages hdr.page).version = hdr.version
  · -- the page is open: the object is one of those that it counts
    have hd := fun m => used_delete m (s.engine.pages hdr.page) hdr
    have hat : ∀ m, hdr.size m ≤ used m (s.engine.pages hdr.page) := by
      intro m
      have hp := (h.exact m).page hdr.page ho.1
      have ht := tally_setHeader s m hdr.page hdr.version key none
      rw [hk, weight_some_self] at ht
      rw [ho.2] at hp
      have hn : weight m hdr.page hdr.version (none : Option (Header n)) = 0 := rfl
      omega
    rw [extstoreDelete, if_pos ho]
    refine h.change hdr.page _ rfl rfl rfl ⟨rfl, rfl, rfl⟩ rfl rfl ?_ nofun ?_ ?_
    · intro hf m
      rw [hd m, (h.free hdr.page hf).2 m, Nat.zero_sub]
    · intro m a _
      rw [hk]
      obtain rfl | ha := eq_or_ne a hdr.page
      · rw [setPage_self, hd m, ho.2, weight_some_self]
        exact Nat.sub_add_cancel (hat m)
      · rw [setPage_of_ne _ ha, weight_of_ne fun hat => ha hat.1.symm]
        rfl
    intro m
    have hp := hd m
    have hl := hat m
    cases m with
    | objects =>
      show s.objectsUsed - 1 + _ = s.objectsUsed + _
      rw [hp]
      show _ = _ + ((_ - 1 : ℕ) : ℤ)
      have hl : 1 ≤ used .objects (s.engine.pages hdr.page) := hl
      omega
    | bytes =>
      show s.bytesUsed - hdr.ntotal + _ = s.bytesUsed + _
      rw [hp]
      show _ = _ + ((_ - hdr.ntotal : ℕ) : ℤ)
      have hl : hdr.ntotal ≤ used .bytes (s.engine.pages hdr.page) := hl
      omega
  · -- the page was closed or taken into use again: no open page counts the object
    rw [extstoreDelete, if_neg ho]
    have hs : s.engine.setPage hdr.page (s.engine.pages hdr.page) = s.engine := by
      rw [Pages.Engine.setPage, Function.update_eq_self]
    refine h.change hdr.page s hs.symm rfl rfl ⟨rfl, rfl, rfl⟩ rfl rfl
      (fun hf => (h.free hdr.page hf).2) nofun ?_ fun _ => rfl
    intro m a ha
    rw [hs, hk, weight_of_ne]
    · rfl
    · rintro ⟨rfl, hv⟩
      exact ho ⟨ha, hv.symm⟩

theorem setHeader_setHeader (s : Store n) (key : Bytes) (h h' : Option (Header n)) :
    (s.setHeader key h).setHeader key h' = s.setHeader key h' := by
  simp only [Store.setHeader, Function.update_idem, Finset.insert_idem]

theorem extstoreDelete_free (s : Store n) (id a : Fin n) (version count bytes : ℕ) :
    ((extstoreDelete s id version count bytes).engine.pages a).free = (s.engine.pages a).free := by
  unfold extstoreDelete
  simp only
  split_ifs
  · obtain rfl | ha := eq_or_ne a id
    · rw [setPage_self]
    · rw [setPage_of_ne _ ha]
  · rfl

theorem compactRecord_eq {v : Visit n} {hdr : Header n} (hk : s.headers v.key = some hdr)
    (hv : v.Valid hdr) (hr : Rescued s v) :
    ∃ id offset, v.granted = some (id, offset) ∧ compactRecord s v =
      storageWrite (storageDelete s v.key) v.key id offset hdr.ntotal hdr.cold := by
  obtain ⟨hn, hs, hgr, hre⟩ := hr hdr hk hv
  obtain ⟨⟨id, offset⟩, hg⟩ := Option.isSome_iff_exists.mp hgr
  refine ⟨id, offset, hg, ?_⟩
  have hd : storageDelete s v.key =
      (extstoreDelete s v.page v.version 1 v.ntotal).setHeader v.key none := by
    simp only [storageDelete, hk, hv.2.1, hv.2.2, hn]
  simp only [compactRecord, hk, if_pos hv, if_neg hs, hg, if_pos hre]
  rw [hd, storageWrite, ← hn]
  exact (setHeader_setHeader (extstoreWrite (extstoreDelete s v.page v.version 1 v.ntotal) id
    v.ntotal) v.key none _).symm

theorem compactRecord_inv (h : Inv s) {v : Visit n} (hr : Rescued s v)
    (hgr : ∀ x ∈ v.granted, s.Writable x.1) : Inv (compactRecord s v) := by
  rcases hk : s.headers v.key with _ | hdr
  · rw [compactRecord, hk]
    exact h
  by_cases hv : v.Valid hdr
  · obtain ⟨id, offset, hg, he⟩ := compactRecord_eq hk hv hr
    have hi := storageDelete_inv h v.key
    rw [he]
    refine storageWrite_inv hi ?_ ?_ offset hdr.ntotal hdr.cold
    · rw [storageDelete, hk]
      exact setHeader_self ..
    rw [storageDelete, hk]
    show ((extstoreDelete s hdr.page hdr.version 1 hdr.ntotal).engine.pages id).free = false
    rw [extstoreDelete_free]
    exact (hgr (id, offset) hg).2
  · simp only [compactRecord, hk, if_neg hv]
    exact h

/-! ## Pages come and go -/

section

variable (h : Inv s)
include h

theorem Inv.renew (id : Fin n) (s' : Store n)
    (hp : Pages.Inv s'.engine) (heq : s'.engine.pages = (s.engine.setPage id p).pages)
    (hh : s'.headers = s.headers) (hk : s'.keys = s.keys)
    (hv : s.engine.version ≤ s'.engine.version) (he : ∀ m, used m p = 0)
    (hf : p.free = true → p.version = 0)
    (hu : p.free = false → 0 < p.version ∧ p.version < s'.engine.version)
    (hnew : ∀ key hdr, s.headers key = some hdr → hdr.version ≠ p.version)
    (hto : ∀ m, s'.total m = s.total m - used m (s.engine.pages id)) : Inv s' := by
  refine ⟨hp, lt_of_lt_of_le h.version_pos hv, fun a ha => ?_, fun a ha => ?_,
    fun key hdr hke => ?_, fun m => ⟨fun a ha => ?_, ?_⟩⟩
  · rw [heq] at ha ⊢
    obtain rfl | hn := eq_or_ne a id
    · rw [setPage_self] at ha ⊢
      exact ⟨hf ha, he⟩
    · rw [setPage_of_ne _ hn] at ha ⊢
      exact h.free a ha
  · rw [heq] at ha ⊢
    obtain rfl | hn := eq_or_ne a id
    · rw [setPage_self] at ha ⊢
      exact hu ha
    · rw [setPage_of_ne _ hn] at ha ⊢
      obtain ⟨hpo, hl⟩ := h.versions a ha
      exact ⟨hpo, lt_of_lt_of_le hl hv⟩
  · rw [hh] at hke
    obtain ⟨hpo, hl⟩ := h.headers key hdr hke
    exact ⟨hpo, lt_of_lt_of_le hl hv⟩
  · have ht : ∀ v, s'.tally m a v = s.tally m a v := by
      intro v
      rw [Store.tally, Store.tally, hh, hk]
    rw [heq] at ha ⊢
    rw [ht]
    obtain rfl | hn := eq_or_ne a id
    · rw [setPage_self, he m]
      exact (tally_eq_zero fun key hdr hke hat => hnew key hdr hke hat.2).symm
    · rw [setPage_of_ne _ hn] at ha ⊢
      exact (h.exact m).page a ha
  · have hs := sum_setPage (m := m) s.engine id p
    have ho := (h.exact m).total
    rw [he m] at hs
    rw [hto m, heq]
    omega

theorem freePage_inv (hu : (s.engine.pages id).free = false) : Inv (freePage s id) := by
  refine h.renew id (freePage s id) (Pages.freePage_inv h.pages hu) rfl rfl rfl le_rfl
    (fun m => by cases m <;> rfl) (fun _ => rfl) nofun ?_ (fun m => by cases m <;> rfl)
  intro key hdr hk
  exact (h.headers key hdr hk).1.ne'

theorem maintPage_inv (id : Fin n) : Inv (maintPage s id) := by
  simp only [maintPage]
  split_ifs with hs hf
  · exact h
  · rw [Bool.or_eq_true, not_or] at hs
    exact freePage_inv h (by simpa using hs.2)
  · exact h

theorem evictPage_inv (id : Fin n) : Inv (evictPage s id) := by
  have hc : Inv { s with
      engine := s.engine.setPage id { s.engine.pages id with closed := true } } :=
    h.setPage ⟨⟨rfl, rfl, rfl⟩, rfl, fun m => by cases m <;> rfl, nofun⟩
  simp only [evictPage]
  split_ifs with hs hf
  · exact h
  · refine freePage_inv hc ?_
    simp only [Bool.or_eq_true, not_or] at hs
    simpa using hs.1.2
  · exact hc

theorem allocatePage_inv (hl : s.engine.version + 1 < 2 ^ 32) (bucket freeBucket : ℕ) :
    Inv { s with engine := (Pages.allocatePage s.engine bucket freeBucket).1 } := by
  have hp := Pages.allocatePage_inv h.pages bucket freeBucket
  rcases ht : Pages.takeFree s.engine freeBucket with ⟨lists, _ | id⟩
  · have heq : (Pages.allocatePage s.engine bucket freeBucket).1 = s.engine := by
      rw [Pages.allocatePage, ht, Pages.takeFree_none ht]
    rw [heq]
    exact h
  rw [Pages.allocatePage_some h.pages bucket ht] at hp ⊢
  obtain ⟨i, hi, hh, -⟩ := Pages.takeFree_some ht
  obtain ⟨-, hf, -⟩ := Pages.free_of_place hi (Pages.place_of_head h.pages hh)
  obtain ⟨-, he⟩ := h.free id hf
  have hn : (s.engine.version + 1) % 2 ^ 32 = s.engine.version + 1 := Nat.mod_eq_of_lt hl
  refine h.renew id _ hp rfl rfl rfl ?_ (fun m => ?_) (by rintro ⟨⟩) (fun _ => ?_) ?_
    fun m => ?_
  · show s.engine.version ≤ (s.engine.version + 1) % 2 ^ 32
    omega
  · rw [← he m]
    cases m <;> rfl
  · show 0 < s.engine.version ∧ s.engine.version < (s.engine.version + 1) % 2 ^ 32
    have hpo := h.version_pos
    omega
  · intro key hdr hk
    exact (h.headers key hdr hk).2.ne
  · rw [he m]
    show s.total m = s.total m - 0
    omega

end

/-! ## Runs keep the accounts -/

theorem step_inv {s' : Store n} {a : Action n} {r : Unit} (h : Inv s) (hok : Accountable s a)
    (hs : step s a = some (s', r)) : Inv s' := by
  cases a with
  | allocate bucket freeBucket =>
    obtain ⟨-, rfl, -⟩ := System.guarded_eq_some hs
    exact allocatePage_inv h hok bucket freeBucket
  | maint id =>
    cases hs
    exact maintPage_inv h id
  | evict id =>
    cases hs
    exact evictPage_inv h id
  | use id u =>
    obtain ⟨⟨ho, hb, hcl, -, -⟩, rfl, -⟩ := System.guarded_eq_some hs
    refine h.setPage ⟨⟨rfl, rfl, rfl⟩, rfl, fun m => ?_, fun hc => ?_⟩
    · cases m with
      | objects => exact ho
      | bytes => exact hb
    · by_contra hn
      rw [Bool.not_eq_false] at hn
      exact absurd ((hcl hn).symm.trans hc) nofun
  | write key id offset ntotal cold =>
    obtain ⟨⟨hk, -, hu⟩, rfl, -⟩ := System.guarded_eq_some hs
    exact storageWrite_inv h hk hu offset ntotal cold
  | delete key =>
    cases hs
    exact storageDelete_inv h key
  | compact v =>
    obtain ⟨hg, rfl, -⟩ := System.guarded_eq_some hs
    exact compactRecord_inv h hok hg

def Blank (p : Pages.Page) : Prop := p.free = true ∧ p.version = 0 ∧ ∀ m, used m p = 0

variable {cf : Pages.Conf}

theorem initPages_blank {k : ℕ} {d : Pages.Devices} {ps : List Pages.Page}
    (h : Pages.initPages cf k d = some ps) : ∀ p ∈ ps, Blank p := by
  induction k generalizing d ps with
  | zero =>
    cases h
    exact fun p hp => absurd hp List.not_mem_nil
  | succ k ih =>
    obtain ⟨⟨p, d'⟩, hn, hr⟩ := Option.bind_eq_some_iff.mp h
    obtain ⟨ps', hp', rfl⟩ := Option.map_eq_some_iff.mp hr
    obtain ⟨f, -, hpa⟩ := Option.map_eq_some_iff.mp hn
    obtain ⟨rfl, -⟩ := Prod.mk.inj hpa
    intro q hq
    obtain rfl | hq := List.mem_cons.mp hq
    · exact ⟨rfl, rfl, fun m => by cases m <;> rfl⟩
    · exact ih hp' q hq

theorem initFreeLists_frame (i : ℕ) (e : Pages.Engine n) :
    (Pages.initFreeLists e i).pages = e.pages ∧
      (Pages.initFreeLists e i).version = e.version := by
  induction i generalizing e with
  | zero => exact ⟨rfl, rfl⟩
  | succ i ih =>
    rw [Pages.initFreeLists]
    obtain ⟨hp, hv⟩ := ih (if h : i + 1 < n then Pages.linkFree e ⟨i + 1, h⟩ else e)
    rw [hp, hv]
    split_ifs <;> exact ⟨rfl, rfl⟩

theorem extstoreInit_blank {e : Pages.Engine cf.pageCount}
    (h : Pages.extstoreInit cf = some e) : e.version = 1 ∧ ∀ id, Blank (e.pages id) := by
  unfold Pages.extstoreInit at h
  split_ifs at h
  obtain ⟨ps, hps, rfl⟩ := Option.map_eq_some_iff.mp h
  obtain ⟨hl, -⟩ := Pages.initPages_some hps
  obtain ⟨hp, hv⟩ := initFreeLists_frame (cf.pageCount - 1)
    { pages := fun id => ps.getD id {}
      lists := ⟨fun _ => none, fun _ => none⟩
      pageFree := 0
      version := 1
      pageSize := cf.pageSize
      pageBuckets := cf.pageBuckets : Pages.Engine cf.pageCount }
  refine ⟨hv, fun id => ?_⟩
  have hlt : id.val < ps.length := by
    rw [hl]
    exact id.isLt
  rw [hp]
  show Blank (ps.getD id {})
  rw [List.getD_eq_getElem?_getD, List.getElem?_eq_getElem hlt, Option.getD_some]
  exact initPages_blank hps _ (List.getElem_mem _)

theorem emptyStore_inv {e : Pages.Engine cf.pageCount}
    (h : Pages.extstoreInit cf = some e) : Inv (emptyStore e) := by
  obtain ⟨hv, hp⟩ := extstoreInit_blank h
  refine ⟨Pages.extstoreInit_inv h, ?_, fun a _ => ⟨(hp a).2.1, (hp a).2.2⟩,
    fun a ha => ?_, nofun, fun m => ⟨fun a _ => (hp a).2.2 m, ?_⟩⟩
  · show 0 < e.version
    omega
  · exact absurd ((hp a).1.symm.trans ha) nofun
  have hz : ∑ id, used m (e.pages id) = 0 :=
    Finset.sum_eq_zero fun a _ => (hp a).2.2 m
  show (emptyStore e).total m = ((∑ id, used m (e.pages id) : ℕ) : ℤ)
  rw [hz]
  cases m <;> rfl

/-- In every run whose compactions rescue the record of every valid header they meet, the
counters of every open page are the number and the size of the header items that point at
it, and the totals are the sums over all pages and not below zero. -/
theorem accounting_exact {cf : Pages.Conf} {s : Store cf.pageCount}
    (hr : (storage cf).Reachable Accountable s) :
    (∀ m, Exact s m) ∧ ∀ m, 0 ≤ s.total m := by
  have hin : Inv s := hr.induct (P := fun s => Inv s)
    (fun s hi => by
      obtain ⟨e, he, rfl⟩ := hi
      exact emptyStore_inv he)
    fun h ho hs => step_inv h ho hs
  refine ⟨hin.exact, fun m => ?_⟩
  rw [(hin.exact m).total]
  exact Int.natCast_nonneg _

def threePages : Pages.Conf where
  files := [⟨3, 0⟩]
  pageSize := 2 ^ 26
  wbufSize := 2 ^ 22
  pageBuckets := 4
  wbufCount := 4
  freeBucket_lt := by decide

def firstPage : Fin threePages.pageCount := ⟨1, by decide⟩

def secondPage : Fin threePages.pageCount := ⟨2, by decide⟩

/-- An item is written out to page 1, and the page is full. -/
def writeOut : List (Action threePages.pageCount) :=
  [.allocate 0 0,
    .write (ascii "a") firstPage 0 100 true,
    .use firstPage ⟨1, 100, 0, 2 ^ 26, 2 ^ 26, false, false⟩]

def visitRecord (dropUnread : Bool) : Visit threePages.pageCount where
  dropUnread := dropUnread
  page := firstPage
  version := 1
  key := ascii "a"
  ntotal := 100
  refcount := 2
  live := true
  granted := some (secondPage, 0)

theorem exists_reachable (ok : Store threePages.pageCount → Action threePages.pageCount → Prop)
    [∀ s a, Decidable (ok s a)] (trace : List (Action threePages.pageCount))
    (p : Store threePages.pageCount → Prop) [DecidablePred p]
    (h : (Pages.extstoreInit threePages).any (fun e =>
      ((storage threePages).exec ok (emptyStore e) trace).any fun s => decide (p s)) = true) :
    ∃ s, (storage threePages).Reachable ok s ∧ p s := by
  obtain ⟨e, he, hex⟩ := (Option.any_eq_true _ _).mp h
  obtain ⟨s, hs, hp⟩ := System.exists_exec (storage threePages) ok (emptyStore e) trace p hex
  exact ⟨s, System.Reachable.of_exec trace (.of_init ⟨e, he, rfl⟩) hs, hp⟩

theorem accounting_exact_rescue :
    ∃ s : Store threePages.pageCount, (storage threePages).Reachable Accountable s ∧
      (s.headers (ascii "a")).isSome = true ∧ (s.engine.pages secondPage).objCount = 1 ∧
      (s.engine.pages firstPage).objCount = 0 ∧ (∀ m, Exact s m) ∧ ∀ m, 0 ≤ s.total m := by
  obtain ⟨s, hr, hh, hn, ho⟩ := exists_reachable Accountable
    (writeOut ++ [.allocate 1 1, .compact (visitRecord false)])
    (fun s => (s.headers (ascii "a")).isSome = true ∧ (s.engine.pages secondPage).objCount = 1 ∧
      (s.engine.pages firstPage).objCount = 0) (by decide +kernel)
  exact ⟨s, hr, hh, hn, ho, accounting_exact hr⟩

/-- Compaction skips a header item that is in `COLD_LRU`: it stays linked and points at
the open page, which does not count it any more; when its item is deleted, the totals fall below
zero. -/
theorem skipped_header_uncounted :
    (∃ s : Store threePages.pageCount, (storage threePages).Reachable anyAction s ∧
      (s.engine.pages firstPage).closed = false ∧ (s.engine.pages firstPage).objCount = 0 ∧
      s.tally .objects firstPage (s.engine.pages firstPage).version = 1) ∧
    ∃ s : Store threePages.pageCount, (storage threePages).Reachable anyAction s ∧
      s.objectsUsed = -1 ∧ s.bytesUsed = -100 := by
  constructor
  · exact exists_reachable anyAction
      (writeOut ++ [.allocate 1 1, .compact (visitRecord true)])
      (fun s => (s.engine.pages firstPage).closed = false ∧
        (s.engine.pages firstPage).objCount = 0 ∧
        s.tally .objects firstPage (s.engine.pages firstPage).version = 1) (by decide +kernel)
  · exact exists_reachable anyAction
      (writeOut ++ [.allocate 1 1, .compact (visitRecord true), .delete (ascii "a")])
      (fun s => s.objectsUsed = -1 ∧ s.bytesUsed = -100) (by decide +kernel)

end Memcached.Storage.Accounts
