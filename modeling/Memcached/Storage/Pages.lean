import Memcached.Lib.Chain
import Memcached.Lib.Run
import Mathlib.Data.Set.Card

/-!
# The page lists of the storage engine (`extstore.c`)

A page is in the general free list, in the free list of its special bucket, or in the list
of the bucket it was allocated to; all lists run through one `next` field. `extstore_init`
links the pages into their free lists from the last one down, but its loop ends before
page 0, which stays outside all lists with its free flag set.

Results:
* `page_partition_iff`: every page but page 0 is in one list, and `page_free` counts them
-/

namespace Memcached.Storage.Pages

open Lib
open Function (update update_self update_of_ne update_idem)

/-! ## State -/

/-- `struct extstore_conf_file`, the fields that `extstore_init` reads. -/
structure ConfFile where
  pageCount : ℕ
  freeBucket : ℕ
deriving DecidableEq

/-- `struct extstore_conf` with the list of files. The free buckets of the files are buckets
of the engine (`storage.c`, lines 1072-1092). -/
structure Conf where
  files : List ConfFile
  pageSize : ℕ
  wbufSize : ℕ
  pageBuckets : ℕ
  wbufCount : ℕ
  freeBucket_lt : ∀ f ∈ files, f.freeBucket < pageBuckets

/-- `store_page`, without its list pointer. -/
structure Page where
  fd : ℕ := 0
  offset : ℕ := 0
  freeBucket : ℕ := 0
  version : ℕ := 0
  bucket : ℕ := 0
  objCount : ℕ := 0
  bytesUsed : ℕ := 0
  refcount : ℕ := 0
  allocated : ℕ := 0
  written : ℕ := 0
  active : Bool := false
  closed : Bool := false
  free : Bool := false
deriving DecidableEq

/-- The lists of pages: `page_freelist`, `free_page_buckets` and `page_buckets`. -/
inductive PageList where
  | free
  | freeBucket (fb : ℕ)
  | bucket (b : ℕ)
deriving DecidableEq

/-- `store_engine`, what the pages and their lists need of it. -/
structure Engine (n : ℕ) where
  pages : Fin n → Page
  lists : ChainMem PageList (Fin n)
  pageFree : ℕ
  version : ℕ
  pageSize : ℕ
  pageBuckets : ℕ

def Page.freeList (p : Page) : PageList :=
  if p.freeBucket = 0 then .free else .freeBucket p.freeBucket

variable {n : ℕ}

def Engine.setPage (e : Engine n) (id : Fin n) (p : Page) : Engine n :=
  { e with pages := update e.pages id p }

/-! ## Initialisation -/

def Conf.pageCount (cf : Conf) : ℕ := (cf.files.map ConfFile.pageCount).sum

/-- The checks of `extstore_init` (lines 227-247 and 284-288). -/
def Conf.accepted (cf : Conf) : Bool :=
  cf.pageSize % cf.wbufSize == 0 && cf.pageBuckets ≤ cf.wbufCount && 1 ≤ cf.pageBuckets &&
    cf.pageSize % (1024 * 1024 * 2) == 0 && cf.wbufSize % (1024 * 1024 * 2) == 0 &&
    cf.pageCount < 65535

/-- The loop over the devices: the last one used, and the pages left and the offset of
each. -/
structure Devices where
  cur : Option ℕ
  left : ℕ → ℕ
  offset : ℕ → ℕ

/-- The files in the order in which the search for one with pages left visits them. -/
def searchOrder (count : ℕ) : Option ℕ → List ℕ
  | none => List.range count
  | some f => (List.range count).drop (f + 1) ++ List.range count

/-- One page of the loop that interleaves the devices (lines 300-323); `none` if the search
does not end. -/
def nextPage (cf : Conf) (d : Devices) : Option (Page × Devices) :=
  ((searchOrder cf.files.length d.cur).find? fun f => 0 < d.left f).map fun f =>
    ({ fd := f
       offset := d.offset f
       freeBucket := (cf.files[f]?.map ConfFile.freeBucket).getD 0
       free := true },
     { cur := some f
       left := update d.left f (d.left f - 1)
       offset := update d.offset f (d.offset f + cf.pageSize) })

/-- The loop that interleaves the devices. -/
def initPages (cf : Conf) : ℕ → Devices → Option (List Page)
  | 0, _ => some []
  | k + 1, d => (nextPage cf d).bind fun r => (initPages cf k r.2).map fun ps => r.1 :: ps

def Conf.devices (cf : Conf) : Devices where
  cur := none
  left f := (cf.files[f]?.map ConfFile.pageCount).getD 0
  offset _ := 0

/-- One turn of the loop that fills the free lists. -/
def linkFree (e : Engine n) (id : Fin n) : Engine n :=
  { e with pageFree := e.pageFree + 1, lists := e.lists.push (e.pages id).freeList id }

/-- The loop that fills the free lists (lines 329-339): `i` counts down and stops at 0. -/
def initFreeLists (e : Engine n) : ℕ → Engine n
  | 0 => e
  | i + 1 => initFreeLists (if h : i + 1 < n then linkFree e ⟨i + 1, h⟩ else e) i

/-- `extstore_init` (lines 221-394). -/
def extstoreInit (cf : Conf) : Option (Engine cf.pageCount) :=
  if cf.accepted then
    (initPages cf cf.pageCount cf.devices).map fun ps =>
      initFreeLists
        { pages := fun id => ps.getD id {}
          lists := ⟨fun _ => none, fun _ => none⟩
          pageFree := 0
          version := 1
          pageSize := cf.pageSize
          pageBuckets := cf.pageBuckets }
        (cf.pageCount - 1)
  else none

/-! ## Allocation and frees -/

/-- The page that `_allocate_page` takes from the lists (lines 406-418). -/
def takeFree (e : Engine n) (freeBucket : ℕ) : ChainMem PageList (Fin n) × Option (Fin n) :=
  match if freeBucket ≠ 0 then e.lists.head (.freeBucket freeBucket) else none with
  | some tmp => (e.lists.setHead (.freeBucket freeBucket) (e.lists.next tmp), some tmp)
  | none =>
    match e.lists.head .free with
    | some tmp => (e.lists.setHead .free (e.lists.next tmp), some tmp)
    | none => (e.lists, none)

/-- `_allocate_page` (lines 402-436): the engine and the page. -/
def allocatePage (e : Engine n) (bucket freeBucket : ℕ) : Engine n × Option (Fin n) :=
  match takeFree e freeBucket with
  | (lists, none) => ({ e with lists := lists }, none)
  | (lists, some tmp) =>
    if 0 < e.pageFree then
      ({ e.setPage tmp { e.pages tmp with
            active := true, free := false, closed := false, version := e.version, bucket } with
          lists := lists.push (.bucket bucket) tmp
          version := (e.version + 1) % 2 ^ 32
          pageFree := e.pageFree - 1 }, some tmp)
    else ({ e with lists := lists }, some tmp)

/-- The assertion at the start of `_allocate_page`: the page in use of the bucket is full. -/
def bucketFull (e : Engine n) (bucket : ℕ) : Bool :=
  match e.lists.head (.bucket bucket) with
  | none => true
  | some p => (e.pages p).allocated == e.pageSize

/-- `_free_page` (lines 852-898). -/
def freePage (e : Engine n) (id : Fin n) : Engine n :=
  let p := e.pages id
  let cell :=
    e.lists.cellBefore (fun a => a == id) (Fintype.card (Fin n)) (.head (.bucket p.bucket))
  { e.setPage id { p with
      version := 0, objCount := 0, bytesUsed := 0, allocated := 0, written := 0, bucket := 0
      active := false, closed := false, free := true } with
    lists := (e.lists.unlink cell).push p.freeList id
    pageFree := e.pageFree + 1 }

/-- The maintenance thread looks at a page (lines 933-960). -/
def maintPage (e : Engine n) (id : Fin n) : Engine n :=
  let p := e.pages id
  if p.active || p.free then e
  else if (p.objCount == 0 || p.closed) && p.refcount == 0 then freePage e id
  else e

/-- The maintenance thread evicts a page that it saw neither active nor free (lines
962-979). -/
def evictPage (e : Engine n) (id : Fin n) : Engine n :=
  let p := e.pages id
  if p.active || p.free || p.closed then e
  else
    let e := e.setPage id { p with closed := true }
    if p.refcount == 0 then freePage e id else e

/-- What writes, flushes, reads, deletes and closing change of a page in use. -/
structure Usage where
  objCount : ℕ
  bytesUsed : ℕ
  refcount : ℕ
  allocated : ℕ
  written : ℕ
  active : Bool
  closed : Bool
deriving DecidableEq

def Page.use (p : Page) (u : Usage) : Page :=
  { p with
    objCount := u.objCount, bytesUsed := u.bytesUsed, refcount := u.refcount
    allocated := u.allocated, written := u.written, active := u.active, closed := u.closed }

/-! ## Runs -/

inductive Action (n : ℕ) where
  | allocate (bucket freeBucket : ℕ)
  | maint (id : Fin n)
  | evict (id : Fin n)
  | use (id : Fin n) (u : Usage)

/-- One action; the result is the page that was allocated. -/
def step (e : Engine n) : Action n → Option (Engine n × Option (Fin n))
  | .allocate bucket freeBucket =>
    if bucket < e.pageBuckets ∧ freeBucket < e.pageBuckets ∧ bucketFull e bucket then
      some (allocatePage e bucket freeBucket)
    else none
  | .maint id => some (maintPage e id, none)
  | .evict id => some (evictPage e id, none)
  | .use id u =>
    if (e.pages id).free = false ∧ (u.active = true → (e.pages id).active = true) then
      some (e.setPage id ((e.pages id).use u), none)
    else none

/-- The engine that `extstore_init` makes, and what happens to its pages. -/
def engine (cf : Conf) : System (Engine cf.pageCount) (Action cf.pageCount)
    (Option (Fin cf.pageCount)) where
  init e := extstoreInit cf = some e
  step := step

def anyAction (_ : Engine n) (_ : Action n) : Prop := True

/-! ## Where a page is -/

/-- A page is in the list `i` at position `k`. -/
def Engine.At (e : Engine n) (id : Fin n) (i : PageList) (k : ℕ) : Prop :=
  nthFrom e.lists.next (e.lists.head i) k = some id

def PageList.IsFree : PageList → Prop
  | .bucket _ => False
  | _ => True

def Engine.InFreeList (e : Engine n) (id : Fin n) : Prop :=
  ∃ i k, PageList.IsFree i ∧ e.At id i k

/-- There is a run at whose end the page is allocated. -/
def CanAllocate (cf : Conf) (e : Engine cf.pageCount) (id : Fin cf.pageCount) : Prop :=
  ∃ l e' bucket freeBucket e'', (engine cf).Steps anyAction e l e' ∧
    step e' (.allocate bucket freeBucket) = some (e'', some id)

/-- The page is in exactly one place of one list, in a free list iff its flag is set, and can
be allocated. -/
structure Partitioned (cf : Conf) (e : Engine cf.pageCount) (id : Fin cf.pageCount) : Prop where
  one : ∃! x : PageList × ℕ, e.At id x.1 x.2
  free : e.InFreeList id ↔ (e.pages id).free = true
  allocatable : CanAllocate cf e id

/-! ## The invariant -/

def Engine.place (e : Engine n) (id : Fin n) : Option PageList :=
  if id.val = 0 then none
  else if (e.pages id).free then some (e.pages id).freeList
  else some (.bucket (e.pages id).bucket)

def Engine.freePages (e : Engine n) : Finset (Fin n) :=
  Finset.univ.filter fun id => id.val ≠ 0 ∧ (e.pages id).free = true

structure Inv (e : Engine n) : Prop where
  placed : e.lists.Placed (fun _ => True) e.place
  zero : ∀ id : Fin n, id.val = 0 → (e.pages id).free = true
  count : e.pageFree = e.freePages.card
  buckets : ∀ id, (e.pages id).freeBucket < e.pageBuckets

variable {e : Engine n} {id : Fin n}

theorem freeList_isFree (p : Page) : p.freeList.IsFree := by
  unfold Page.freeList
  split_ifs <;> trivial

theorem free_of_place {i : PageList} (hi : i.IsFree) (h : e.place id = some i) :
    id.val ≠ 0 ∧ (e.pages id).free = true ∧ (e.pages id).freeList = i := by
  unfold Engine.place at h
  split_ifs at h with hz hf
  · exact ⟨hz, hf, Option.some.inj h⟩
  · cases h
    exact hi.elim

theorem place_of_free (hz : id.val ≠ 0) (hf : (e.pages id).free = true) :
    e.place id = some (e.pages id).freeList := by
  rw [Engine.place, if_neg hz, if_pos hf]

theorem place_of_used (hz : id.val ≠ 0) (hf : (e.pages id).free = false) :
    e.place id = some (.bucket (e.pages id).bucket) := by
  rw [Engine.place, if_neg hz, hf]
  rfl

variable {lists : ChainMem PageList (Fin n)}

theorem place_setPage {p : Page} {v f : ℕ} (hz : id.val ≠ 0) :
    ({ e.setPage id p with lists := lists, version := v, pageFree := f } : Engine n).place =
      update e.place id
        (some (if p.free then p.freeList else .bucket p.bucket)) := by
  funext a
  obtain rfl | ha := eq_or_ne a id
  · simp only [Engine.place, Engine.setPage, update_self, if_neg hz]
    split_ifs <;> rfl
  · simp only [Engine.place, Engine.setPage, update_of_ne ha]

theorem place_of_head (hi : Inv e) {i : PageList} (h : e.lists.head i = some id) :
    e.place id = some i :=
  hi.placed.place_of_nthFrom (n := 0) trivial h

variable {freeBucket : ℕ}

theorem takeFree_some (h : takeFree e freeBucket = (lists, some id)) :
    ∃ i : PageList, i.IsFree ∧ e.lists.head i = some id ∧
      lists = e.lists.setHead i (e.lists.next id) := by
  unfold takeFree at h
  split at h
  · rename_i tmp hh
    simp only [Prod.mk.injEq, Option.some.injEq] at h
    obtain ⟨rfl, rfl⟩ := h
    split_ifs at hh with hf
    exact ⟨.freeBucket freeBucket, trivial, hh, rfl⟩
  · split at h
    · rename_i tmp hh
      simp only [Prod.mk.injEq, Option.some.injEq] at h
      obtain ⟨rfl, rfl⟩ := h
      exact ⟨.free, trivial, hh, rfl⟩
    · simp at h

theorem takeFree_none (h : takeFree e freeBucket = (lists, none)) : lists = e.lists := by
  unfold takeFree at h
  split at h
  · simp at h
  split at h
  · simp at h
  · exact (Prod.mk.inj h).1.symm

theorem mem_freePages : id ∈ e.freePages ↔ id.val ≠ 0 ∧ (e.pages id).free = true := by
  simp [Engine.freePages]

theorem pageFree_pos (hi : Inv e) (hz : id.val ≠ 0) (hf : (e.pages id).free = true) :
    0 < e.pageFree := by
  rw [hi.count]
  exact Finset.card_pos.mpr ⟨id, mem_freePages.mpr ⟨hz, hf⟩⟩

theorem allocatePage_some (hin : Inv e) (bucket : ℕ)
    (h : takeFree e freeBucket = (lists, some id)) :
    allocatePage e bucket freeBucket =
      ({ e.setPage id { e.pages id with
            active := true, free := false, closed := false, version := e.version, bucket } with
          lists := lists.push (.bucket bucket) id
          version := (e.version + 1) % 2 ^ 32
          pageFree := e.pageFree - 1 }, some id) := by
  obtain ⟨i, hi, hh, -⟩ := takeFree_some h
  obtain ⟨hz, hf, -⟩ := free_of_place hi (place_of_head hin hh)
  rw [allocatePage, h]
  exact if_pos (pageFree_pos hin hz hf)

theorem allocatePage_inv (hin : Inv e) (bucket freeBucket : ℕ) :
    Inv (allocatePage e bucket freeBucket).1 := by
  rcases ht : takeFree e freeBucket with ⟨lists, _ | tmp⟩
  · have hl := takeFree_none ht
    rw [allocatePage, ht, hl]
    exact hin
  rw [allocatePage_some hin bucket ht]
  obtain ⟨i, hi, hh, rfl⟩ := takeFree_some ht
  have hp := place_of_head hin hh
  obtain ⟨hz, hf, -⟩ := free_of_place hi hp
  refine ⟨?_, fun id hid => ?_, ?_, fun id => ?_⟩
  · have hpo := hin.placed.popHead hh hp
    have hpu := hpo.push (i := .bucket bucket) (a := tmp) (update_self ..)
    rw [place_setPage hz]
    rw [update_idem] at hpu
    exact hpu
  · have hn : id ≠ tmp := by
      rintro rfl
      exact hz hid
    show (update e.pages tmp _ id).free = true
    rw [update_of_ne hn]
    exact hin.zero id hid
  · have he : ({ e.setPage tmp { e.pages tmp with
        active := true, free := false, closed := false, version := e.version, bucket } with
        lists := (e.lists.setHead i (e.lists.next tmp)).push (.bucket bucket) tmp
        version := (e.version + 1) % 2 ^ 32
        pageFree := e.pageFree - 1 } : Engine n).freePages = e.freePages.erase tmp := by
      ext a
      rw [mem_freePages, Finset.mem_erase, mem_freePages]
      obtain rfl | ha := eq_or_ne a tmp
      · simp [Engine.setPage]
      · simp [Engine.setPage, ha]
    rw [he, Finset.card_erase_of_mem (mem_freePages.mpr ⟨hz, hf⟩), ← hin.count]
  · obtain rfl | hn := eq_or_ne id tmp
    · show (update e.pages id _ id).freeBucket < _
      rw [update_self]
      exact hin.buckets id
    · show (update e.pages tmp _ id).freeBucket < _
      rw [update_of_ne hn]
      exact hin.buckets id

theorem freePage_inv (hin : Inv e) (hu : (e.pages id).free = false) : Inv (freePage e id) := by
  have hz : id.val ≠ 0 := by
    intro h
    rw [hin.zero id h] at hu
    exact absurd hu nofun
  have hpl := place_of_used hz hu
  refine ⟨?_, fun a ha => ?_, ?_, fun a => ?_⟩
  · have hun := hin.placed.unlink (fun a => a == id) trivial hpl (beq_self_eq_true id)
      (fun b _ hb => by simpa using hb)
    have hp := hun.push (i := (e.pages id).freeList) (a := id) (update_self ..)
    rw [freePage, place_setPage hz]
    rw [update_idem] at hp
    exact hp
  · have hn : a ≠ id := by
      rintro rfl
      exact hz ha
    show (update e.pages id _ a).free = true
    rw [update_of_ne hn]
    exact hin.zero a ha
  · have hi : (freePage e id).freePages = insert id e.freePages := by
      ext a
      rw [mem_freePages, Finset.mem_insert, mem_freePages]
      obtain rfl | ha := eq_or_ne a id
      · simp [freePage, Engine.setPage, hz]
      · simp [freePage, Engine.setPage, ha]
    have hno : id ∉ e.freePages := by simp [mem_freePages, hu]
    rw [hi, Finset.card_insert_of_notMem hno, ← hin.count]
    rfl
  · obtain rfl | hn := eq_or_ne a id
    · show (update e.pages a _ a).freeBucket < _
      rw [update_self]
      exact hin.buckets a
    · show (update e.pages id _ a).freeBucket < _
      rw [update_of_ne hn]
      exact hin.buckets a

/-- The fields that say where a page belongs. -/
structure Page.SamePlace (p p' : Page) : Prop where
  free : p'.free = p.free
  freeBucket : p'.freeBucket = p.freeBucket
  bucket : p'.bucket = p.bucket

theorem setPage_inv (hi : Inv e) {p : Page} (hp : (e.pages id).SamePlace p) :
    Inv (e.setPage id p) := by
  have hf : ∀ a, ((e.setPage id p).pages a).free = (e.pages a).free := by
    intro a
    obtain rfl | ha := eq_or_ne a id
    · simp [Engine.setPage, hp.free]
    · simp [Engine.setPage, ha]
  have hb : ∀ a, ((e.setPage id p).pages a).freeBucket = (e.pages a).freeBucket := by
    intro a
    obtain rfl | ha := eq_or_ne a id
    · simp [Engine.setPage, hp.freeBucket]
    · simp [Engine.setPage, ha]
  have hpl : (e.setPage id p).place = e.place := by
    funext a
    have hin : ((e.setPage id p).pages a).bucket = (e.pages a).bucket := by
      obtain rfl | ha := eq_or_ne a id
      · simp [Engine.setPage, hp.bucket]
      · simp [Engine.setPage, ha]
    simp only [Engine.place, hf, Page.freeList, hb, hin]
  refine ⟨?_, fun a ha => (hf a).trans (hi.zero a ha), ?_, fun a => ?_⟩
  · rw [hpl]
    exact hi.placed
  · simp only [Engine.freePages, hf]
    exact hi.count
  · rw [hb]
    exact hi.buckets a

theorem maintPage_inv (hi : Inv e) (id : Fin n) : Inv (maintPage e id) := by
  simp only [maintPage]
  split_ifs with hs hf
  · exact hi
  · rw [Bool.or_eq_true, not_or] at hs
    exact freePage_inv hi (by simpa using hs.2)
  · exact hi

theorem evictPage_inv (hi : Inv e) (id : Fin n) : Inv (evictPage e id) := by
  have hc : Inv (e.setPage id { e.pages id with closed := true }) :=
    setPage_inv hi ⟨rfl, rfl, rfl⟩
  simp only [evictPage]
  split_ifs with hs hf
  · exact hi
  · refine freePage_inv hc ?_
    simp only [Bool.or_eq_true, not_or] at hs
    simpa [Engine.setPage] using hs.1.2
  · exact hc

theorem step_inv {e' : Engine n} {a : Action n} {r : Option (Fin n)} (hi : Inv e)
    (h : step e a = some (e', r)) : Inv e' := by
  cases a with
  | allocate bucket freeBucket =>
    simp only [step, Option.ite_none_right_eq_some, Option.some.injEq] at h
    have he : (allocatePage e bucket freeBucket).1 = e' := congrArg Prod.fst h.2
    exact he ▸ allocatePage_inv hi bucket freeBucket
  | maint id =>
    cases h
    exact maintPage_inv hi id
  | evict id =>
    cases h
    exact evictPage_inv hi id
  | use id u =>
    obtain ⟨-, rfl, -⟩ := System.guarded_eq_some h
    exact setPage_inv hi ⟨rfl, rfl, rfl⟩

/-! ## Initialisation establishes the invariant -/

section Init

variable {cf : Conf}

theorem mem_searchOrder {count f : ℕ} {cur : Option ℕ} (h : f ∈ searchOrder count cur) :
    f < count := by
  unfold searchOrder at h
  split at h
  · exact List.mem_range.mp h
  obtain h | h := List.mem_append.mp h
  · exact List.mem_range.mp (List.mem_of_mem_drop h)
  · exact List.mem_range.mp h

theorem searchOrder_mem {count f : ℕ} (cur : Option ℕ) (h : f < count) :
    f ∈ searchOrder count cur := by
  unfold searchOrder
  split
  · exact List.mem_range.mpr h
  · exact List.mem_append_right _ (List.mem_range.mpr h)

theorem nextPage_some {d d' : Devices} {p : Page} (h : nextPage cf d = some (p, d')) :
    ∃ f < cf.files.length, 0 < d.left f ∧ p.free = true ∧
      p.freeBucket = (cf.files[f]?.map ConfFile.freeBucket).getD 0 ∧
      d'.left = update d.left f (d.left f - 1) := by
  unfold nextPage at h
  obtain ⟨f, hf, he⟩ := Option.map_eq_some_iff.mp h
  obtain ⟨rfl, rfl⟩ := Prod.mk.inj he
  have hp := List.find?_some hf
  exact ⟨f, mem_searchOrder (List.mem_of_find?_eq_some hf), by simpa using hp, rfl, rfl, rfl⟩

theorem initPages_some {k : ℕ} {d : Devices} {ps : List Page} (h : initPages cf k d = some ps) :
    ps.length = k ∧ ∀ p ∈ ps, p.free = true ∧ p.freeBucket < cf.pageBuckets := by
  induction k generalizing d ps with
  | zero =>
    cases h
    simp
  | succ k ih =>
    obtain ⟨⟨p, d'⟩, hn, hr⟩ := Option.bind_eq_some_iff.mp h
    obtain ⟨qs, hq, rfl⟩ := Option.map_eq_some_iff.mp hr
    obtain ⟨hl, ha⟩ := ih hq
    obtain ⟨f, hf, -, hfr, hb, -⟩ := nextPage_some hn
    refine ⟨by simp [hl], List.forall_mem_cons.mpr ⟨⟨hfr, ?_⟩, ha⟩⟩
    rw [hb, List.getElem?_eq_getElem hf]
    exact cf.freeBucket_lt _ (List.getElem_mem hf)

theorem initPages_isSome {k : ℕ} {d : Devices}
    (h : k ≤ ∑ f ∈ Finset.range cf.files.length, d.left f) : (initPages cf k d).isSome = true := by
  induction k generalizing d with
  | zero => rfl
  | succ k ih =>
    obtain ⟨f, hf, hp⟩ : ∃ f ∈ Finset.range cf.files.length, 0 < d.left f := by
      by_contra hnone
      have hz : ∑ f ∈ Finset.range cf.files.length, d.left f = 0 :=
        Finset.sum_eq_zero fun f hf => by
          by_contra hne
          exact hnone ⟨f, hf, Nat.pos_of_ne_zero hne⟩
      omega
    have hso : (nextPage cf d).isSome = true := by
      rw [nextPage, Option.isSome_map, List.find?_isSome]
      exact ⟨f, searchOrder_mem d.cur (Finset.mem_range.mp hf), by simpa using hp⟩
    obtain ⟨⟨p, d'⟩, hn⟩ := Option.isSome_iff_exists.mp hso
    obtain ⟨g, hg, hgp, -, -, hl⟩ := nextPage_some hn
    have hsu : k ≤ ∑ f ∈ Finset.range cf.files.length, d'.left f := by
      have hs := Finset.sum_update_of_mem (Finset.mem_range.mpr hg) d.left (d.left g - 1)
      have ho := Finset.add_sum_erase _ d.left (Finset.mem_range.mpr hg)
      rw [Finset.sdiff_singleton_eq_erase] at hs
      rw [hl, hs]
      omega
    obtain ⟨qs, hq⟩ := Option.isSome_iff_exists.mp (ih hsu)
    rw [initPages, hn, Option.bind_some, hq]
    rfl

theorem sum_pageCount (files : List ConfFile) :
    ∑ f ∈ Finset.range files.length, (files[f]?.map ConfFile.pageCount).getD 0 =
      (files.map ConfFile.pageCount).sum := by
  induction files with
  | nil => rfl
  | cons a files ih =>
    rw [List.length_cons, Finset.sum_range_succ', List.map_cons, List.sum_cons, ← ih, add_comm]
    rfl

theorem extstoreInit_isSome (cf : Conf) (h : cf.accepted = true) :
    (extstoreInit cf).isSome = true := by
  rw [extstoreInit, if_pos h, Option.isSome_map]
  exact initPages_isSome (sum_pageCount cf.files).ge

/-- The places of the pages while the free lists are filled: those above `i` are linked. -/
def placeAbove (e : Engine n) (i : ℕ) (id : Fin n) : Option PageList :=
  if id.val ≤ i then none else some (e.pages id).freeList

theorem initFreeLists_inv (i : ℕ) {e : Engine n}
    (hpl : e.lists.Placed (fun _ => True) (placeAbove e i))
    (hc : e.pageFree = (Finset.univ.filter fun id : Fin n => i < id.val).card)
    (hf : ∀ id, (e.pages id).free = true)
    (hb : ∀ id, (e.pages id).freeBucket < e.pageBuckets) : Inv (initFreeLists e i) := by
  induction i generalizing e with
  | zero =>
    refine ⟨?_, fun id _ => hf id, ?_, hb⟩
    · have hp : e.place = placeAbove e 0 := by
        funext id
        simp only [Engine.place, placeAbove, hf, Nat.le_zero, if_true]
      rw [initFreeLists, hp]
      exact hpl
    · rw [initFreeLists, hc]
      simp [Engine.freePages, hf, Nat.pos_iff_ne_zero]
  | succ i ih =>
    rw [initFreeLists]
    split_ifs with hl
    · have hn : placeAbove e (i + 1) ⟨i + 1, hl⟩ = none := if_pos (le_refl _)
      have hpu := hpl.push (i := (e.pages ⟨i + 1, hl⟩).freeList) hn
      refine ih ?_ ?_ hf hb
      · have hp : placeAbove (linkFree e ⟨i + 1, hl⟩) i = update
            (placeAbove e (i + 1)) ⟨i + 1, hl⟩ (some (e.pages ⟨i + 1, hl⟩).freeList) := by
          funext id
          obtain rfl | hne := eq_or_ne id ⟨i + 1, hl⟩
          · rw [update_self, placeAbove, if_neg (by simp)]
            rfl
          have hv : id.val ≠ i + 1 := fun h => hne (Fin.ext h)
          rw [update_of_ne hne, placeAbove, placeAbove]
          by_cases hle : id.val ≤ i
          · rw [if_pos hle, if_pos (by omega)]
          · rw [if_neg hle, if_neg (by omega)]
            rfl
        rw [hp]
        exact hpu
      · have hs : (Finset.univ.filter fun id : Fin n => i < id.val) =
            insert ⟨i + 1, hl⟩ (Finset.univ.filter fun id : Fin n => i + 1 < id.val) := by
          ext id
          simp only [Finset.mem_filter, Finset.mem_univ, true_and, Finset.mem_insert, Fin.ext_iff]
          omega
        rw [hs, Finset.card_insert_of_notMem (by simp), ← hc]
        rfl
    · have hp : placeAbove e (i + 1) = placeAbove e i := by
        funext id
        have := id.isLt
        rw [placeAbove, placeAbove, if_pos (by omega), if_pos (by omega)]
      have hs : (Finset.univ.filter fun id : Fin n => i + 1 < id.val) =
          Finset.univ.filter fun id : Fin n => i < id.val := by
        ext id
        have := id.isLt
        simp only [Finset.mem_filter, Finset.mem_univ, true_and]
        omega
      rw [hp] at hpl
      rw [hs] at hc
      exact ih hpl hc hf hb

theorem extstoreInit_inv {e : Engine cf.pageCount} (h : extstoreInit cf = some e) : Inv e := by
  unfold extstoreInit at h
  split_ifs at h
  obtain ⟨ps, hps, rfl⟩ := Option.map_eq_some_iff.mp h
  obtain ⟨hl, ha⟩ := initPages_some hps
  have hp : ∀ id : Fin cf.pageCount, ps.getD id {} ∈ ps := by
    intro id
    have hlt : id.val < ps.length := by rw [hl]; exact id.isLt
    rw [List.getD_eq_getElem?_getD, List.getElem?_eq_getElem hlt, Option.getD_some]
    exact List.getElem_mem _
  refine initFreeLists_inv _ ?_ ?_ (fun id => (ha _ (hp id)).1)
    (fun id => (ha _ (hp id)).2)
  · intro i _
    refine ⟨[], rfl, fun id => ?_⟩
    have := id.isLt
    rw [placeAbove, if_pos (by omega)]
    simp
  · rw [Finset.filter_false_of_mem, Finset.card_empty]
    intro id _
    have := id.isLt
    omega

end Init

theorem inv_of_reachable {cf : Conf} {e : Engine cf.pageCount}
    (h : (engine cf).Reachable anyAction e) : Inv e :=
  h.induct (P := fun e => Inv e) (fun _ hi => extstoreInit_inv hi)
    fun hin _ hs => step_inv hin hs

/-! ## Every page but page 0 can be allocated -/

section Allocation

variable {cf : Conf} {e : Engine cf.pageCount} {id : Fin cf.pageCount}

theorem CanAllocate.of_step {e' : Engine cf.pageCount} {r : Option (Fin cf.pageCount)}
    (a : Action cf.pageCount) (hs : step e a = some (e', r)) (h : CanAllocate cf e' id) :
    CanAllocate cf e id := by
  obtain ⟨l, e1, bucket, freeBucket, e2, hl, ha⟩ := h
  have hr : (engine cf).Steps anyAction e [(a, r)] e' := System.Steps.refl.tail trivial hs
  exact ⟨_, e1, bucket, freeBucket, e2, hr.trans hl, ha⟩

/-- The free list that an allocation looks at first. -/
def listOf (freeBucket : ℕ) : PageList :=
  if freeBucket = 0 then .free else .freeBucket freeBucket

theorem takeFree_head (freeBucket : ℕ) {tmp : Fin cf.pageCount}
    (h : e.lists.head (listOf freeBucket) = some tmp) :
    takeFree e freeBucket =
      (e.lists.setHead (listOf freeBucket) (e.lists.next tmp), some tmp) := by
  unfold takeFree listOf at *
  by_cases hf : freeBucket = 0
  · rw [if_pos hf] at h ⊢
    rw [if_neg (not_not.mpr hf)]
    simp only [h]
  · rw [if_neg hf] at h ⊢
    rw [if_pos hf]
    simp only [h]

variable (id) in
theorem exists_bucketFull (hi : Inv e) (bucket : ℕ) :
    ∃ e' : Engine cf.pageCount, Inv e' ∧ e'.lists = e.lists ∧ e'.pageBuckets = e.pageBuckets ∧
      (∀ a, (e.pages a).SamePlace (e'.pages a)) ∧ bucketFull e' bucket = true ∧
      (CanAllocate cf e' id → CanAllocate cf e id) := by
  cases hh : e.lists.head (.bucket bucket) with
  | none =>
    refine ⟨e, hi, rfl, rfl, fun _ => ⟨rfl, rfl, rfl⟩, ?_, fun h => h⟩
    rw [bucketFull, hh]
  | some a =>
    have hp := place_of_head hi hh
    have hu : (e.pages a).free = false := by
      by_contra hf
      have hz : a.val ≠ 0 := by
        intro h
        rw [Engine.place, if_pos h] at hp
        exact absurd hp nofun
      rw [place_of_free hz (by simpa using hf)] at hp
      have hl := freeList_isFree (e.pages a)
      rw [Option.some.inj hp] at hl
      exact hl
    let u : Usage :=
      { objCount := (e.pages a).objCount, bytesUsed := (e.pages a).bytesUsed
        refcount := (e.pages a).refcount, allocated := e.pageSize, written := e.pageSize
        active := (e.pages a).active, closed := (e.pages a).closed }
    have hs : step e (.use a u) = some (e.setPage a ((e.pages a).use u), none) :=
      if_pos ⟨hu, fun h => h⟩
    refine ⟨e.setPage a ((e.pages a).use u), step_inv hi hs, rfl, rfl, fun b => ?_, ?_,
      fun h => .of_step _ hs h⟩
    · obtain rfl | hb := eq_or_ne b a
      · simp only [Engine.setPage, update_self]
        exact ⟨rfl, rfl, rfl⟩
      · simp only [Engine.setPage, update_of_ne hb]
        exact ⟨rfl, rfl, rfl⟩
    · simp only [bucketFull, Engine.setPage, hh, update_self]
      exact beq_self_eq_true _

theorem canAllocate_of_mem (l : List (Fin cf.pageCount)) (hin : Inv e)
    (hl : Linked e.lists.next (e.lists.head (e.pages id).freeList) l) (hm : id ∈ l) :
    CanAllocate cf e id := by
  induction l generalizing e with
  | nil => cases hm
  | cons a l ih =>
    obtain ⟨e', hi', hli, hbu, hsa, hf, hba⟩ :=
      exists_bucketFull id hin (e.pages id).freeBucket
    refine hba ?_
    have hn := hl.nodup
    rw [← hli] at hl
    have hfb : (e'.pages id).freeBucket = (e.pages id).freeBucket := (hsa id).freeBucket
    have hlis : (e'.pages id).freeList = (e.pages id).freeList := by
      rw [Page.freeList, Page.freeList, hfb]
    rw [← hlis] at hl
    have hlt := hi'.buckets id
    rw [← hfb] at hf
    have ht := takeFree_head (e'.pages id).freeBucket hl.1
    have ha := allocatePage_some hi' (e'.pages id).freeBucket ht
    have hs : step e' (.allocate (e'.pages id).freeBucket (e'.pages id).freeBucket) = some
        (allocatePage e' (e'.pages id).freeBucket (e'.pages id).freeBucket) :=
      if_pos ⟨hlt, hlt, hf⟩
    obtain rfl | hne := eq_or_ne id a
    · rw [ha] at hs
      exact ⟨_, e', _, _, _, .refl, hs⟩
    have hal : a ∉ l := (List.nodup_cons.mp hn).1
    have hi2 := allocatePage_inv hi' (e'.pages id).freeBucket (e'.pages id).freeBucket
    rw [ha] at hs hi2
    refine .of_step _ hs (ih hi2 ?_ ((List.mem_cons.mp hm).resolve_left hne))
    simp only [Engine.setPage, update_of_ne hne, ChainMem.push_head, ChainMem.push_next,
      ChainMem.setHead_head, ChainMem.setHead_next]
    have hnb : (e'.pages id).freeList ≠ .bucket (e'.pages id).freeBucket := by
      intro h
      have hi := freeList_isFree (e'.pages id)
      rw [h] at hi
      exact hi
    rw [update_of_ne hnb]
    have hh : update e'.lists.head (listOf (e'.pages id).freeBucket)
        (e'.lists.next a) (e'.pages id).freeList = e'.lists.next a := update_self ..
    rw [hh]
    exact hl.2.congr fun b hb => update_of_ne (ne_of_mem_of_not_mem hb hal) _ _

theorem canAllocate_of_free (hi : Inv e) (hz : id.val ≠ 0)
    (hf : (e.pages id).free = true) : CanAllocate cf e id := by
  obtain ⟨l, hl, hm⟩ := hi.placed (e.pages id).freeList trivial
  exact canAllocate_of_mem l hi hl ((hm id).mpr (place_of_free hz hf))

theorem canAllocate (hi : Inv e) (hz : id.val ≠ 0) : CanAllocate cf e id := by
  cases hf : (e.pages id).free with
  | true => exact canAllocate_of_free hi hz hf
  | false =>
    have hu : step e (.use id ⟨0, 0, 0, e.pageSize, e.pageSize, false, false⟩) =
        some (e.setPage id ((e.pages id).use ⟨0, 0, 0, e.pageSize, e.pageSize, false, false⟩),
          none) := if_pos ⟨hf, fun h => absurd h nofun⟩
    have hi1 := step_inv hi hu
    refine .of_step _ hu ?_
    refine .of_step (.maint id) rfl (canAllocate_of_free (maintPage_inv hi1 id) hz ?_)
    simp [maintPage, freePage, Engine.setPage, Page.use, hf]

end Allocation

/-! ## The partition -/

section Partition

variable {cf : Conf} {e : Engine cf.pageCount} {id : Fin cf.pageCount}

theorem inFreeList_iff (hin : Inv e) :
    e.InFreeList id ↔ id.val ≠ 0 ∧ (e.pages id).free = true := by
  constructor
  · rintro ⟨i, k, hi, ha⟩
    obtain ⟨hz, hf, -⟩ := free_of_place hi (hin.placed.place_of_nthFrom trivial ha)
    exact ⟨hz, hf⟩
  rintro ⟨hz, hf⟩
  obtain ⟨⟨i, k⟩, ⟨-, ha⟩, -⟩ :=
    hin.placed.exists_unique trivial (place_of_free hz hf)
  have hi : e.place id = some i := hin.placed.place_of_nthFrom trivial ha
  rw [place_of_free hz hf] at hi
  exact ⟨i, k, Option.some.inj hi ▸ freeList_isFree _, ha⟩

variable (id) in
theorem not_at_zero (hi : Inv e) (hz : id.val = 0) (i : PageList) (k : ℕ) : ¬e.At id i k := by
  intro ha
  have hp := hi.placed.place_of_nthFrom trivial ha
  rw [Engine.place, if_pos hz] at hp
  exact absurd hp nofun

theorem partitioned_of_ne_zero (hin : Inv e) (hz : id.val ≠ 0) : Partitioned cf e id := by
  obtain ⟨i, hi⟩ : ∃ i, e.place id = some i := by
    cases hf : (e.pages id).free with
    | true => exact ⟨_, place_of_free hz hf⟩
    | false => exact ⟨_, place_of_used hz hf⟩
  obtain ⟨x, ⟨-, ha⟩, hu⟩ := hin.placed.exists_unique trivial hi
  refine ⟨⟨x, ha, fun y hy => hu y ⟨trivial, hy⟩⟩, ?_, canAllocate hin hz⟩
  rw [inFreeList_iff hin]
  exact and_iff_right hz

/-- In every state of the engine `page_free` counts the pages in the free lists; and a page is
in one list, in a free list iff its flag is set, and can be allocated, unless it is page
0. -/
theorem page_partition_iff (hr : (engine cf).Reachable anyAction e) :
    e.pageFree = {id | e.InFreeList id}.ncard ∧ ∀ id, Partitioned cf e id ↔ id.val ≠ 0 := by
  have hi := inv_of_reachable hr
  refine ⟨?_, fun id => ⟨fun h hz => ?_, partitioned_of_ne_zero hi⟩⟩
  · have hs : {id | e.InFreeList id} = (e.freePages : Set (Fin cf.pageCount)) := by
      ext id
      rw [Set.mem_ofPred_eq, inFreeList_iff hi, Finset.mem_coe, mem_freePages]
    rw [hs, Set.ncard_coe_finset]
    exact hi.count
  · obtain ⟨x, ha, -⟩ := h.one
    exact not_at_zero id hi hz x.1 x.2 ha

end Partition

def twoPages : Conf where
  files := [⟨2, 0⟩]
  pageSize := 2 ^ 26
  wbufSize := 2 ^ 22
  pageBuckets := 4
  wbufCount := 4
  freeBucket_lt := by decide

theorem page_partition_iff_two :
    ∃ e, (engine twoPages).Reachable anyAction e ∧ e.pageFree = {id | e.InFreeList id}.ncard ∧
      Partitioned twoPages e ⟨1, by decide⟩ := by
  obtain ⟨e, he⟩ := Option.isSome_iff_exists.mp (extstoreInit_isSome twoPages rfl)
  have hr : (engine twoPages).Reachable anyAction e := .of_init he
  obtain ⟨hc, hp⟩ := page_partition_iff hr
  exact ⟨e, hr, hc, (hp _).mpr (by decide)⟩

/-- With two pages, one is in no list and can never be allocated, although its free flag is
set. -/
theorem page_zero_stranded :
    ∃ e, extstoreInit twoPages = some e ∧ (e.pages ⟨0, by decide⟩).free = true ∧
      e.pageFree = 1 ∧ (∀ i k, ¬e.At ⟨0, by decide⟩ i k) ∧
      ¬Partitioned twoPages e ⟨0, by decide⟩ := by
  obtain ⟨e, he⟩ := Option.isSome_iff_exists.mp (extstoreInit_isSome twoPages rfl)
  have hi := extstoreInit_inv he
  have hn := not_at_zero ⟨0, by decide⟩ hi rfl
  refine ⟨e, he, hi.zero _ rfl, ?_, hn, fun h => ?_⟩
  · have hs : (extstoreInit twoPages).any fun e => e.pageFree == 1 := by decide +kernel
    rw [he] at hs
    simpa using hs
  · obtain ⟨x, ha, -⟩ := h.one
    exact hn x.1 x.2 ha

end Memcached.Storage.Pages
