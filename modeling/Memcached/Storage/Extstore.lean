import Memcached.Util.Numbers

/-!
# External storage (`extstore.c`)

The external storage has pages; a page gets a new version each time it is taken into
use. Records are appended to the write buffer of the active page of a bucket, and a
location is a page, its version and an offset. `content` is what a read of a location
gives, whether the record is still in a write buffer or on the device.

Results:
* `extstoreWriteRequest_spec`, `extstoreWrite_spec`: a write adds one record and
  keeps all others
-/

namespace Memcached.Storage

open Function (update update_self update_of_ne)

/-! ## State -/

/-- A stored item: its key, its length `ITEM_ntotal`, the reference count that was
stored with it, and the other bytes. -/
structure Record where
  key : Bytes
  ntotal : ℕ
  refcount : ℕ
  body : Bytes
  ntotal_pos : 0 < ntotal
deriving DecidableEq

/-- The place of a record: `item_hdr` (`storage.h`). -/
structure Loc where
  page : ℕ
  version : ℕ
  offset : ℕ
deriving DecidableEq

/-- `_store_wbuf` -/
structure Wbuf where
  offset : ℕ
  size : ℕ
  free : ℕ
  full : Bool

/-- `store_page`, without the list pointers and the file. -/
structure StorePage where
  version : ℕ
  allocated : ℕ
  bytesUsed : ℕ
  objCount : ℕ
  active : Bool
  closed : Bool
  wbuf : Option Wbuf

/-- `store_engine`: the pages, the page in use of each bucket, the free pages, the next
version, and the sizes. -/
structure Engine where
  pages : ℕ → StorePage
  pageBuckets : ℕ → Option ℕ
  pageFreelist : List ℕ
  freePageBuckets : ℕ → List ℕ
  pageFree : ℕ
  version : ℕ
  pageSize : ℕ
  wbufSize : ℕ
  content : Loc → Option Record

/-- What a request meets: whether the last full write buffer of the page was flushed in
the meantime (`_wbuf_cb`), and whether there is a free write buffer. -/
structure IoEnv where
  flushed : Bool
  wbufFree : Bool

def Engine.setPage (e : Engine) (id : ℕ) (p : StorePage) : Engine :=
  { e with pages := update e.pages id p }

/-! ## Functions -/

/-- The page that `_allocate_page` takes from the lists (lines 410-422). -/
def takeFreePage (e : Engine) (freeBucket : ℕ) : Engine × Option ℕ :=
  match (if freeBucket ≠ 0 then e.freePageBuckets freeBucket else []) with
  | id :: rest =>
    ({ e with freePageBuckets := update e.freePageBuckets freeBucket rest }, some id)
  | [] =>
    match e.pageFreelist with
    | id :: rest => ({ e with pageFreelist := rest }, some id)
    | [] => (e, none)

/-- `_allocate_page` (lines 406-437). -/
def allocatePage (e : Engine) (bucket freeBucket : ℕ) : Engine × Option ℕ :=
  match takeFreePage e freeBucket with
  | (e, none) => (e, none)
  | (e, some id) =>
    if e.pageFree > 0 then
      let p := { e.pages id with active := true, closed := false, version := e.version }
      let e := e.setPage id p
      ({ e with
          version := e.version + 1
          pageBuckets := update e.pageBuckets bucket (some id)
          pageFree := e.pageFree - 1 }, some id)
    else (e, some id)

/-- `_wbuf_cb` (lines 470-497): a full write buffer was written out. -/
def wbufFlushed (p : StorePage) : StorePage :=
  match p.wbuf with
  | some w => if w.full then { p with wbuf := none } else p
  | none => p

/-- The write buffer has no room for the record: it is submitted (lines 565-568). -/
def submitWbuf (p : StorePage) (len : ℕ) : StorePage :=
  match p.wbuf with
  | some w =>
    if w.free < len ∧ w.full = false then { p with wbuf := some { w with full := true } } else p
  | none => p

/-- `_allocate_wbuf` (lines 440-461). -/
def allocateWbuf (e : Engine) (p : StorePage) (wbufFree : Bool) : StorePage :=
  if p.wbuf.isNone ∧ p.allocated < e.pageSize ∧ wbufFree then
    { p with
      allocated := p.allocated + e.wbufSize
      wbuf := some ⟨p.allocated, e.wbufSize, e.wbufSize, false⟩ }
  else p

/-- The page is full (lines 555-556). -/
def pageFull (e : Engine) (p : StorePage) : Bool :=
  !p.active || ((match p.wbuf with | none => true | some w => w.full) && e.pageSize ≤ p.allocated)

/-- There is room in the write buffer (line 575). -/
def hasRoom (p : StorePage) (len : ℕ) : Bool :=
  match p.wbuf with
  | none => false
  | some w => !w.full && len ≤ w.free

/-- `extstore_write_request` (lines 535-585); returns the page when there is room. -/
def extstoreWriteRequest (e : Engine) (bucket freeBucket len : ℕ) (env : IoEnv) :
    Engine × Option ℕ :=
  let (e, page) := match e.pageBuckets bucket with
    | some id => (e, some id)
    | none => allocatePage e bucket freeBucket
  match page with
  | none => (e, none)
  | some id =>
    let p := if env.flushed then wbufFlushed (e.pages id) else e.pages id
    if pageFull e p then ((allocatePage (e.setPage id p) bucket freeBucket).1, none)
    else
      let p := allocateWbuf e (submitWbuf p len) env.wbufFree
      (e.setPage id p, if hasRoom p len then some id else none)

/-- `extstore_write` (lines 590-610), with the copy of the record into the buffer. -/
def extstoreWrite (e : Engine) (id : ℕ) (r : Record) : Engine × Loc :=
  let p := e.pages id
  match p.wbuf with
  | none => (e, ⟨id, p.version, 0⟩)
  | some w =>
    let io : Loc := ⟨id, p.version, w.offset + (w.size - w.free)⟩
    ({ e.setPage id { p with
        wbuf := some { w with free := w.free - r.ntotal }
        bytesUsed := p.bytesUsed + r.ntotal
        objCount := p.objCount + 1 } with
      content := update e.content io (some r) }, io)

/-- `extstore_delete` (lines 651-684). -/
def extstoreDelete (e : Engine) (id version count bytes : ℕ) : Engine :=
  let p := e.pages id
  if p.closed = false ∧ p.version = version then
    e.setPage id { p with bytesUsed := p.bytesUsed - bytes, objCount := p.objCount - count }
  else e

/-! ## Records are appended -/

def StorePage.frontier (p : StorePage) : ℕ :=
  match p.wbuf with
  | some w => w.offset + (w.size - w.free)
  | none => p.allocated

/-- The write buffer lies in the allocated part of the page. -/
def StorePage.Fits (p : StorePage) : Prop :=
  ∀ w, p.wbuf = some w → w.free ≤ w.size ∧ w.offset + w.size ≤ p.allocated

/-- Nothing is stored where records still have to be written: in versions to come, and
behind the last record of a page. -/
structure Engine.Ok (e : Engine) : Prop where
  version : ∀ l : Loc, e.version ≤ l.version → e.content l = none
  below : ∀ id, (e.pages id).version < e.version
  frontier : ∀ id o, (e.pages id).frontier ≤ o → e.content ⟨id, (e.pages id).version, o⟩ = none
  fits : ∀ id, (e.pages id).Fits

variable {e e' : Engine}

theorem Engine.Ok.setPage (h : e.Ok) {id : ℕ} {p : StorePage}
    (hv : p.version = (e.pages id).version) (hfi : p.Fits)
    (hf : (e.pages id).frontier ≤ p.frontier) : (e.setPage id p).Ok := by
  refine ⟨h.version, fun i => ?_, fun i o ho => ?_, fun i => ?_⟩
  · obtain rfl | hi := eq_or_ne i id
    · simpa [Engine.setPage, hv] using h.below i
    · simpa [Engine.setPage, hi] using h.below i
  · obtain rfl | hi := eq_or_ne i id
    · simp only [Engine.setPage, update_self] at ho ⊢
      rw [hv]
      exact h.frontier i o (hf.trans ho)
    · simp only [Engine.setPage, update_of_ne hi] at ho ⊢
      exact h.frontier i o ho
  · obtain rfl | hi := eq_or_ne i id
    · simpa [Engine.setPage] using hfi
    · simpa [Engine.setPage, hi] using h.fits i

theorem takeFreePage_frame (e : Engine) (freeBucket : ℕ) :
    (takeFreePage e freeBucket).1.pages = e.pages ∧
      (takeFreePage e freeBucket).1.version = e.version ∧
      (takeFreePage e freeBucket).1.content = e.content := by
  unfold takeFreePage
  split
  · exact ⟨rfl, rfl, rfl⟩
  split
  · exact ⟨rfl, rfl, rfl⟩
  · exact ⟨rfl, rfl, rfl⟩

theorem Engine.Ok.allocatePage (h : e.Ok) (bucket freeBucket : ℕ) :
    (allocatePage e bucket freeBucket).1.Ok ∧
      (allocatePage e bucket freeBucket).1.content = e.content := by
  obtain ⟨hp, hv, hc⟩ := takeFreePage_frame e freeBucket
  unfold Storage.allocatePage
  rcases ht : takeFreePage e freeBucket with ⟨e1, page⟩
  rw [ht] at hp hv hc
  simp only at hp hv hc
  have hok : e1.Ok := by
    refine ⟨?_, ?_, ?_, ?_⟩
    · rw [hv, hc]
      exact h.version
    · rw [hp, hv]
      exact h.below
    · rw [hp, hc]
      exact h.frontier
    · rw [hp]
      exact h.fits
  cases page with
  | none => exact ⟨hok, hc⟩
  | some id =>
    simp only
    split_ifs
    · refine ⟨⟨fun l hl => ?_, fun i => ?_, fun i o ho => ?_, fun i => ?_⟩, hc⟩
      · exact hok.version l (le_trans (Nat.le_succ _) hl)
      · obtain rfl | hi := eq_or_ne i id
        · simp [Engine.setPage]
        have hlt := hok.below i
        simp only [Engine.setPage, update_of_ne hi]
        omega
      · obtain rfl | hi := eq_or_ne i id
        · exact hok.version _ (by simp [Engine.setPage])
        · simp only [Engine.setPage, update_of_ne hi] at ho ⊢
          exact hok.frontier i o ho
      · obtain rfl | hi := eq_or_ne i id
        · simpa [Engine.setPage, StorePage.Fits] using hok.fits i
        · simpa [Engine.setPage, hi] using hok.fits i
    · exact ⟨hok, hc⟩

/-- A change of a page that keeps its version, and its next record where it was or
further behind. -/
def StorePage.Grows (p p' : StorePage) : Prop :=
  p'.version = p.version ∧ (p.Fits → p'.Fits ∧ p.frontier ≤ p'.frontier)

theorem StorePage.Grows.refl (p : StorePage) : p.Grows p := ⟨rfl, fun h => ⟨h, le_refl _⟩⟩

theorem StorePage.Grows.trans {p p' p'' : StorePage} (h : p.Grows p') (h' : p'.Grows p'') :
    p.Grows p'' := by
  refine ⟨h'.1.trans h.1, fun hf => ?_⟩
  obtain ⟨hf', hl⟩ := h.2 hf
  obtain ⟨hf'', hl'⟩ := h'.2 hf'
  exact ⟨hf'', hl.trans hl'⟩

theorem wbufFlushed_grows (p : StorePage) : p.Grows (wbufFlushed p) := by
  unfold wbufFlushed
  split
  · rename_i w hw
    split_ifs
    · refine ⟨rfl, fun hf => ⟨by simp [StorePage.Fits], ?_⟩⟩
      have hw' := hf w hw
      simp only [StorePage.frontier, hw]
      omega
    · exact .refl p
  · exact .refl p

theorem submitWbuf_grows (p : StorePage) (len : ℕ) : p.Grows (submitWbuf p len) := by
  unfold submitWbuf
  split
  · rename_i w hw
    split_ifs
    · refine ⟨rfl, fun hf => ⟨?_, ?_⟩⟩
      · rintro w' hw'
        cases hw'
        exact hf w hw
      · simp [StorePage.frontier, hw]
    · exact .refl p
  · exact .refl p

theorem allocateWbuf_grows (e : Engine) (p : StorePage) (wbufFree : Bool) :
    p.Grows (allocateWbuf e p wbufFree) := by
  unfold allocateWbuf
  split_ifs with hn
  · have hwb : p.wbuf = none := by simpa using hn.1
    refine ⟨rfl, fun _ => ⟨?_, ?_⟩⟩
    · rintro w hw
      cases hw
      simp
    · simp [StorePage.frontier, hwb]
  · exact .refl p

theorem Engine.Ok.grow (h : e.Ok) {id : ℕ} {p : StorePage} (hp : (e.pages id).Grows p) :
    (e.setPage id p).Ok := by
  obtain ⟨hf, hl⟩ := hp.2 (h.fits id)
  exact h.setPage hp.1 hf hl

/-- What a request does: the bucket may get its first page, the page may turn out to be
full, and else its write buffer is submitted or allocated as needed. -/
theorem extstoreWriteRequest_cases (e : Engine) (bucket freeBucket len : ℕ) (env : IoEnv) :
    let r := extstoreWriteRequest e bucket freeBucket len env
    ∃ e1, (e1 = e ∨ e1 = (allocatePage e bucket freeBucket).1) ∧
      (r = (e1, none) ∨ ∃ id p, (p = e1.pages id ∨ p = wbufFlushed (e1.pages id)) ∧
        let p' := allocateWbuf e1 (submitWbuf p len) env.wbufFree
        (r = ((allocatePage (e1.setPage id p) bucket freeBucket).1, none) ∨
          pageFull e1 p = false ∧
            r = (e1.setPage id p', if hasRoom p' len then some id else none))) := by
  intro r
  obtain ⟨e1, page, hfi, he1⟩ : ∃ e1 page, (match e.pageBuckets bucket with
        | some id => (e, some id)
        | none => allocatePage e bucket freeBucket) = (e1, page) ∧
      (e1 = e ∨ e1 = (allocatePage e bucket freeBucket).1) := by
    obtain _ | id := e.pageBuckets bucket
    · exact ⟨_, _, rfl, .inr rfl⟩
    · exact ⟨e, some id, rfl, .inl rfl⟩
  have hr : r = extstoreWriteRequest e bucket freeBucket len env := rfl
  unfold extstoreWriteRequest at hr
  rw [hfi] at hr
  refine ⟨e1, he1, ?_⟩
  cases page with
  | none => exact .inl hr
  | some id =>
    refine .inr ⟨id, if env.flushed then wbufFlushed (e1.pages id) else e1.pages id, ?_, ?_⟩
    · split_ifs
      · exact .inr rfl
      · exact .inl rfl
    simp only at hr
    generalize (if env.flushed then wbufFlushed (e1.pages id) else e1.pages id) = p at hr ⊢
    by_cases hf : pageFull e1 p = true
    · rw [if_pos hf] at hr
      exact .inl hr
    · rw [if_neg hf] at hr
      exact .inr ⟨Bool.eq_false_iff.mpr hf, hr⟩

/-- **Requests.** A request for space changes no record, and when it is granted the page
has a write buffer with room. -/
theorem extstoreWriteRequest_spec (h : e.Ok) (bucket freeBucket len : ℕ) (env : IoEnv) :
    let r := extstoreWriteRequest e bucket freeBucket len env
    r.1.Ok ∧ r.1.content = e.content ∧
      ∀ id, r.2 = some id → ∃ w, (r.1.pages id).wbuf = some w ∧ len ≤ w.free := by
  intro r
  obtain ⟨e1, hfi, hca⟩ := extstoreWriteRequest_cases e bucket freeBucket len env
  obtain ⟨ho, hc⟩ : e1.Ok ∧ e1.content = e.content := by
    obtain rfl | rfl := hfi
    · exact ⟨h, rfl⟩
    · exact h.allocatePage bucket freeBucket
  obtain hr | ⟨id, p, hp, hca⟩ := hca
  · rw [show r = _ from hr]
    exact ⟨ho, hc, by simp⟩
  have hf : (e1.pages id).Grows p := by
    obtain rfl | rfl := hp
    · exact .refl _
    · exact wbufFlushed_grows _
  obtain hr | ⟨-, hr⟩ := hca
  · obtain ⟨ho', hc'⟩ := (ho.grow hf).allocatePage bucket freeBucket
    rw [show r = _ from hr]
    exact ⟨ho', hc'.trans hc, by simp⟩
  have hg := hf.trans ((submitWbuf_grows p len).trans
    (allocateWbuf_grows e1 (submitWbuf p len) env.wbufFree))
  rw [show r = _ from hr]
  refine ⟨ho.grow hg, hc, fun i hi => ?_⟩
  split_ifs at hi with hro
  cases hi
  simp only [Engine.setPage, update_self]
  unfold hasRoom at hro
  split at hro
  · cases hro
  · rename_i w hw
    exact ⟨w, hw, by simpa using (Bool.and_eq_true_iff.mp hro).2⟩

/-- **Writes.** A record is written where there was none. -/
theorem extstoreWrite_spec (h : e.Ok) {id : ℕ} {r : Record}
    (hr : ∃ w, (e.pages id).wbuf = some w ∧ r.ntotal ≤ w.free) :
    let x := extstoreWrite e id r
    x.1.Ok ∧ e.content x.2 = none ∧ x.1.content = update e.content x.2 (some r) := by
  obtain ⟨w, hw, hle⟩ := hr
  have hfi := h.fits id w hw
  have hp := r.ntotal_pos
  have hf : e.content ⟨id, (e.pages id).version, w.offset + (w.size - w.free)⟩ = none :=
    h.frontier id _ (by simp [StorePage.frontier, hw])
  simp only [extstoreWrite, hw]
  refine ⟨⟨fun l hl => ?_, fun i => ?_, fun i o ho => ?_, fun i => ?_⟩, hf, trivial⟩
  · have hn : l ≠ ⟨id, (e.pages id).version, w.offset + (w.size - w.free)⟩ := by
      rintro rfl
      have hlt := h.below id
      simp only [Engine.setPage] at hl
      omega
    simp only [update_of_ne hn]
    exact h.version l hl
  · obtain rfl | hi := eq_or_ne i id
    · simpa [Engine.setPage] using h.below i
    · simpa [Engine.setPage, hi] using h.below i
  · obtain rfl | hi := eq_or_ne i id
    · simp only [Engine.setPage, update_self, StorePage.frontier] at ho ⊢
      have hn : (⟨i, (e.pages i).version, o⟩ : Loc) ≠
          ⟨i, (e.pages i).version, w.offset + (w.size - w.free)⟩ := by
        intro he
        have ho' := congrArg Loc.offset he
        simp only at ho'
        omega
      rw [update_of_ne hn]
      exact h.frontier i o (by simp only [StorePage.frontier, hw]; omega)
    · simp only [Engine.setPage, update_of_ne hi] at ho ⊢
      have hn : (⟨i, (e.pages i).version, o⟩ : Loc) ≠
          ⟨id, (e.pages id).version, w.offset + (w.size - w.free)⟩ := by
        intro he
        exact hi (congrArg Loc.page he)
      rw [update_of_ne hn]
      exact h.frontier i o ho
  · obtain rfl | hi := eq_or_ne i id
    · simp only [Engine.setPage, update_self]
      rintro w' hw'
      cases hw'
      exact ⟨by simp only; omega, hfi.2⟩
    · simpa [Engine.setPage, hi] using h.fits i

theorem extstoreDelete_spec (h : e.Ok) (id version count bytes : ℕ) :
    (extstoreDelete e id version count bytes).Ok ∧
      (extstoreDelete e id version count bytes).content = e.content := by
  unfold extstoreDelete
  simp only
  split_ifs
  · exact ⟨h.grow ⟨rfl, fun hf => ⟨hf, le_refl _⟩⟩, rfl⟩
  · exact ⟨h, rfl⟩

end Memcached.Storage
