import Memcached.Storage.Compact

/-!
# What compaction rescues (`storage.c`)

A record that is still in use is written again during the walk over its page, and its
header should then point at the new copy. Whether the header may be changed is decided by
a reference count: the one in the record, which `storage_write` stored with the item, and
not the one of the header item.

Results:
* `compaction_rescues_iff`: which records are rescued
* `rewritten_record_not_rescued`: one that is copied and lost
-/

namespace Memcached.Storage

open Function (update update_self update_of_ne)

/-! ## Pages that are written no more -/

/-- Nothing is written to this version of the page any more. The maintenance thread offers
such pages only for compaction (`extstore.c`, line 939). -/
structure Engine.Retired (e : Engine) (page version : ℕ) : Prop where
  below : version < e.version
  inactive : (e.pages page).active = true → (e.pages page).version ≠ version

/-- The place is in this version of the page. -/
def Loc.In (l : Loc) (page version : ℕ) : Prop := l.page = page ∧ l.version = version

instance (l : Loc) (page version : ℕ) : Decidable (l.In page version) :=
  inferInstanceAs (Decidable (_ ∧ _))

variable {e : Engine} {page version id : ℕ}

theorem Engine.Retired.setPage (h : e.Retired page version) (id : ℕ) {p : StorePage}
    (hv : p.version = (e.pages id).version) (ha : p.active = (e.pages id).active) :
    (e.setPage id p).Retired page version := by
  refine ⟨h.below, ?_⟩
  obtain rfl | hn := eq_or_ne page id
  · simp only [Engine.setPage, update_self, hv, ha]
    exact h.inactive
  · simp only [Engine.setPage, update_of_ne hn]
    exact h.inactive

theorem Engine.Retired.allocatePage (h : e.Retired page version) (bucket freeBucket : ℕ) :
    (allocatePage e bucket freeBucket).1.Retired page version := by
  obtain ⟨hp, hv, -⟩ := takeFreePage_frame e freeBucket
  unfold Storage.allocatePage
  rcases ht : takeFreePage e freeBucket with ⟨e1, taken⟩
  rw [ht] at hp hv
  simp only at hp hv
  have hr : e1.Retired page version := by
    refine ⟨?_, ?_⟩
    · rw [hv]
      exact h.below
    · rw [hp]
      exact h.inactive
  cases taken with
  | none => exact hr
  | some id =>
    simp only
    split_ifs
    · refine ⟨Nat.lt_succ_of_lt hr.below, ?_⟩
      have hb := hr.below
      obtain rfl | hn := eq_or_ne page id
      · simp only [Engine.setPage, update_self]
        omega
      · simp only [Engine.setPage, update_of_ne hn]
        exact hr.inactive
    · exact hr

theorem wbufFlushed_active (p : StorePage) : (wbufFlushed p).active = p.active := by
  unfold wbufFlushed
  split
  · split_ifs <;> rfl
  · rfl

theorem submitWbuf_active (p : StorePage) (len : ℕ) : (submitWbuf p len).active = p.active := by
  unfold submitWbuf
  split
  · split_ifs <;> rfl
  · rfl

theorem allocateWbuf_active (e : Engine) (p : StorePage) (wbufFree : Bool) :
    (allocateWbuf e p wbufFree).active = p.active := by
  unfold allocateWbuf
  split_ifs <;> rfl

section

variable (h : e.Retired page version)
include h

theorem extstoreWriteRequest_retired (bucket freeBucket len : ℕ) (env : IoEnv) :
    let r := extstoreWriteRequest e bucket freeBucket len env
    r.1.Retired page version ∧ ∀ id, r.2 = some id → (r.1.pages id).active = true := by
  intro r
  obtain ⟨e1, hfi, hc⟩ := extstoreWriteRequest_cases e bucket freeBucket len env
  have hre : e1.Retired page version := by
    obtain rfl | rfl := hfi
    · exact h
    · exact h.allocatePage bucket freeBucket
  obtain hr | ⟨id, p, hp, hc⟩ := hc
  · rw [show r = _ from hr]
    exact ⟨hre, by simp⟩
  obtain ⟨hv, ha⟩ :
      p.version = (e1.pages id).version ∧ p.active = (e1.pages id).active := by
    obtain rfl | rfl := hp
    · exact ⟨rfl, rfl⟩
    · exact ⟨(wbufFlushed_grows _).1, wbufFlushed_active _⟩
  obtain hr | ⟨hf, hr⟩ := hc
  · rw [show r = _ from hr]
    exact ⟨(hre.setPage id hv ha).allocatePage bucket freeBucket, by simp⟩
  have hv' := ((submitWbuf_grows p len).trans
    (allocateWbuf_grows e1 (submitWbuf p len) env.wbufFree)).1.trans hv
  have ha' : (allocateWbuf e1 (submitWbuf p len) env.wbufFree).active = p.active := by
    rw [allocateWbuf_active, submitWbuf_active]
  have hp : p.active = true := by
    rw [pageFull, Bool.or_eq_false_iff] at hf
    simpa using hf.1
  rw [show r = _ from hr]
  refine ⟨hre.setPage id hv' (ha'.trans ha), fun i hi => ?_⟩
  split_ifs at hi
  cases hi
  simp only [Engine.setPage, update_self]
  exact ha'.trans hp

theorem extstoreWrite_retired (ha : (e.pages id).active = true) (r : Record) :
    (extstoreWrite e id r).1.Retired page version ∧ ¬(extstoreWrite e id r).2.In page version := by
  have hio : ∀ o, ¬Loc.In ⟨id, (e.pages id).version, o⟩ page version := by
    rintro o ⟨rfl, hv⟩
    exact h.inactive ha hv
  rcases hw : (e.pages id).wbuf with _ | w
  · simp only [extstoreWrite, hw]
    exact ⟨h, hio _⟩
  simp only [extstoreWrite, hw]
  obtain ⟨hb, hi⟩ := h.setPage id (p := { e.pages id with
      wbuf := some { w with free := w.free - r.ntotal }
      bytesUsed := (e.pages id).bytesUsed + r.ntotal
      objCount := (e.pages id).objCount + 1 }) rfl rfl
  exact ⟨⟨hb, hi⟩, hio _⟩

theorem extstoreDelete_retired (id version' count bytes : ℕ) :
    (extstoreDelete e id version' count bytes).Retired page version := by
  unfold extstoreDelete
  simp only
  split_ifs
  · exact h.setPage _ rfl rfl
  · exact h

theorem writeTries_retired (r : Record) (env : ℕ → IoEnv) (n : ℕ) :
    (writeTries e r env n).1.Retired page version ∧
      ∀ io, (writeTries e r env n).2 = some io → ¬io.In page version := by
  induction n generalizing e env with
  | zero => exact ⟨h, by simp [writeTries]⟩
  | succ n ih =>
    obtain ⟨hr, ha⟩ :=
      extstoreWriteRequest_retired h pageBucketCompact pageBucketCompact r.ntotal (env 0)
    unfold writeTries
    rcases hre : extstoreWriteRequest e pageBucketCompact pageBucketCompact r.ntotal (env 0) with
      ⟨e1, granted⟩
    rw [hre] at hr ha
    cases granted with
    | none => exact ih hr fun n => env (n + 1)
    | some id =>
      obtain ⟨hw, ho⟩ := extstoreWrite_retired hr (ha id rfl) r
      refine ⟨hw, fun io hi => ?_⟩
      cases hi
      exact ho

end

/-! ## The walk -/

variable {w : Walk} {s : Store}

theorem compactRecord_retired (h : s.engine.Retired w.page w.version) (env : ℕ → IoEnv)
    (r : Record) : (compactRecord w env s r).engine.Retired w.page w.version := by
  have hd := extstoreDelete_retired h w.page w.version 1 r.ntotal
  have ht := (writeTries_retired hd r env 10).1
  revert ht
  unfold compactRecord
  obtain _ | item := s.table r.key
  · exact fun _ => h
  simp only
  obtain _ | loc := item.hdr
  · exact fun _ => h
  obtain ⟨e, io⟩ := writeTries (extstoreDelete s.engine w.page w.version 1 r.ntotal) r env 10
  cases io <;> simp only <;> split_ifs <;> intro ht <;> assumption

/-- The item linked under the key is a header that points at this place. -/
def Store.PointsAt (s : Store) (key : Bytes) (io : Loc) : Prop :=
  ∃ h, s.table key = some h ∧ h.hdr = some io

theorem compactRecord_pointsAt_iff (h : s.engine.Ok) {io : Loc} {r0 : Record}
    (hc : s.engine.content io = some r0) (hou : ¬io.In w.page w.version)
    (env : ℕ → IoEnv) (r : Record) (key : Bytes) :
    (compactRecord w env s r).PointsAt key io ↔ s.PointsAt key io := by
  obtain ⟨-, -, hca⟩ := compactRecord_cases h w env r
  unfold Store.PointsAt
  obtain hs | ⟨loc, io', item, ⟨item', hi', hm, -⟩, hi, ht, hf, -⟩ := hca
  · rw [hs]
  obtain rfl := Option.some.inj (hi.symm.trans hi')
  rw [ht]
  obtain rfl | hne := eq_or_ne key r.key
  · have ho : ¬∃ h, s.table r.key = some h ∧ h.hdr = some io := by
      rintro ⟨h, hh, hhd⟩
      obtain rfl := Option.some.inj (hi.symm.trans hh)
      obtain rfl := Option.some.inj (hm.1.symm.trans hhd)
      exact hou hm.2.2
    have hn : ¬∃ h, update s.table r.key (some { item with hdr := some io' }) r.key =
        some h ∧ h.hdr = some io := by
      rintro ⟨h, hh, hhd⟩
      rw [update_self] at hh
      cases hh
      cases hhd
      rw [hf] at hc
      cases hc
    exact iff_of_false hn ho
  · rw [update_of_ne hne]

theorem compactRecords_pointsAt_iff (records : List Record) (h : s.engine.Ok) {io : Loc}
    {r0 : Record} (hc : s.engine.content io = some r0) (ho : ¬io.In w.page w.version)
    (env : ℕ → ℕ → IoEnv) (key : Bytes) :
    (compactRecords w records env s).engine.content io = some r0 ∧
      ((compactRecords w records env s).PointsAt key io ↔ s.PointsAt key io) := by
  induction records generalizing s env with
  | nil => exact ⟨hc, Iff.rfl⟩
  | cons r rs ih =>
    obtain ⟨hok, hk, -⟩ := compactRecord_cases h w (env 0) r
    obtain ⟨hc', hi⟩ := ih hok (hk io r0 hc) fun n => env (n + 1)
    exact ⟨hc', hi.trans (compactRecord_pointsAt_iff h hc ho (env 0) r key)⟩

theorem compactRecords_append (w : Walk) (xs ys : List Record) (env : ℕ → ℕ → IoEnv)
    (s : Store) : compactRecords w (xs ++ ys) env s =
      compactRecords w ys (fun n => env (n + xs.length)) (compactRecords w xs env s) := by
  induction xs generalizing s env with
  | nil => rfl
  | cons x xs ih =>
    simp only [List.cons_append, compactRecords, List.length_cons, ih]
    congr 1

theorem compactRecords_retired (records : List Record) (h : s.engine.Ok)
    (hr : s.engine.Retired w.page w.version) (env : ℕ → ℕ → IoEnv) :
    (compactRecords w records env s).engine.Ok ∧
      (compactRecords w records env s).engine.Retired w.page w.version := by
  induction records generalizing s env with
  | nil => exact ⟨h, hr⟩
  | cons r rs ih =>
    exact ih (compactRecord_cases h w (env 0) r).1 (compactRecord_retired hr (env 0) r)
      fun n => env (n + 1)

/-- The record is in use when the walk comes to it, and is written again at `io`: the item
linked under its key is a live header of this page and version, and one of the tries to
get space succeeds. -/
def Rewritten (w : Walk) (env : ℕ → IoEnv) (s : Store) (r : Record) (io : Loc) : Prop :=
  ∃ item loc, s.table r.key = some item ∧ w.Matches item loc ∧
    (writeTries (extstoreDelete s.engine w.page w.version 1 r.ntotal) r env 10).2 = some io

theorem compactRecord_rewritten (h : s.engine.Ok) (hre : s.engine.Retired w.page w.version)
    (hd : w.dropUnread = false) {env : ℕ → IoEnv} {r : Record} {io : Loc}
    (hr : Rewritten w env s r io) :
    let s' := compactRecord w env s r
    s'.engine.content io = some r ∧ ¬io.In w.page w.version ∧
      (s'.PointsAt r.key io ↔ r.refcount = 2) := by
  obtain ⟨item, loc, hi, hm, hio⟩ := hr
  obtain ⟨hok, hco⟩ := extstoreDelete_spec h w.page w.version 1 r.ntotal
  have ho := (writeTries_retired
    (extstoreDelete_retired hre w.page w.version 1 r.ntotal) r env 10).2 io hio
  obtain ⟨-, hc⟩ := writeTries_spec hok r env 10
  rcases hw : writeTries (extstoreDelete s.engine w.page w.version 1 r.ntotal) r env 10
    with ⟨e, io'⟩
  rw [hw] at hio hc
  simp only at hio hc
  subst hio
  obtain ⟨hno, -⟩ | ⟨_, hs, -, hu⟩ := hc
  · cases hno
  cases hs
  have hn : ¬(w.dropUnread = true ∧ item.cold = true) := by simp [hd]
  have hrea : e.content io = some r := by rw [hu, update_self]
  simp only [compactRecord, hi, hm.1, if_pos hm, if_neg hn, hw]
  split_ifs with href
  · refine ⟨hrea, ho, iff_of_true ⟨_, update_self .., rfl⟩ href⟩
  refine ⟨hrea, ho, iff_of_false ?_ href⟩
  rintro ⟨item', hi', hh⟩
  obtain rfl := Option.some.inj (hi.symm.trans hi')
  obtain rfl := Option.some.inj (hm.1.symm.trans hh)
  exact ho hm.2.2

/-- **Rescue.** For every store, read-back buffer of a page that is written no more, and
whatever space the writes meet: a record of the walk that is in use when its turn
comes and that is written again has its copy at the new place, outside the old page,
when the walk is over; and its header points at the copy exactly when the reference
count that was stored with the record is two. -/
theorem compaction_rescues_iff (h : s.engine.Ok) (hretired : s.engine.Retired w.page w.version)
    (hdrop : w.dropUnread = false) (buf : ℕ → Option Record) (readSize : ℕ)
    (env : ℕ → ℕ → IoEnv) {before after : List Record} {r : Record} {io : Loc}
    (hwalk : visited buf readSize readSize 0 = before ++ r :: after)
    (hr : Rewritten w (env before.length) (compactRecords w before env s) r io) :
    let s' := storageCompactReadback w buf readSize env s
    s'.engine.content io = some r ∧ ¬io.In w.page w.version ∧
      (s'.PointsAt r.key io ↔ r.refcount = 2) := by
  obtain ⟨hok, hr'⟩ := compactRecords_retired before h hretired env
  obtain ⟨hc, ho, hi⟩ := compactRecord_rewritten hok hr' hdrop hr
  have ho' := (compactRecord_cases hok w (env before.length) r).1
  -- what follows the record leaves its copy and its header alone
  obtain ⟨hc', hre⟩ := compactRecords_pointsAt_iff after ho' hc ho
    (fun n => env (n + 1 + before.length)) r.key
  have hru : storageCompactReadback w buf readSize env s =
      compactRecords w after (fun n => env (n + 1 + before.length))
        (compactRecord w (env before.length) (compactRecords w before env s) r) := by
    rw [storageCompactReadback, hwalk, compactRecords_append, compactRecords, Nat.zero_add]
  rw [hru]
  exact ⟨hc', ho, hre.trans hi⟩

/-- `_wbuf_cb` for the last write buffer of a page (`extstore.c`, lines 474-482): the page is
on the device as a whole and takes no more records. -/
def retirePage (e : Engine) (id : ℕ) : Engine :=
  e.setPage id { e.pages id with active := false, wbuf := none }

theorem retirePage_ok (h : e.Ok) (id : ℕ) : (retirePage e id).Ok := by
  refine h.grow ⟨rfl, fun hf => ⟨by simp [StorePage.Fits], ?_⟩⟩
  unfold StorePage.frontier
  rcases hw : (e.pages id).wbuf with _ | w
  · exact le_refl _
  have hw' := hf w hw
  simp only
  omega

/-- An item under the key `a` that had this many references when it was written out. -/
def heldRecord (refs : ℕ) : Record := { recordOf "value" with refcount := refs }

/-- The item was stored and written out, and its page was filled up. -/
def writtenHeld (refs : ℕ) : Store :=
  let s := storageWrite (doSet ⟨fun _ => none, twoPages⟩ (ascii "a")) (heldRecord refs) 0 false
    ⟨false, true⟩
  { s with engine := retirePage s.engine 0 }

theorem writtenHeld_ok (refs : ℕ) : (writtenHeld refs).engine.Ok :=
  retirePage_ok (storageWrite_ok (s := doSet ⟨fun _ => none, twoPages⟩ _) twoPages_ok _ _ _ _) 0

/-- With the reference of the thread that writes it out and that of the hash table alone,
the item is rescued. -/
theorem compaction_rescues_iff_two :
    let s := writtenHeld 2
    let s' := storageCompactReadback ⟨false, 0, 1⟩ (readback s.engine 0 1 0) 500
      (fun _ _ => ⟨false, true⟩) s
    s.PointsAt (ascii "a") ⟨0, 1, 0⟩ ∧ s'.engine.content ⟨1, 2, 0⟩ = some (heldRecord 2) ∧
      s'.PointsAt (ascii "a") ⟨1, 2, 0⟩ := by
  have hre : (writtenHeld 2).engine.Retired 0 1 :=
    ⟨by decide +kernel, fun h => absurd h (by decide +kernel)⟩
  have hv : visited (readback (writtenHeld 2).engine 0 1 0) 500 500 0 =
      [] ++ heldRecord 2 :: [] := by decide +kernel
  have hi : (writtenHeld 2).table (ascii "a") = some ⟨some ⟨0, 1, 0⟩, true, false⟩ := by
    decide +kernel
  have hr : Rewritten ⟨false, 0, 1⟩ (fun _ => ⟨false, true⟩) (writtenHeld 2)
      (heldRecord 2) ⟨1, 2, 0⟩ :=
    ⟨_, _, hi, ⟨rfl, rfl, rfl, rfl⟩, by decide +kernel⟩
  obtain ⟨hc, -, hif⟩ := compaction_rescues_iff (w := ⟨false, 0, 1⟩) (writtenHeld_ok 2) hre
    rfl (readback (writtenHeld 2).engine 0 1 0) 500 (fun _ _ => ⟨false, true⟩) hv hr
  exact ⟨⟨_, hi, rfl⟩, hc, hif.mpr rfl⟩

/-- A third reference was held when the item was written out. Its header points at exactly
the record of the walk, the record is written again, and the header still points at
the old place, in the page that is closed next. -/
theorem rewritten_record_not_rescued :
    let s := writtenHeld 3
    let s' := storageCompactReadback ⟨false, 0, 1⟩ (readback s.engine 0 1 0) 500
      (fun _ _ => ⟨false, true⟩) s
    s.engine.Ok ∧ s.engine.Retired 0 1 ∧ s.PointsAt (ascii "a") ⟨0, 1, 0⟩ ∧
      visited (readback s.engine 0 1 0) 500 500 0 = [heldRecord 3] ∧
      Rewritten ⟨false, 0, 1⟩ (fun _ => ⟨false, true⟩) s (heldRecord 3) ⟨1, 2, 0⟩ ∧
      s'.PointsAt (ascii "a") ⟨0, 1, 0⟩ ∧ ¬s'.PointsAt (ascii "a") ⟨1, 2, 0⟩ := by
  intro s s'
  have hi : s.table (ascii "a") = some ⟨some ⟨0, 1, 0⟩, true, false⟩ := by decide +kernel
  have hi' : s'.table (ascii "a") = some ⟨some ⟨0, 1, 0⟩, true, false⟩ := by decide +kernel
  refine ⟨writtenHeld_ok 3, ⟨by decide +kernel, fun h => absurd h (by decide +kernel)⟩,
    ⟨_, hi, rfl⟩, by decide +kernel,
    ⟨_, _, hi, ⟨rfl, rfl, rfl, rfl⟩, by decide +kernel⟩, ⟨_, hi', rfl⟩, ?_⟩
  rintro ⟨item, hs, hh⟩
  obtain rfl := Option.some.inj (hi'.symm.trans hs)
  exact absurd hh (by decide)

end Memcached.Storage
