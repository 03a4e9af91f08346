import Memcached.Storage.Extstore

/-!
# Compaction of a storage page (`storage.c`)

`storage_compact_readback` walks over the records in a part of a page that was read back.
A record is in use when the item under its key is a header of this page and version; it is
then copied to the compaction bucket and the header is pointed at the copy. The header's
offset is not compared with that of the record.

Results:
* `storageWrite_ok`: writing items out keeps the storage well formed
* `compaction_keeps_records_iff`: when a key keeps its value
* `older_record_installed`: an older value comes back
-/

namespace Memcached.Storage

open Function (update update_self update_of_ne)

/-! ## The walk -/

/-- A linked item: the `item_hdr` of an item with `ITEM_HDR`, whether it is neither
flushed nor expired, and whether it is in `COLD_LRU`. -/
structure Linked where
  hdr : Option Loc
  live : Bool
  cold : Bool
deriving DecidableEq

structure Store where
  table : Bytes → Option Linked
  engine : Engine

def pageBucketCompact : ℕ := 1

/-- `sizeof(struct _stritem)` -/
def sizeofItem : ℕ := 48

/-- The loop over `tries` (lines 828-838). -/
def writeTries (e : Engine) (r : Record) (env : ℕ → IoEnv) : ℕ → Engine × Option Loc
  | 0 => (e, none)
  | tries + 1 =>
    match extstoreWriteRequest e pageBucketCompact pageBucketCompact r.ntotal (env 0) with
    | (e, some id) =>
      let w := extstoreWrite e id r
      (w.1, some w.2)
    | (e, none) => writeTries e r (fun n => env (n + 1)) tries

/-- What a walk works on: the flag `drop_unread`, the page and its version. -/
structure Walk where
  dropUnread : Bool
  page : ℕ
  version : ℕ

/-- The item linked under the key of the record is a header of this page and version. -/
def Walk.Matches (w : Walk) (h : Linked) (loc : Loc) : Prop :=
  h.hdr = some loc ∧ h.live = true ∧ loc.page = w.page ∧ loc.version = w.version

instance (w : Walk) (h : Linked) (loc : Loc) : Decidable (w.Matches h loc) :=
  inferInstanceAs (Decidable (_ ∧ _))

/-- The body of the loop of `storage_compact_readback` (lines 797-862). -/
def compactRecord (w : Walk) (env : ℕ → IoEnv) (s : Store) (r : Record) : Store :=
  match s.table r.key with
  | none => s
  | some h =>
    match h.hdr with
    | none => s
    | some loc =>
      if w.Matches h loc then
        let e := extstoreDelete s.engine w.page w.version 1 r.ntotal
        if w.dropUnread = true ∧ h.cold = true then { s with engine := e }
        else
          match writeTries e r env 10 with
          | (e, none) => { s with engine := e }
          | (e, some io) =>
            if r.refcount = 2 then
              { table := update s.table r.key (some { h with hdr := some io })
                engine := e }
            else { s with engine := e }
      else s

/-- The records that the walk meets (lines 786-795 and 864-867): `buf` gives
the record at an offset of the buffer, `none` for zeroes. -/
def visited (buf : ℕ → Option Record) (readSize : ℕ) : (fuel offset : ℕ) → List Record
  | 0, _ => []
  | fuel + 1, offset =>
    if offset < readSize then
      match buf offset with
      | none => []
      | some r =>
        if offset + r.ntotal ≤ readSize ∧ readSize - (offset + r.ntotal) < sizeofItem then [r]
        else r :: visited buf readSize fuel (offset + r.ntotal)
    else []

/-- The records one after the other; `env` is what the writes of each one meet. -/
def compactRecords (w : Walk) : List Record → (ℕ → ℕ → IoEnv) → Store → Store
  | [], _, s => s
  | r :: rs, env, s => compactRecords w rs (fun n => env (n + 1)) (compactRecord w (env 0) s r)

/-- `storage_compact_readback` (lines 778-870). -/
def storageCompactReadback (w : Walk) (buf : ℕ → Option Record) (readSize : ℕ)
    (env : ℕ → ℕ → IoEnv) (s : Store) : Store :=
  compactRecords w (visited buf readSize readSize 0) env s

/-- The part of a page from `base` on, as it is read back. -/
def readback (e : Engine) (page version base : ℕ) : ℕ → Option Record :=
  fun offset => e.content ⟨page, version, base + offset⟩

/-- `storage_write` (lines 476-570) for an item that was pulled from the tail: the record is
written and a header item replaces the item. `cold` is the LRU that the header item is
linked into. -/
def storageWrite (s : Store) (r : Record) (bucket : ℕ) (cold : Bool) (env : IoEnv) : Store :=
  match extstoreWriteRequest s.engine bucket bucket r.ntotal env with
  | (e, none) => { s with engine := e }
  | (e, some id) =>
    let x := extstoreWrite e id r
    { table := update s.table r.key (some ⟨some x.2, true, cold⟩)
      engine := x.1 }

def doSet (s : Store) (key : Bytes) : Store :=
  { s with table := update s.table key (some ⟨none, true, false⟩) }

/-! ## Headers and their records -/

/-- Every linked header still points at its record, or at an identical copy of it, and
no record has changed. -/
def Preserved (s s' : Store) : Prop :=
  (∀ l r, s.engine.content l = some r → s'.engine.content l = some r) ∧
  ∀ key h loc, s.table key = some h → h.hdr = some loc →
    ∃ h' loc', s'.table key = some h' ∧ h'.hdr = some loc' ∧
      (loc' = loc ∨ ∃ r, s.engine.content loc = some r ∧ s'.engine.content loc' = some r)

/-- A record that the walk installs when it can write it. -/
def Walk.Installs (w : Walk) (s : Store) (r : Record) (loc : Loc) : Prop :=
  ∃ h, s.table r.key = some h ∧ w.Matches h loc ∧
    ¬(w.dropUnread = true ∧ h.cold = true) ∧ r.refcount = 2

/-- Every record that would be installed is the record its header points at. -/
def NoStaleRecord (w : Walk) (s : Store) (records : List Record) : Prop :=
  ∀ r ∈ records, ∀ loc, w.Installs s r loc → s.engine.content loc = some r

variable {w : Walk} {s s' : Store}

theorem storageWrite_ok (h : s.engine.Ok) (r : Record) (bucket : ℕ) (cold : Bool) (env : IoEnv) :
    (storageWrite s r bucket cold env).engine.Ok := by
  obtain ⟨ho, -, hr⟩ := extstoreWriteRequest_spec h bucket bucket r.ntotal env
  unfold storageWrite
  rcases hre : extstoreWriteRequest s.engine bucket bucket r.ntotal env with ⟨e, page⟩
  rw [hre] at ho hr
  cases page with
  | none => exact ho
  | some id => exact (extstoreWrite_spec ho (hr id rfl)).1

variable {e : Engine}

theorem writeTries_spec (h : e.Ok) (r : Record) (env : ℕ → IoEnv) (n : ℕ) :
    let x := writeTries e r env n
    x.1.Ok ∧ (x.2 = none ∧ x.1.content = e.content ∨
      ∃ io, x.2 = some io ∧ e.content io = none ∧
        x.1.content = update e.content io (some r)) := by
  induction n generalizing e env with
  | zero => exact ⟨h, .inl ⟨rfl, rfl⟩⟩
  | succ n ih =>
    obtain ⟨ho, hc, hr⟩ :=
      extstoreWriteRequest_spec h pageBucketCompact pageBucketCompact r.ntotal (env 0)
    unfold writeTries
    rcases hre : extstoreWriteRequest e pageBucketCompact pageBucketCompact r.ntotal (env 0) with
      ⟨e1, page⟩
    rw [hre] at ho hc hr
    simp only at ho hc hr
    cases page with
    | none =>
      obtain ⟨ho', hca⟩ := ih ho (fun n => env (n + 1))
      refine ⟨ho', ?_⟩
      rw [hc] at hca
      exact hca
    | some id =>
      obtain ⟨ho', hf, hw⟩ := extstoreWrite_spec ho (hr id rfl)
      rw [hc] at hf hw
      exact ⟨ho', .inr ⟨_, rfl, hf, hw⟩⟩

theorem compactRecord_cases (h : s.engine.Ok) (w : Walk) (env : ℕ → IoEnv) (r : Record) :
    let s' := compactRecord w env s r
    s'.engine.Ok ∧ (∀ l r', s.engine.content l = some r' → s'.engine.content l = some r') ∧
      (s'.table = s.table ∨
        ∃ loc io h, w.Installs s r loc ∧ s.table r.key = some h ∧
          s'.table = update s.table r.key (some { h with hdr := some io }) ∧
          s.engine.content io = none ∧ s'.engine.content io = some r) := by
  intro s'
  have hs' : s' = compactRecord w env s r := rfl
  unfold compactRecord at hs'
  rcases ht : s.table r.key with _ | item
  · rw [ht] at hs'
    rw [hs']
    exact ⟨h, fun _ _ hr => hr, .inl rfl⟩
  rw [ht] at hs'
  rcases hh : item.hdr with _ | loc
  · simp only [hh] at hs'
    rw [hs']
    exact ⟨h, fun _ _ hr => hr, .inl rfl⟩
  simp only [hh] at hs'
  by_cases hm : w.Matches item loc
  · obtain ⟨ho, hco⟩ := extstoreDelete_spec h w.page w.version 1 r.ntotal
    rw [if_pos hm] at hs'
    by_cases hd : w.dropUnread = true ∧ item.cold = true
    · rw [if_pos hd] at hs'
      rw [hs']
      refine ⟨ho, fun l r' hr => ?_, .inl rfl⟩
      rw [hco]
      exact hr
    rw [if_neg hd] at hs'
    obtain ⟨ho', hc⟩ := writeTries_spec ho r env 10
    rcases hw : writeTries (extstoreDelete s.engine w.page w.version 1 r.ntotal) r env 10
      with ⟨e1, io⟩
    rw [hw] at ho' hc hs'
    simp only at ho' hc hs'
    rw [hco] at hc
    obtain ⟨rfl, hs⟩ | ⟨io', rfl, hf, hu⟩ := hc
    · rw [hs']
      refine ⟨ho', fun l r' hr => ?_, .inl rfl⟩
      rw [hs]
      exact hr
    have hk : ∀ l r', s.engine.content l = some r' → e1.content l = some r' := by
      intro l r' hr
      have hn : l ≠ io' := by
        rintro rfl
        rw [hf] at hr
        cases hr
      rw [hu, update_of_ne hn]
      exact hr
    simp only at hs'
    split_ifs at hs' with hre
    · rw [hs']
      refine ⟨ho', hk, .inr ⟨loc, io', item, ⟨item, ht, hm, hd, hre⟩, rfl,
        rfl, hf, ?_⟩⟩
      simp only [hu, update_self]
    · rw [hs']
      exact ⟨ho', hk, .inl rfl⟩
  · rw [if_neg hm] at hs'
    rw [hs']
    exact ⟨h, fun _ _ hr => hr, .inl rfl⟩

/-- The walk up to here: every header has its record or a copy, and what would still be
installed under a key is what its header pointed at in the beginning. -/
theorem compactRecords_preserved {s0 : Store} {records : List Record} (h : s.engine.Ok)
    (env : ℕ → ℕ → IoEnv) (hp : Preserved s0 s)
    (hl : ∀ key h', s.table key = some h' → ∃ h, s0.table key = some h ∧
      h'.live = h.live ∧ h'.cold = h.cold ∧
      (h'.hdr = h.hdr ∨ ∃ loc, h.hdr = some loc ∧ w.Matches h loc))
    (hs : NoStaleRecord w s0 records) : Preserved s0 (compactRecords w records env s) := by
  induction records generalizing s env with
  | nil => exact hp
  | cons r rs ih =>
    obtain ⟨ho, hk, hca⟩ := compactRecord_cases h w (env 0) r
    have hs' : NoStaleRecord w s0 rs := fun r' hr' =>
      hs r' (.tail _ hr')
    obtain hsa | ⟨loc', io, item, hi, hite, ht, -, hco⟩ := hca
    · refine ih ho (fun n => env (n + 1)) ⟨fun l r' hr => hk l r' (hp.1 l r' hr), ?_⟩ ?_
        hs'
      · intro key h0 loc hke hlo
        obtain ⟨h', loc', hk', hl', hc⟩ := hp.2 key h0 loc hke hlo
        refine ⟨h', loc', by rw [hsa]; exact hk', hl', ?_⟩
        obtain he | ⟨r', hr', hr''⟩ := hc
        · exact .inl he
        · exact .inr ⟨r', hr', hk _ _ hr''⟩
      · rw [hsa]
        exact hl
    -- the record is installed: its header matched in the beginning as well
    obtain ⟨item', hi', hm, hd, href⟩ := hi
    obtain rfl : item = item' := Option.some.inj (hite.symm.trans hi')
    obtain ⟨h0, hk0, hl0, hc0, hh0⟩ := hl r.key item hite
    obtain ⟨loc0, hlo0, hm0⟩ : ∃ loc0, h0.hdr = some loc0 ∧ w.Matches h0 loc0 := by
      obtain he | hma := hh0
      · refine ⟨loc', he.symm.trans hm.1, he.symm.trans hm.1, ?_, hm.2.2⟩
        rw [← hl0]
        exact hm.2.1
      · exact hma
    have hre : s0.engine.content loc0 = some r := by
      refine hs r (.head _) loc0 ⟨h0, hk0, hm0, ?_, href⟩
      rw [← hc0]
      exact hd
    refine ih ho (fun n => env (n + 1)) ⟨fun l r' hr => hk l r' (hp.1 l r' hr), ?_⟩ ?_
      hs'
    · intro key h1 loc hke hlo
      obtain rfl | hn := eq_or_ne key r.key
      · obtain rfl : h0 = h1 := Option.some.inj (hk0.symm.trans hke)
        obtain rfl : loc0 = loc := Option.some.inj (hlo0.symm.trans hlo)
        exact ⟨_, io, by rw [ht, update_self], rfl, .inr ⟨r, hre, hco⟩⟩
      obtain ⟨h', loc'', hk', hl', hc⟩ := hp.2 key h1 loc hke hlo
      refine ⟨h', loc'', by rw [ht, update_of_ne hn]; exact hk', hl', ?_⟩
      obtain he | ⟨r', hr', hr''⟩ := hc
      · exact .inl he
      · exact .inr ⟨r', hr', hk _ _ hr''⟩
    · intro key h' hk'
      rw [ht] at hk'
      obtain rfl | hn := eq_or_ne key r.key
      · rw [update_self] at hk'
        cases hk'
        exact ⟨h0, hk0, hl0, hc0, .inr ⟨loc0, hlo0, hm0⟩⟩
      · rw [update_of_ne hn] at hk'
        exact hl key h' hk'

/-! ## A stale record is installed when there is room for it -/

/-- The page `id` of the compaction bucket takes no record without a new write buffer. -/
structure Stuck (e : Engine) (id : ℕ) : Prop where
  bucket : e.pageBuckets pageBucketCompact = some id
  active : (e.pages id).active = true
  room : (e.pages id).allocated < e.pageSize
  wbuf : ∀ w, (e.pages id).wbuf = some w → w.free = 0

variable {id : ℕ}

theorem Stuck.request (h : Stuck e id) {len : ℕ} (hl : 0 < len) :
    ∃ e', extstoreWriteRequest e pageBucketCompact pageBucketCompact len ⟨false, false⟩ =
        (e', none) ∧ Stuck e' id ∧ e'.content = e.content ∧ e'.wbufSize = e.wbufSize ∧
      e'.pageSize = e.pageSize ∧
      ((e.pages id).wbuf = none → (e'.pages id).wbuf = none ∧
        (e'.pages id).allocated = (e.pages id).allocated) := by
  have hfu : pageFull e (e.pages id) = false := by
    have hr := h.room
    simp only [pageFull, h.active, Bool.not_true, Bool.false_or, Bool.and_eq_false_iff,
      decide_eq_false_iff_not]
    right
    omega
  have hp : allocateWbuf e (submitWbuf (e.pages id) len) false = submitWbuf (e.pages id) len :=
    if_neg (by simp)
  have hr : hasRoom (submitWbuf (e.pages id) len) len = false := by
    unfold hasRoom submitWbuf
    rcases hw : (e.pages id).wbuf with _ | w
    · simp [hw]
    have hf := h.wbuf w hw
    simp only
    split_ifs with hs
    · simp
    simp only [hw, hf, Bool.and_eq_false_iff, decide_eq_false_iff_not]
    right
    omega
  refine ⟨e.setPage id (submitWbuf (e.pages id) len), ?_, ⟨h.bucket, ?_, ?_, ?_⟩, rfl, rfl, rfl, ?_⟩
  · simp only [extstoreWriteRequest, h.bucket, Bool.false_eq_true, if_false, hfu, hp, hr]
  · simp only [Engine.setPage, update_self]
    unfold submitWbuf
    split
    · split_ifs <;> exact h.active
    · exact h.active
  · simp only [Engine.setPage, update_self]
    unfold submitWbuf
    split
    · split_ifs <;> exact h.room
    · exact h.room
  · simp only [Engine.setPage, update_self]
    unfold submitWbuf
    split
    · rename_i w hw
      split_ifs
      · rintro w' hw'
        cases hw'
        exact h.wbuf w hw
      · exact h.wbuf
    · exact h.wbuf
  · intro hn
    simp [Engine.setPage, submitWbuf, hn]

def noWbuf : ℕ → IoEnv := fun _ => ⟨false, false⟩

theorem Stuck.writeTries (h : Stuck e id) (r : Record) (n : ℕ) :
    ∃ e', writeTries e r noWbuf n = (e', none) ∧ Stuck e' id ∧ e'.content = e.content ∧
      e'.wbufSize = e.wbufSize ∧ e'.pageSize = e.pageSize ∧
      ((e.pages id).wbuf = none → (e'.pages id).wbuf = none ∧
        (e'.pages id).allocated = (e.pages id).allocated) := by
  induction n generalizing e with
  | zero => exact ⟨e, rfl, h, rfl, rfl, rfl, fun hn => ⟨hn, rfl⟩⟩
  | succ n ih =>
    obtain ⟨e1, hr, hs, hc, hsi, hp, hn⟩ := h.request r.ntotal_pos
    obtain ⟨e2, ht, hs', hc', hsi', hp', hn'⟩ := ih hs
    refine ⟨e2, ?_, hs', hc'.trans hc, hsi'.trans hsi, hp'.trans hp,
      fun hw => ?_⟩
    · have hr' : extstoreWriteRequest e pageBucketCompact pageBucketCompact r.ntotal
          (noWbuf 0) = (e1, none) := hr
      simp only [Storage.writeTries, hr']
      exact ht
    · obtain ⟨hw1, ha1⟩ := hn hw
      obtain ⟨hw2, ha2⟩ := hn' hw1
      exact ⟨hw2, ha2.trans ha1⟩

theorem Stuck.extstoreDelete {id page : ℕ} (h : Stuck e id) (hn : id ≠ page) (version bytes : ℕ) :
    Stuck (extstoreDelete e page version 1 bytes) id ∧
      (extstoreDelete e page version 1 bytes).pages id = e.pages id ∧
      (extstoreDelete e page version 1 bytes).content = e.content ∧
      (extstoreDelete e page version 1 bytes).wbufSize = e.wbufSize ∧
      (extstoreDelete e page version 1 bytes).pageSize = e.pageSize := by
  unfold Storage.extstoreDelete
  simp only
  split_ifs
  · have hp : ∀ p, (e.setPage page p).pages id = e.pages id := fun p => by
      simp [Engine.setPage, hn]
    refine ⟨⟨h.bucket, ?_, ?_, ?_⟩, hp _, rfl, rfl, rfl⟩
    · rw [hp]
      exact h.active
    · rw [hp]
      exact h.room
    · rw [hp]
      exact h.wbuf
  · exact ⟨h, rfl, rfl, rfl, rfl⟩

theorem Stuck.compactRecord (h : Stuck s.engine id) (hne : id ≠ w.page) (r : Record) :
    let s' := compactRecord w noWbuf s r
    s'.table = s.table ∧ Stuck s'.engine id ∧ s'.engine.content = s.engine.content ∧
      s'.engine.wbufSize = s.engine.wbufSize ∧ s'.engine.pageSize = s.engine.pageSize ∧
      ((s.engine.pages id).wbuf = none → (s'.engine.pages id).wbuf = none ∧
        (s'.engine.pages id).allocated = (s.engine.pages id).allocated) := by
  obtain ⟨hdel, hdelP, hd, hdelS, hde⟩ :=
    h.extstoreDelete hne w.version r.ntotal
  unfold Storage.compactRecord
  obtain _ | item := s.table r.key
  · exact ⟨rfl, h, rfl, rfl, rfl, fun hn => ⟨hn, rfl⟩⟩
  simp only
  rcases hh : item.hdr with _ | loc
  · exact ⟨rfl, h, rfl, rfl, rfl, fun hn => ⟨hn, rfl⟩⟩
  simp only
  by_cases hm : w.Matches item loc
  · rw [if_pos hm]
    by_cases hdro : w.dropUnread = true ∧ item.cold = true
    · rw [if_pos hdro]
      refine ⟨rfl, hdel, hd, hdelS, hde, fun hn => ?_⟩
      simp only [hdelP]
      exact ⟨hn, trivial⟩
    rw [if_neg hdro]
    obtain ⟨e', ht, hs, hc, hsi, hp, hn⟩ := hdel.writeTries r 10
    simp only [ht]
    rw [hdelP] at hn
    exact ⟨trivial, hs, hc.trans hd, hsi.trans hdelS,
      hp.trans hde, hn⟩
  · rw [if_neg hm]
    exact ⟨rfl, h, rfl, rfl, rfl, fun hn => ⟨hn, rfl⟩⟩

theorem Stuck.compactRecords (h : Stuck s.engine id) (hn : id ≠ w.page) (records : List Record) :
    let s' := compactRecords w records (fun _ => noWbuf) s
    s'.table = s.table ∧ s'.engine.content = s.engine.content := by
  induction records generalizing s with
  | nil => exact ⟨rfl, rfl⟩
  | cons r rs ih =>
    obtain ⟨ht, hs, hc, -⟩ := h.compactRecord (w := w) hn r
    obtain ⟨ht', hc'⟩ := ih hs
    exact ⟨ht'.trans ht, hc'.trans hc⟩

def freeWbuf : ℕ → IoEnv := fun _ => ⟨false, true⟩

/-- The page of the compaction bucket has no write buffer yet, and there is room for one
that the record fills. -/
structure Roomy (e : Engine) (id : ℕ) (r : Record) : Prop where
  stuck : Stuck e id
  wbuf : (e.pages id).wbuf = none
  room : (e.pages id).allocated + r.ntotal < e.pageSize
  size : e.wbufSize = r.ntotal

theorem Roomy.writeTries {r : Record} (h : Roomy e id r) (n : ℕ) :
    ∃ e' io, writeTries e r freeWbuf (n + 1) = (e', some io) ∧ io.page = id ∧
      e'.content = update e.content io (some r) ∧ Stuck e' id := by
  have hr := h.stuck.room
  have hf : pageFull e (e.pages id) = false := by
    simp only [pageFull, h.stuck.active, Bool.not_true, Bool.false_or, Bool.and_eq_false_iff,
      decide_eq_false_iff_not]
    right
    omega
  have hs : submitWbuf (e.pages id) r.ntotal = e.pages id := by
    simp only [submitWbuf, h.wbuf]
  let p : StorePage := { e.pages id with
    allocated := (e.pages id).allocated + e.wbufSize
    wbuf := some ⟨(e.pages id).allocated, e.wbufSize, e.wbufSize, false⟩ }
  have ha : allocateWbuf e (e.pages id) true = p := if_pos (by simp [h.wbuf, hr])
  have hh : hasRoom p r.ntotal = true := by simp [hasRoom, p, h.size]
  have hre : extstoreWriteRequest e pageBucketCompact pageBucketCompact r.ntotal (freeWbuf 0) =
      (e.setPage id p, some id) := by
    simp only [extstoreWriteRequest, freeWbuf, h.stuck.bucket, Bool.false_eq_true, if_false, hf,
      hs, ha, hh, if_true]
  refine ⟨_, _, by simp only [Storage.writeTries, hre]; rfl, ?_, ?_, ⟨?_, ?_, ?_, ?_⟩⟩
  · simp [extstoreWrite, Engine.setPage, p]
  · simp [extstoreWrite, Engine.setPage, p]
  · simpa [extstoreWrite, Engine.setPage, p] using h.stuck.bucket
  · simpa [extstoreWrite, Engine.setPage, p] using h.stuck.active
  · simpa [extstoreWrite, Engine.setPage, p, h.size] using h.room
  intro w hw
  simp only [extstoreWrite, Engine.setPage, p, update_self, Option.some.injEq] at hw
  rw [← hw]
  simp [h.size]

theorem Roomy.compactRecord {r : Record} {loc : Loc} (h : Roomy s.engine id r)
    (hn : id ≠ w.page) (hi : w.Installs s r loc) :
    ∃ (item : Linked) (io : Loc), (compactRecord w freeWbuf s r).table =
        update s.table r.key (some { item with hdr := some io }) ∧ io.page = id ∧
      (compactRecord w freeWbuf s r).engine.content io = some r ∧
      Stuck (compactRecord w freeWbuf s r).engine id := by
  obtain ⟨item, ht, hm, hd, hre⟩ := hi
  obtain ⟨hde, hp, -, hsi, hps⟩ := h.stuck.extstoreDelete hn w.version r.ntotal
  have hr : Roomy (extstoreDelete s.engine w.page w.version 1 r.ntotal) id r := by
    refine ⟨hde, ?_, ?_, hsi.trans h.size⟩
    · rw [hp]
      exact h.wbuf
    · rw [hp, hps]
      exact h.room
  obtain ⟨e', io, htr, hio, hc, hs⟩ := hr.writeTries 9
  have he : Storage.compactRecord w freeWbuf s r =
      ⟨update s.table r.key (some { item with hdr := some io }), e'⟩ := by
    simp only [Storage.compactRecord, ht, hm.1, if_pos hm, if_neg hd, htr,
      if_pos hre]
  rw [he]
  exact ⟨item, io, rfl, hio, by simp [hc], hs⟩

/-- Only the writes of record number `k` meet a free write buffer. -/
def onlyAt (k : ℕ) : ℕ → ℕ → IoEnv := fun n => if n = k then freeWbuf else noWbuf

theorem Roomy.compactRecords {r : Record} {loc : Loc} (before after : List Record)
    (h : Roomy s.engine id r) (hne : id ≠ w.page) (hi : w.Installs s r loc) :
    ∃ (item : Linked) (io : Loc),
      (compactRecords w (before ++ r :: after) (onlyAt before.length) s).table r.key =
        some { item with hdr := some io } ∧ io.page = id ∧
      (compactRecords w (before ++ r :: after) (onlyAt before.length) s).engine.content io =
        some r := by
  induction before generalizing s with
  | nil =>
    obtain ⟨item, io, ht, hio, hc, hs⟩ := h.compactRecord hne hi
    obtain ⟨ht', hc'⟩ := hs.compactRecords (w := w) hne after
    have hru : Storage.compactRecords w ([] ++ r :: after) (onlyAt 0) s =
        Storage.compactRecords w after (fun _ => noWbuf) (Storage.compactRecord w freeWbuf s r) :=
      rfl
    refine ⟨item, io, ?_, hio, ?_⟩
    · rw [List.length_nil, hru, ht', ht, update_self]
    · rw [List.length_nil, hru, hc']
      exact hc
  | cons x before ih =>
    obtain ⟨ht, hs, -, hsi, hp, hn⟩ := h.stuck.compactRecord (w := w) hne x
    obtain ⟨hw, ha⟩ := hn h.wbuf
    have hr : Roomy (Storage.compactRecord w noWbuf s x).engine id r := by
      refine ⟨hs, hw, ?_, hsi.trans h.size⟩
      rw [ha, hp]
      exact h.room
    have hi' : w.Installs (Storage.compactRecord w noWbuf s x) r loc := by
      obtain ⟨item, hite, hre⟩ := hi
      exact ⟨item, by rw [ht]; exact hite, hre⟩
    have he : (fun n => onlyAt (x :: before).length (n + 1)) = onlyAt before.length := by
      funext n
      simp [onlyAt]
    have hz : onlyAt (x :: before).length 0 = noWbuf := by simp [onlyAt]
    simp only [List.cons_append, Storage.compactRecords, hz, he]
    exact ih hr hi'

/-- An engine with the same records that has room for the record in page `id`. -/
def roomyEngine (e : Engine) (id : ℕ) (r : Record) : Engine :=
  { e with
    pages := update e.pages id ⟨e.version, 0, 0, 0, true, false, none⟩
    pageBuckets := fun _ => some id
    version := e.version + 1
    pageSize := r.ntotal + 1
    wbufSize := r.ntotal }

theorem roomyEngine_ok (h : e.Ok) (id : ℕ) (r : Record) : (roomyEngine e id r).Ok := by
  refine ⟨fun l hl => h.version l (le_trans (Nat.le_succ _) hl), fun i => ?_, fun i o ho => ?_,
    fun i => ?_⟩
  · obtain rfl | hi := eq_or_ne i id
    · simp [roomyEngine]
    have hlt := h.below i
    simp only [roomyEngine, update_of_ne hi]
    omega
  · obtain rfl | hi := eq_or_ne i id
    · exact h.version _ (by simp [roomyEngine])
    · simp only [roomyEngine, update_of_ne hi] at ho ⊢
      exact h.frontier i o ho
  · obtain rfl | hi := eq_or_ne i id
    · simp [roomyEngine, StorePage.Fits]
    · simpa [roomyEngine, hi] using h.fits i

theorem roomyEngine_roomy (e : Engine) (id : ℕ) (r : Record) : Roomy (roomyEngine e id r) id r := by
  refine ⟨⟨rfl, ?_, ?_, ?_⟩, ?_, ?_, rfl⟩ <;> simp [roomyEngine]

/-- **Compaction.** For every hash table, page content and read-back buffer: whatever space
the storage has and however its writes go, every linked header still points at its
record or at an identical copy of it, exactly when every record of the walk that
would be installed is the one that its header points at. -/
theorem compaction_keeps_records_iff (h : s.engine.Ok) (w : Walk) (buf : ℕ → Option Record)
    (readSize : ℕ) :
    (∀ e : Engine, e.Ok → e.content = s.engine.content → ∀ env,
        Preserved { s with engine := e }
          (storageCompactReadback w buf readSize env { s with engine := e })) ↔
      NoStaleRecord w s (visited buf readSize readSize 0) := by
  constructor
  · -- with room for the stale record alone, the walk installs it
    intro hp r hr loc hi
    obtain ⟨before, after, hs⟩ := List.append_of_mem hr
    have hn : w.page + 1 ≠ w.page := by omega
    have hro := roomyEngine_roomy s.engine (w.page + 1) r
    have hi' : w.Installs { s with engine := roomyEngine s.engine (w.page + 1) r } r loc :=
      hi
    obtain ⟨item, io, ht, hio, hc⟩ :=
      Roomy.compactRecords before after hro hn hi'
    obtain ⟨old, ho, hm, -⟩ := hi
    obtain ⟨-, hh⟩ := hp _ (roomyEngine_ok h (w.page + 1) r) rfl
      (onlyAt before.length)
    obtain ⟨h', loc', hk', hl', hco⟩ := hh r.key old loc ho hm.1
    unfold storageCompactReadback at hk' hco
    rw [hs] at hk' hco
    obtain rfl := Option.some.inj (ht.symm.trans hk')
    obtain rfl : io = loc' := Option.some.inj hl'
    obtain rfl | ⟨r', hr', hr''⟩ := hco
    · have hpa := hm.2.2.1
      omega
    · obtain rfl : r = r' := Option.some.inj (hc.symm.trans hr'')
      exact hr'
  · intro hst e hok hc env
    refine compactRecords_preserved hok env
      ⟨fun _ _ hr => hr, fun key h0 loc hk hl => ⟨h0, loc, hk, hl, .inl rfl⟩⟩
      (fun key h' hk => ⟨h', hk, rfl, rfl, .inl rfl⟩) ?_
    intro r hr loc hi
    show e.content loc = some r
    rw [hc]
    exact hst r hr loc hi

/-- An engine with one page in use for new records and one free page. -/
def twoPages : Engine where
  pages := fun id => ⟨if id = 0 then 1 else 0, 0, 0, 0, decide (id = 0), false, none⟩
  pageBuckets := fun bucket => if bucket = 0 then some 0 else none
  pageFreelist := [1]
  freePageBuckets := fun _ => []
  pageFree := 1
  version := 2
  pageSize := 1000
  wbufSize := 500
  content := fun _ => none

theorem twoPages_ok : twoPages.Ok := by
  refine ⟨fun _ _ => rfl, fun id => ?_, fun _ _ _ => rfl, fun _ w hw => ?_⟩
  · show (if id = 0 then 1 else 0) < 2
    split_ifs <;> omega
  · cases hw

def recordOf (body : String) : Record := ⟨ascii "a", 60, 2, ascii body, Nat.succ_pos 59⟩

/-- The key `a` was stored and written out with each of the bodies. -/
def written (bodies : List String) : Store :=
  bodies.foldl (fun s body =>
    storageWrite (doSet s (recordOf body).key) (recordOf body) 0 false ⟨false, true⟩)
    ⟨fun _ => none, twoPages⟩

theorem written_ok (bodies : List String) : (written bodies).engine.Ok := by
  unfold written
  refine List.foldlRecOn (motive := fun s : Store => s.engine.Ok) bodies _ twoPages_ok ?_
  intro s hs body _
  exact storageWrite_ok (s := doSet s _) hs _ _ _ _

theorem compaction_keeps_records_iff_written :
    (written ["new"]).engine.Ok ∧
      ∀ e : Engine, e.Ok → e.content = (written ["new"]).engine.content →
        ∀ env, Preserved { written ["new"] with engine := e }
          (storageCompactReadback ⟨false, 0, 1⟩ (readback (written ["new"]).engine 0 1 0) 500 env
            { written ["new"] with engine := e }) := by
  have ho : (written ["new"]).engine.Ok := written_ok ["new"]
  refine ⟨ho, (compaction_keeps_records_iff ho _ _ _).mpr ?_⟩
  have hv : visited (readback (written ["new"]).engine 0 1 0) 500 500 0 =
      [recordOf "new"] := by decide +kernel
  have ht : (written ["new"]).table (ascii "a") = some ⟨some ⟨0, 1, 0⟩, true, false⟩ := by
    decide +kernel
  intro r hr loc hi
  rw [hv] at hr
  obtain rfl := List.mem_singleton.mp hr
  obtain ⟨item, hite, hm, -⟩ := hi
  obtain rfl := Option.some.inj (ht.symm.trans hite)
  obtain rfl := Option.some.inj hm.1
  decide +kernel

/-- The header of the key points at the newer record, and after the walk over the page
at a copy of the older one. -/
theorem older_record_installed :
    let s := written ["old", "new"]
    let s' := storageCompactReadback ⟨false, 0, 1⟩ (readback s.engine 0 1 0) 500
      (fun _ _ => ⟨false, true⟩) s
    s.table (ascii "a") = some ⟨some ⟨0, 1, 60⟩, true, false⟩ ∧
      s.engine.content ⟨0, 1, 60⟩ = some (recordOf "new") ∧
      s'.table (ascii "a") = some ⟨some ⟨1, 2, 0⟩, true, false⟩ ∧
      s'.engine.content ⟨1, 2, 0⟩ = some (recordOf "old") ∧ ¬Preserved s s' := by
  intro s s'
  have hb : s.table (ascii "a") = some ⟨some ⟨0, 1, 60⟩, true, false⟩ := by decide +kernel
  have hn : s.engine.content ⟨0, 1, 60⟩ = some (recordOf "new") := by decide +kernel
  have ha : s'.table (ascii "a") = some ⟨some ⟨1, 2, 0⟩, true, false⟩ := by decide +kernel
  have ho : s'.engine.content ⟨1, 2, 0⟩ = some (recordOf "old") := by decide +kernel
  refine ⟨hb, hn, ha, ho, fun hp => ?_⟩
  obtain ⟨h', loc', hk, hl, hc⟩ := hp.2 _ _ _ hb rfl
  obtain rfl := Option.some.inj (ha.symm.trans hk)
  cases hl
  obtain hs | ⟨r, hr, hr'⟩ := hc
  · exact absurd hs (by decide)
  have hs : recordOf "new" = recordOf "old" :=
    Option.some.inj (hn.symm.trans (hr.trans (hr'.symm.trans ho)))
  exact absurd hs (by decide)

end Memcached.Storage
