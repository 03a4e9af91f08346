import Memcached.Items.Rescue

/-!
# Items that go to external storage and come back

`storage_write` replaces an item by a header item and writes the item, with its flags, to
external storage. `md` with flag `I`, `touch` and `mg` then change the header item. When a
read brings the item back, `recache_or_free` takes the expiry time from the header item,
but all flags from the record, and linking gives it a new CAS value.

Results:
* `storage_invisible_iff`: when an item comes back as if it had not been away
-/

namespace Memcached.Items

/-! ## Marks -/

/-- The flags of `mg` that change an item. -/
inductive MgFlag where
  | ttl (exptime : ℕ)
  | recache (recacheTime : ℕ)
deriving DecidableEq

/-- The commands that change an item in place. -/
inductive Mark where
  | md (newTtl : Option ℕ)
  | touch (exptime : ℕ)
  | mg (flags : List MgFlag)
deriving DecidableEq

/-- The item of a key and the last CAS value that was given out. -/
structure Keyed where
  item : Item
  casId : ℕ

/-- `ITEM_set_cas(it, (settings.use_cas) ? get_cas_id() : 0)` -/
def Keyed.freshCas (S : Settings) (x : Keyed) : Keyed where
  item := { x.item with
    casUnique := if x.item.flags.cas then if S.useCas then (x.casId + 1) % 2 ^ 64 else 0
      else x.item.casUnique }
  casId := if x.item.flags.cas ∧ S.useCas then (x.casId + 1) % 2 ^ 64 else x.casId

/-- One flag of `mg` (`proto_text.c`, lines 1152-1172): the item, and whether a token was won. -/
def mgFlag (r : Item × Bool) : MgFlag → Item × Bool
  | .ttl exptime => ({ r.1 with exptime := exptime }, r.2)
  | .recache recacheTime =>
    (r.1, r.2 || (!r.1.flags.tokenSent && r.1.exptime ≠ 0 && r.1.exptime < recacheTime))

/-- The marks of `mg` behind its flags (`proto_text.c`, lines 1231-1251). -/
def mgMarks (r : Item × Bool) : Item :=
  if r.2 || (r.1.flags.stale && !r.1.flags.tokenSent) then
    { r.1 with flags := { r.1.flags with tokenSent := true } }
  else r.1

/-- A command on the linked item of the key. -/
def Mark.apply (S : Settings) (x : Keyed) : Mark → Keyed
  | .md newTtl => { x with item := invalidated x.item newTtl }.freshCas S
  | .touch exptime => { x with item := { x.item with exptime := exptime } }
  | .mg flags => { x with item := mgMarks (flags.foldl mgFlag (x.item, false)) }

/-! ## Out and back -/

/-- What an item and a header item are allocated with. -/
structure Memory where
  time : ℕ
  clsid : ℕ
  lru : Lru

/-- The header item that `storage_write` links (`storage.c`, lines 488-560), with the CAS value
of the item. The value is read from the record. -/
def writeHeader (S : Settings) (mem : Memory) (x : Keyed) : Keyed :=
  let hdr : Item :=
    { key := x.item.key
      suffix := x.item.flagsConv
      data := x.item.data
      exptime := x.item.exptime
      time := mem.time
      refcount := 1
      flags := { linked := true, cas := S.useCas, hdr := true, cflags := x.item.flagsConv ≠ 0 }
      clsid := mem.clsid
      lru := mem.lru
      casUnique := 0 }
  let linked := Keyed.freshCas S ⟨hdr, x.casId⟩
  { linked with
    item := { linked.item with
      casUnique := if linked.item.flags.cas then x.item.getCas else linked.item.casUnique } }

/-- The record that `storage_write` writes: the item without `ITEM_LINKED`. -/
def writeRecord (it : Item) : Item := { it with flags := { it.flags with linked := false } }

/-- `recache_or_free` (`storage.c`, lines 405-434): the record is linked in the place of the
header item. -/
def recacheOrFree (S : Settings) (record : Item) (hdr : Keyed) : Keyed :=
  Keyed.freshCas S
    { item := { record with
        exptime := hdr.item.exptime
        refcount := 1
        flags := { record.flags with linked := true } }
      casId := hdr.casId }

def SameView (a b : Item) : Prop := a.visible = b.visible ∧ a.getCas = b.getCas

/-! ## Without and with external storage -/

variable {S : Settings} {x : Keyed}

theorem writeHeader_casId (mem : Memory) :
    (writeHeader S mem x).casId = if S.useCas then (x.casId + 1) % 2 ^ 64 else x.casId := by
  simp [writeHeader, Keyed.freshCas]

theorem writeHeader_getCas (mem : Memory) (hc : x.item.flags.cas = S.useCas) :
    (writeHeader S mem x).item.getCas = x.item.getCas := by
  cases h : S.useCas <;> simp [writeHeader, Keyed.freshCas, Item.getCas, hc, h]

theorem writeHeader_flagsConv (mem : Memory) :
    (writeHeader S mem x).item.flagsConv = x.item.flagsConv := by
  by_cases h : x.item.flagsConv = 0
  · have hf : (writeHeader S mem x).item.flags.cflags = false := by
      simp [writeHeader, Keyed.freshCas, h]
    rw [h, Item.flagsConv, hf]
    rfl
  · have hf : (writeHeader S mem x).item.flags.cflags = true := by
      simp [writeHeader, Keyed.freshCas, h]
    rw [Item.flagsConv, if_pos hf]
    rfl

theorem writeHeader_sameView (mem : Memory) (hc : x.item.flags.cas = S.useCas) :
    SameView (writeHeader S mem x).item x.item ↔ x.item.Unmarked := by
  constructor
  · rintro ⟨hv, -⟩
    simp only [Item.visible, Prod.mk.injEq] at hv
    obtain ⟨-, -, -, -, hs, ht, hb⟩ := hv
    exact ⟨hs.symm, ht.symm, hb.symm⟩
  · rintro ⟨hs, ht, hb⟩
    refine ⟨?_, writeHeader_getCas mem hc⟩
    simp only [Item.visible, writeHeader_flagsConv, hs, ht, hb]
    rfl

/-! ## Marks keep the rest -/

structure SameBody (i i' : Item) : Prop where
  key : i'.key = i.key
  data : i'.data = i.data
  suffix : i'.suffix = i.suffix
  cflags : i'.flags.cflags = i.flags.cflags
  cas : i'.flags.cas = i.flags.cas
  keyBinary : i'.flags.keyBinary = i.flags.keyBinary

theorem SameBody.trans {i i' i'' : Item} (h : SameBody i i') (h' : SameBody i' i'') :
    SameBody i i'' where
  key := h'.key.trans h.key
  data := h'.data.trans h.data
  suffix := h'.suffix.trans h.suffix
  cflags := h'.cflags.trans h.cflags
  cas := h'.cas.trans h.cas
  keyBinary := h'.keyBinary.trans h.keyBinary

/-- The expiry time after the flags of `mg`. -/
def mgExptime (exptime : ℕ) : MgFlag → ℕ
  | .ttl exptime' => exptime'
  | .recache _ => exptime

theorem foldl_mgFlag (flags : List MgFlag) (i : Item) (won : Bool) :
    (flags.foldl mgFlag (i, won)).1 = { i with exptime := flags.foldl mgExptime i.exptime } := by
  induction flags generalizing i won with
  | nil => rfl
  | cons f fs ih =>
    cases f with
    | ttl exptime => exact ih { i with exptime := exptime } won
    | recache t => exact ih i _

def Mark.exptime (exptime : ℕ) : Mark → ℕ
  | .md newTtl => newTtl.getD exptime
  | .touch exptime' => exptime'
  | .mg flags => flags.foldl mgExptime exptime

theorem mgMarks_fields (r : Item × Bool) :
    SameBody r.1 (mgMarks r) ∧ (mgMarks r).exptime = r.1.exptime ∧
      (mgMarks r).casUnique = r.1.casUnique := by
  unfold mgMarks
  split_ifs
  · exact ⟨⟨rfl, rfl, rfl, rfl, rfl, rfl⟩, rfl, rfl⟩
  · exact ⟨⟨rfl, rfl, rfl, rfl, rfl, rfl⟩, rfl, rfl⟩

theorem Mark.apply_body (m : Mark) :
    SameBody x.item (m.apply S x).item ∧ (m.apply S x).item.exptime = m.exptime x.item.exptime := by
  cases m with
  | md newTtl => exact ⟨⟨rfl, rfl, rfl, rfl, rfl, rfl⟩, rfl⟩
  | touch exptime => exact ⟨⟨rfl, rfl, rfl, rfl, rfl, rfl⟩, rfl⟩
  | mg flags =>
    obtain ⟨hb, he, -⟩ := mgMarks_fields (flags.foldl mgFlag (x.item, false))
    rw [foldl_mgFlag] at hb he
    exact ⟨⟨hb.key, hb.data, hb.suffix, hb.cflags, hb.cas, hb.keyBinary⟩,
      he⟩

theorem Mark.apply_cas (m : Mark) (hc : x.item.flags.cas = true) (hus : S.useCas = true) :
    ((m.apply S x).casId = (x.casId + 1) % 2 ^ 64 ∧
        (m.apply S x).item.casUnique = (x.casId + 1) % 2 ^ 64 ∧ (∃ newTtl, m = .md newTtl)) ∨
      ((m.apply S x).casId = x.casId ∧ (m.apply S x).item.casUnique = x.item.casUnique ∧
        ∀ newTtl, m ≠ .md newTtl) := by
  cases m with
  | md newTtl =>
    refine Or.inl ⟨?_, ?_, newTtl, rfl⟩
    · simp [Mark.apply, Keyed.freshCas, invalidated, hc, hus]
    · simp [Mark.apply, Keyed.freshCas, invalidated, hc, hus]
  | touch exptime => exact Or.inr ⟨rfl, rfl, by rintro _ ⟨⟩⟩
  | mg flags =>
    obtain ⟨-, -, hu⟩ := mgMarks_fields (flags.foldl mgFlag (x.item, false))
    rw [foldl_mgFlag] at hu
    exact Or.inr ⟨rfl, hu, by rintro _ ⟨⟩⟩

/-- The same commands on the item of a store without external storage, and on a header item:
the expiry times agree, and the header's store is one CAS value ahead. -/
structure Tracks (S : Settings) (it : Item) (p h : Keyed) : Prop where
  body : SameBody it p.item
  exptime : h.item.exptime = p.item.exptime
  hdr : h.item.flags.cas = S.useCas
  ahead : S.useCas = true → h.casId = p.casId + 1
  below : S.useCas = true → p.item.casUnique ≤ p.casId

theorem Tracks.apply {it : Item} {p h : Keyed} (ht : Tracks S it p h)
    (hca : it.flags.cas = S.useCas) (hl : p.casId + 2 < 2 ^ 64) (m : Mark) :
    Tracks S it (m.apply S p) (m.apply S h) ∧ (m.apply S p).casId ≤ p.casId + 1 := by
  obtain ⟨hpb, hpe⟩ := m.apply_body (S := S) (x := p)
  obtain ⟨hhb, hhe⟩ := m.apply_body (S := S) (x := h)
  have hexp : (m.apply S h).item.exptime = (m.apply S p).item.exptime := by
    rw [hhe, hpe, ht.exptime]
  cases hu : S.useCas with
  | false =>
    have hc : (m.apply S p).casId = p.casId := by
      cases m <;> simp [Mark.apply, Keyed.freshCas, hu]
    exact ⟨⟨ht.body.trans hpb, hexp, hhb.cas.trans ht.hdr,
      fun h => absurd (hu.symm.trans h) nofun, fun h => absurd (hu.symm.trans h) nofun⟩,
      by omega⟩
  | true =>
    have hp : p.item.flags.cas = true := ht.body.cas.trans (hca.trans hu)
    have hh : h.item.flags.cas = true := ht.hdr.trans hu
    have ha := ht.ahead hu
    have hb := ht.below hu
    obtain ⟨hpi, hpc, newTtl, rfl⟩ | ⟨hpi, hpc, hn⟩ := m.apply_cas hp hu
    · obtain ⟨hhi, -, -⟩ | ⟨-, -, hn⟩ := Mark.apply_cas (x := h) (.md newTtl) hh hu
      · refine ⟨⟨ht.body.trans hpb, hexp, hhb.cas.trans ht.hdr, fun _ => ?_, fun _ => ?_⟩, ?_⟩
        · omega
        · omega
        · omega
      · exact absurd rfl (hn newTtl)
    · obtain ⟨-, -, newTtl, rfl⟩ | ⟨hhi, -, -⟩ := m.apply_cas hh hu
      · exact absurd rfl (hn newTtl)
      refine ⟨⟨ht.body.trans hpb, hexp, hhb.cas.trans ht.hdr, fun _ => ?_, fun _ => ?_⟩, ?_⟩
      · omega
      · omega
      · omega

theorem Tracks.foldl {it : Item} {p h : Keyed} (ht : Tracks S it p h)
    (hc : it.flags.cas = S.useCas) (marks : List Mark)
    (hl : p.casId + marks.length + 2 < 2 ^ 64) :
    Tracks S it (marks.foldl (Mark.apply S) p) (marks.foldl (Mark.apply S) h) ∧
      (marks.foldl (Mark.apply S) p).casId ≤ p.casId + marks.length := by
  induction marks generalizing p h with
  | nil => exact ⟨ht, le_rfl⟩
  | cons m ms ih =>
    rw [List.length_cons] at hl ⊢
    obtain ⟨ht', hle⟩ := ht.apply hc (by omega) m
    obtain ⟨ht'', hl'⟩ := ih ht' (by omega)
    exact ⟨ht'', by rw [List.foldl_cons]; omega⟩

theorem writeHeader_tracks (mem : Memory) (hb : x.item.casUnique ≤ x.casId)
    (hl : x.casId + 2 < 2 ^ 64) :
    Tracks S x.item x (writeHeader S mem x) where
  body := ⟨rfl, rfl, rfl, rfl, rfl, rfl⟩
  exptime := rfl
  hdr := rfl
  ahead hu := by
    rw [writeHeader_casId, if_pos hu]
    omega
  below _ := hb

theorem recacheOrFree_getCas {record : Item} {h : Keyed} (hc : record.flags.cas = S.useCas) :
    (recacheOrFree S record h).item.getCas =
      if S.useCas then (h.casId + 1) % 2 ^ 64 else 0 := by
  cases hu : S.useCas <;> simp [recacheOrFree, Keyed.freshCas, Item.getCas, hc, hu]

/-- The item that comes back shows what the item shows without external storage, but for a CAS
value, if the marks are those of the record. -/
theorem Tracks.recache_sameView {it : Item} {p h : Keyed} (ht : Tracks S it p h)
    (hca : it.flags.cas = S.useCas) (hl : p.casId + 2 < 2 ^ 64) :
    SameView (recacheOrFree S (writeRecord it) h).item p.item ↔
      S.useCas = false ∧ p.item.flags.stale = it.flags.stale ∧
        p.item.flags.tokenSent = it.flags.tokenSent := by
  have hg : (recacheOrFree S (writeRecord it) h).item.getCas =
      if S.useCas then (h.casId + 1) % 2 ^ 64 else 0 := recacheOrFree_getCas hca
  have hco : p.item.flagsConv = it.flagsConv := by
    rw [Item.flagsConv, Item.flagsConv, ht.body.cflags, ht.body.suffix]
  constructor
  · rintro ⟨hv, hc⟩
    simp only [Item.visible, Prod.mk.injEq] at hv
    obtain ⟨-, -, -, -, hs, hto, -⟩ := hv
    refine ⟨?_, hs.symm, hto.symm⟩
    -- the CAS value of the linked record is newer than any that was given out
    by_contra hu
    rw [Bool.not_eq_false] at hu
    have hp : p.item.flags.cas = true := ht.body.cas.trans (hca.trans hu)
    have ha := ht.ahead hu
    have hb := ht.below hu
    rw [hg, if_pos hu, Item.getCas, if_pos hp] at hc
    omega
  · rintro ⟨hu, hs, hto⟩
    have hp : p.item.flags.cas = false := ht.body.cas.trans (hca.trans hu)
    refine ⟨?_, ?_⟩
    · simp only [Item.visible, hco, ht.body.key, ht.body.data, ht.body.keyBinary, ← ht.exptime,
        hs, hto]
      rfl
    · rw [hg, hu, Item.getCas, hp]
      rfl

/-- Out and back: for every item and every commands on it in between. -/
theorem storage_invisible_iff (S : Settings) (mem : Memory) (x : Keyed)
    (hcas : x.item.flags.cas = S.useCas) (hbelow : x.item.casUnique ≤ x.casId)
    (marks : List Mark) (hlt : x.casId + marks.length + 2 < 2 ^ 64) :
    (SameView (writeHeader S mem x).item x.item ↔ x.item.Unmarked) ∧
      (SameView
          (recacheOrFree S (writeRecord x.item)
            (marks.foldl (Mark.apply S) (writeHeader S mem x))).item
          (marks.foldl (Mark.apply S) x).item ↔
        S.useCas = false ∧
          (marks.foldl (Mark.apply S) x).item.flags.stale = x.item.flags.stale ∧
          (marks.foldl (Mark.apply S) x).item.flags.tokenSent = x.item.flags.tokenSent) := by
  have ht : Tracks S x.item x (writeHeader S mem x) := writeHeader_tracks mem hbelow (by omega)
  obtain ⟨htr, hl⟩ := ht.foldl hcas marks hlt
  exact ⟨writeHeader_sameView mem hcas, htr.recache_sameView hcas (by omega)⟩

def plainItem (cas : Bool) : Item where
  key := ascii "a"
  suffix := 5
  data := ascii "value\r\n"
  exptime := 0
  time := 100
  refcount := 1
  flags := { linked := true, cas := cas, cflags := true }
  clsid := 3
  lru := .cold
  casUnique := if cas then 40 else 0

def plainSettings (useCas : Bool) : Settings where
  useCas := useCas
  lruSegmented := true
  tempLru := false
  temporaryTtl := 61
  evictToFree := true
  hotLruPct := 20
  warmLruPct := 40
  slabChunkSizeMax := 524288
  processStarted := 0
  slabsClsid _ := 3
  hash _ := 0

theorem storage_invisible_iff_touch :
    SameView (writeHeader (plainSettings false) ⟨100, 1, .cold⟩ ⟨plainItem false, 0⟩).item
        (plainItem false) ∧
      SameView
        (recacheOrFree (plainSettings false) (writeRecord (plainItem false))
          ([Mark.touch 500].foldl (Mark.apply (plainSettings false))
            (writeHeader (plainSettings false) ⟨100, 1, .cold⟩ ⟨plainItem false, 0⟩))).item
        ([Mark.touch 500].foldl (Mark.apply (plainSettings false)) ⟨plainItem false, 0⟩).item := by
  obtain ⟨hh, hb⟩ := storage_invisible_iff (plainSettings false) ⟨100, 1, .cold⟩
    ⟨plainItem false, 0⟩ rfl le_rfl [.touch 500] (by decide)
  exact ⟨hh.mpr ⟨rfl, rfl, rfl⟩, hb.mpr ⟨rfl, rfl, rfl⟩⟩

/-- An item comes back with another CAS value, and without the stale mark that `md` with flag
`I` gave its header item. -/
theorem recached_item_differs :
    (recacheOrFree (plainSettings true) (writeRecord (plainItem true))
        (writeHeader (plainSettings true) ⟨100, 1, .cold⟩ ⟨plainItem true, 40⟩)).item.getCas = 42 ∧
      (plainItem true).getCas = 40 ∧
      (recacheOrFree (plainSettings true) (writeRecord (plainItem true))
        ([Mark.md none].foldl (Mark.apply (plainSettings true))
          (writeHeader (plainSettings true) ⟨100, 1, .cold⟩
            ⟨plainItem true, 40⟩))).item.flags.stale = false ∧
      ([Mark.md none].foldl (Mark.apply (plainSettings true))
        ⟨plainItem true, 40⟩).item.flags.stale = true := by
  decide

end Memcached.Items
