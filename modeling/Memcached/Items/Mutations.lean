import Memcached.Items.Effects

/-!
# What storing an item changes

`Published` is the part of `Evolves` that other clients see: the linked items. An
operation that stores an item is described by `Stores`: a new item takes the
place of whatever the key had.

Results:
* `doItemLink_stores`, `doItemReplace_stores`: linking and replacing store an item
* `doItemGet_of_missing`, `doItemGet_of_hit`: lookups, without and with a live item
* `NewItem.replace`: a new item in the place of an old one
-/

namespace Memcached.Items

open Lib Assoc

variable {Addr : Type*} [DecidableEq Addr] [Fintype Addr] {S : Settings}
  {s s' s'' s1 : Store Addr} {a b new old : Addr} {L L' T : Addr → Prop}

/-! ## The relations -/

/-- No item is linked or changed, and only items of `lost` are unlinked. Items that are
not linked may be new, or written to by their owners. -/
structure Published (S : Settings) (lost : Addr → Prop) (s s' : Store Addr) : Prop where
  inv : Inv S s'
  linked : ∀ b, s'.Linked b → s.Linked b ∧ (s'.items b).content = (s.items b).content ∧
    (s'.items b).time = (s.items b).time
  lost : ∀ b, s.Linked b → s'.Linked b ∨ lost b
  casId : s'.casId = s.casId
  clock : s'.clock = s.clock

theorem Quiet.published (h : Quiet S L nothing s s') : Published S L s s' where
  inv := h.inv
  linked := fun b hb =>
    have hsl := h.inv.not_slabbed_of_linked hb
    ⟨h.linked b hb, h.content b hsl, (h.time b hsl).resolve_right And.left⟩
  lost := h.lost
  casId := h.casId
  clock := h.clock

section

variable (h : Published S L s s')
include h

theorem Published.trans (h' : Published S L' s' s'') :
    Published S (fun b => L b ∨ L' b) s s'' where
  inv := h'.inv
  linked := fun b hb =>
    have ⟨hb', hc', ht'⟩ := h'.linked b hb
    have ⟨hl, hc, ht⟩ := h.linked b hb'
    ⟨hl, hc'.trans hc, ht'.trans ht⟩
  lost := fun b hb => by
    obtain hb | hb := h.lost b hb
    · exact (h'.lost b hb).imp_right .inr
    · exact .inr (.inl hb)
  casId := h'.casId.trans h.casId
  clock := h'.clock.trans h.clock

theorem Published.mono (hL : ∀ b, s.Linked b → L b → L' b) : Published S L' s s' :=
  { h with lost := fun b hb => (h.lost b hb).imp_right (hL b hb) }

theorem Published.key_eq (hb : s'.Linked b) : s'.key b = s.key b :=
  Item.key_eq (h.linked b hb).2.1

end

theorem Published.of_items {it : Item} (hin : Inv S s')
    (hi : ∀ b, s'.items b = if b = a then it else s.items b) (hl : ¬s.Linked a)
    (hl' : it.flags.linked = (s.items a).flags.linked) (hc : s'.casId = s.casId)
    (hcl : s'.clock = s.clock) : Published S nothing s s' := by
  have hli : ∀ b, s'.Linked b ↔ s.Linked b := fun b =>
    Eq.congr_left (proj_of_items (fun it => it.flags.linked) hi hl' b)
  refine ⟨hin, fun b hb => ?_, fun b hb => .inl ((hli b).mpr hb), hc, hcl⟩
  have hl0 := (hli b).mp hb
  have hn : b ≠ a := by
    rintro rfl
    exact hl hl0
  rw [hi, if_neg hn]
  exact ⟨hl0, rfl, rfl⟩

/-- The item `it` is stored at `new`: it gets a new CAS value and the current time, and
takes the place of the item that its key had. -/
structure Stores (S : Settings) (lost : Addr → Prop) (s s' : Store Addr) (new : Addr)
    (it : Item) : Prop where
  inv : Inv S s'
  linked : s'.Linked new
  item : (s'.items new).content =
    { it.content with
      casUnique := if it.flags.cas then if S.useCas then s.nextCasId else 0 else it.casUnique }
  time : (s'.items new).time = s.currentTime
  others : ∀ b, b ≠ new → s'.Linked b → s.Linked b ∧ s.key b ≠ it.key ∧
    (s'.items b).content = (s.items b).content ∧ (s'.items b).time = (s.items b).time
  lost : ∀ b, s.Linked b → (b ≠ new ∧ s'.Linked b) ∨ s.key b = it.key ∨ lost b
  casId : s'.casId = if it.flags.cas ∧ S.useCas then s.nextCasId else s.casId
  clock : s'.clock = s.clock

section Stored

variable {it : Item} (hs : Stores S L s s' new it)

include hs

theorem Stores.key_eq : s'.key new = it.key := by
  have h := congrArg Item.key hs.item
  exact h

theorem Stores.exptime_eq : (s'.items new).exptime = it.exptime := by
  have h := congrArg Item.exptime hs.item
  exact h

theorem Stores.data_eq : (s'.items new).data = it.data := by
  have h := congrArg Item.data hs.item
  exact h

theorem Stores.flagsConv_eq : (s'.items new).flagsConv = it.flagsConv := by
  have h := congrArg Item.flagsConv hs.item
  exact h

theorem Stores.getCas_eq (hu : S.useCas = true) (hc : it.flags.cas = S.useCas) :
    (s'.items new).getCas = s.nextCasId := by
  have hf : it.flags.cas = true := hc.trans hu
  have h := congrArg Item.getCas hs.item
  simp only [Item.getCas, Item.content, hf, hu, if_true] at h
  exact h

theorem Stores.casId_eq (hu : S.useCas = true) (hc : it.flags.cas = S.useCas) :
    s'.casId = s.nextCasId := by
  rw [hs.casId, if_pos ⟨hc.trans hu, hu⟩]

end Stored

theorem Stores.of_published {it : Item} (h : Published S L s s')
    (hs : Stores S L' s' s'' new it) : Stores S (fun b => L b ∨ L' b) s s'' new it := by
  have hn : s'.nextCasId = s.nextCasId := by
    unfold Store.nextCasId
    rw [h.casId]
  have hno := currentTime_of_clock h.clock
  refine ⟨hs.inv, hs.linked, hn ▸ hs.item, hno ▸ hs.time, fun b hne hb => ?_,
    fun b hb => ?_, by rw [hs.casId, hn, h.casId], hs.clock.trans h.clock⟩
  · obtain ⟨hl', hk, hc, ht⟩ := hs.others b hne hb
    obtain ⟨hl, hc', ht'⟩ := h.linked b hl'
    exact ⟨hl, h.key_eq hl' ▸ hk, hc.trans hc', ht.trans ht'⟩
  obtain hb' | hL := h.lost b hb
  · obtain hl | hk | hL' := hs.lost b hb'
    · exact .inl hl
    · exact .inr (.inl (h.key_eq hb' ▸ hk))
    · exact .inr (.inr (.inr hL'))
  · exact .inr (.inr (.inl hL))

theorem Stores.then_published {it : Item} (hs : Stores S L s s' new it)
    (hp : Published S nothing s' s'') : Stores S L s s'' new it := by
  have hli : ∀ b, s''.Linked b ↔ s'.Linked b :=
    fun b => ⟨fun hb => (hp.linked b hb).1, fun hb => (hp.lost b hb).resolve_right id⟩
  have hn := (hp.linked new ((hli new).mpr hs.linked)).2
  refine ⟨hp.inv, (hli new).mpr hs.linked, hn.1.trans hs.item,
    hn.2.trans hs.time, fun b hne hb => ?_, fun b hb => ?_, hp.casId.trans hs.casId,
    hp.clock.trans hs.clock⟩
  · obtain ⟨hb', hc, ht⟩ := hp.linked b hb
    obtain ⟨hl, hk, hc', ht'⟩ := hs.others b hne hb'
    exact ⟨hl, hk, hc.trans hc', ht.trans ht'⟩
  · rw [hli]
    exact hs.lost b hb

theorem Stores.mono {it : Item} (hs : Stores S L s s' new it)
    (hL : ∀ b, s.Linked b → L b → s.key b = it.key ∨ L' b) : Stores S L' s s' new it :=
  { hs with
    lost := fun b hb => by
      obtain hl | hk | hlo := hs.lost b hb
      · exact .inl hl
      · exact .inr (.inl hk)
      · exact .inr (hL b hb hlo) }

theorem Stores.congr_item {it it' : Item} (hs : Stores S L s s' new it)
    (hc : it.content = it'.content) : Stores S L s s' new it' := by
  have hca : it.flags.cas = it'.flags.cas := Item.proj_eq (fun it => it.flags.cas) hc
  have hk : it.key = it'.key := Item.key_eq hc
  have hu : it.casUnique = it'.casUnique := Item.proj_eq Item.casUnique hc
  exact { hs with
    item := by rw [hs.item, hc, hca, hu]
    others := hk ▸ hs.others
    lost := hk ▸ hs.lost
    casId := hca ▸ hs.casId }

/-! ## Linking and replacing -/

omit [Fintype Addr] in
theorem casId_doItemLink : (doItemLink S s a).casId =
    if (s.items a).flags.cas ∧ S.useCas then s.nextCasId else s.casId := by
  show (if _ then Store.nextCasId _ else s.casId) = _
  simp only [items_touchTime, if_true]
  rfl

theorem doItemLink_stores (h : Inv S s) (hl : ¬s.Linked new) (hr : 0 < s.refs new)
    (hab : ∀ b, s.Linked b → s.key b ≠ s.key new) (hlt : (s.items new).refcount + 1 < 2 ^ 16) :
    Stores S nothing s (doItemLink S s new) new (s.items new) where
  inv := h.doItemLink hl hr hab hlt
  linked := linked_doItemLink.mpr (.inl rfl)
  item := by
    rw [items_doItemLink, if_pos rfl]
    rfl
  time := by
    rw [items_doItemLink, if_pos rfl]
    rfl
  others := fun b hn hb => by
    have hlb := (linked_doItemLink.mp hb).resolve_left hn
    rw [items_doItemLink, if_neg hn]
    exact ⟨hlb, hab b hlb, rfl, rfl⟩
  lost := fun b hb => by
    refine .inl ⟨?_, linked_doItemLink.mpr (.inr hb)⟩
    rintro rfl
    exact hl hb
  casId := casId_doItemLink
  clock := rfl

theorem refcount_eq_of_holders (h : Inv S s) (h' : Inv S s') (hr : s'.refs a = s.refs a)
    (hb : s'.bumps.count a = s.bumps.count a) (hl : s'.Linked a ↔ s.Linked a) :
    (s'.items a).refcount = (s.items a).refcount := by
  rw [h.refcount, h'.refcount, Store.holders, Store.holders, hr, hb]
  simp only [hl]

theorem doItemReplace_stores (h : Inv S s) (ho : s.Linked old) (hl : ¬s.Linked new)
    (hr : 0 < s.refs new) (hke : s.key new = s.key old)
    (hlt : (s.items new).refcount + 1 < 2 ^ 16) :
    Stores S nothing s (doItemReplace S s old new) new (s.items new) := by
  have hq := doItemUnlink_quiet h (a := old)
  have hr' : 0 < (doItemUnlink S s old).refs new := by rwa [refs_doItemUnlink]
  have hc := hq.content new (hq.inv.not_slabbed_of_refs hr')
  have hk : ∀ b, (doItemUnlink S s old).Linked b → (doItemUnlink S s old).key b = s.key b :=
    fun b hb => Item.key_eq (hq.content b (hq.inv.not_slabbed_of_linked hb))
  have hn : ¬(doItemUnlink S s old).Linked new := fun hb => hl (hq.linked new hb)
  have hab : ∀ b, (doItemUnlink S s old).Linked b →
      (doItemUnlink S s old).key b ≠ (doItemUnlink S s old).key new := by
    intro b hb he
    have hkn : (doItemUnlink S s old).key new = s.key new := Item.key_eq hc
    rw [hk b hb, hkn, hke] at he
    obtain ⟨hne, hlb⟩ := (linked_doItemUnlink h).mp hb
    exact hne (h.eq_of_key hlb ho he)
  have hco : ((doItemUnlink S s old).items new).refcount = (s.items new).refcount :=
    refcount_eq_of_holders h hq.inv (by rw [refs_doItemUnlink]) (by rw [bumps_doItemUnlink])
      ⟨fun hb => hq.linked new hb, fun hb => absurd hb hl⟩
  have hli := doItemLink_stores hq.inv hn hr' hab (by rwa [hco])
  refine (Stores.of_published hq.published (hli.congr_item hc)).mono fun b _ hb => ?_
  obtain rfl | hb := hb
  · exact .inl hke.symm
  · exact hb.elim

@[simp] theorem refs_doItemReplace : (doItemReplace S s old new).refs = s.refs := by
  unfold doItemReplace
  rw [refs_doItemLink, refs_doItemUnlink]

@[simp] theorem bumps_doItemReplace : (doItemReplace S s old new).bumps = s.bumps := by
  unfold doItemReplace
  rw [bumps_doItemLink, bumps_doItemUnlink]

/-! ## Lookups without an access -/

/-- The key has no item that is alive. -/
def Store.Missing (s : Store Addr) (key : Bytes) : Prop :=
  ∀ b, s.Linked b → s.key b = key → s.Dead b

/-- The key has an item that is alive. -/
structure Store.Hit (s : Store Addr) (key : Bytes) (a : Addr) : Prop where
  linked : s.Linked a
  key : s.key a = key
  live : ¬s.Dead a

instance {key : Bytes} : Decidable (s.Hit key a) :=
  decidable_of_iff (s.Linked a ∧ s.key a = key ∧ ¬s.Dead a)
    ⟨fun ⟨hl, hkey, hlive⟩ => ⟨hl, hkey, hlive⟩, fun ⟨hl, hkey, hlive⟩ => ⟨hl, hkey, hlive⟩⟩

omit [DecidableEq Addr] [Fintype Addr] in
theorem missing_or_hit (s : Store Addr) (key : Bytes) : s.Missing key ∨ ∃ a, s.Hit key a := by
  by_cases h : s.Missing key
  · exact .inl h
  simp only [Store.Missing, not_forall] at h
  obtain ⟨a, hl, hk, hli⟩ := h
  exact .inr ⟨a, hl, hk, hli⟩

section

variable (h : Inv S s) (hlt : CountsLow s) {key : Bytes}
include h hlt

theorem doItemGet_of_missing (hm : s.Missing key) (doUpdate room : Bool) :
    ∃ s', doItemGet S s key doUpdate room = (s', none) ∧
      Quiet S (fun b => s.key b = key ∧ s.Dead b) nothing s s' ∧ s'.refs = s.refs ∧
      s'.bumps = s.bumps ∧ ∀ b, s'.Linked b → s.key b ≠ key := by
  rcases doItemGet_spec h key doUpdate room hlt with
    hnone | ⟨s', a, -, hl, hk, hli, -⟩
  · exact hnone
  · exact absurd (hm a hl hk) hli

theorem doItemGet_of_hit (hh : s.Hit key a) (doUpdate room : Bool) :
    ∃ s', doItemGet S s key doUpdate room = (s', some a) ∧
      Quiet S nothing (fun b => doUpdate = true ∧ b = a) s s' ∧
      (∀ b, s'.refs b = s.refs b + if b = a then 1 else 0) ∧
      (doUpdate = false → s' = takeRef s a) := by
  rcases doItemGet_spec h key doUpdate room hlt with
    ⟨s', -, hq, -, -, hg⟩ | ⟨s', a', he, hl, hk, -, hr⟩
  · obtain hl | hd := hq.lost a hh.linked
    · exact absurd hh.key (hg a hl)
    · exact absurd hd.2 hh.live
  · obtain rfl : a' = a := h.eq_of_key hl hh.linked (hk.trans hh.key.symm)
    exact ⟨s', he, hr⟩

/-- The lookup of a live item without an access. -/
theorem doItemGet_peek (hh : s.Hit key a) :
    doItemGet S s key false false = (takeRef s a, some a) := by
  obtain ⟨s1, hg, -, -, hs1⟩ := doItemGet_of_hit h hlt hh false false
  rw [hg, hs1 rfl]

end

/-- What a lookup without an access leaves to the operation that made it. -/
structure Holding (S : Settings) (s s1 : Store Addr) (a : Addr) : Prop
    extends Quiet S nothing nothing s s1 where
  linked_self : s1.Linked a
  refs : ∀ b, s1.refs b = s.refs b + if b = a then 1 else 0
  count : CountsOpen s1

theorem holding_takeRef (h : Inv S s) (hlt : CountsLow s)
    (hl : s.Linked a) : Holding S s (takeRef s a) a where
  toQuiet := takeRef_quiet h (h.not_slabbed_of_linked hl) (hlt.countsOpen a)
  linked_self := linked_takeRef.mpr hl
  refs := refs_takeRef
  count := fun b => by
    rw [refcount_takeRef (hlt.countsOpen a)]
    have := hlt b
    split_ifs <;> omega

theorem Holding.refs_pos (hh : Holding S s s1 a) : 0 < s1.refs a := by
  rw [hh.refs, if_pos rfl]
  omega

theorem Holding.release_quiet (hh : Holding S s s1 a) :
    Quiet S nothing nothing s (releaseRef s1 a) :=
  hh.toQuiet.append (releaseRef_quiet hh.inv hh.refs_pos)

theorem replace_stores (hp : Published S L s s') (ho : s'.Linked old) (hl : ¬s'.Linked new)
    (hr : 0 < s'.refs new) (hk : s'.key new = s'.key old)
    (hlt : (s'.items new).refcount + 1 < 2 ^ 16) :
    Stores S L s (doItemReplace S s' old new) new (s'.items new) := by
  have hre := doItemReplace_stores hp.inv ho hl hr hk hlt
  refine (Stores.of_published hp hre).mono fun b _ hb => ?_
  exact hb.elim .inr False.elim

/-! ## Items of one client -/

theorem Inv.of_held {it : Item} (h : Inv S s) (hr : 0 < s.refs a)
    (hi : ∀ b, s'.items b = if b = a then it else s.items b)
    (hh : it.header = (s.items a).header) (hc : it.flags.cas = (s.items a).flags.cas)
    (hby : s.Linked a → it.bytes = (s.items a).bytes)
    (hf : s'.assoc = s.assoc ∧ s'.lru = s.lru ∧ s'.bumps = s.bumps ∧ s'.refs = s.refs ∧
      s'.freed = s.freed) : Inv S s' := by
  obtain ⟨has, hl, hbu, hre, hfr⟩ := hf
  have hsl := h.not_slabbed_of_refs hr
  have hb' : ∀ b, s.Linked b → (s'.items b).bytes = (s.items b).bytes := by
    intro b hb
    rw [hi]
    split_ifs with hba
    · rw [hba]
      exact hby (hba ▸ hb)
    · rfl
  refine h.congr ⟨proj_of_items Item.header hi hh, hb', has, hl, hbu, hre,
    hfr⟩ (h.toTidy.of_items hi (.inr (.inr ⟨?_, ?_⟩)))
  · exact (congrArg Header.slabbed hh).trans (eq_false_of_ne_true hsl)
  · rw [hc, h.cas a hsl]

omit [Fintype Addr] in
theorem items_setData (data : Bytes) (b : Addr) :
    (setData s a data).items b = if b = a then { s.items a with data := data } else s.items b :=
  items_modify _ b

theorem setData_published (h : Inv S s) (hr : 0 < s.refs a) (hl : ¬s.Linked a) (data : Bytes) :
    Published S nothing s (setData s a data) :=
  .of_items (h.of_held hr (items_setData data) rfl rfl (absurd · hl) ⟨rfl, rfl, rfl, rfl, rfl⟩)
    (items_setData data) hl rfl rfl rfl

/-- The item has none of the marks that the meta commands set: it is not stale, no token
was sent for it and its key is not binary. -/
structure Item.Unmarked (it : Item) : Prop where
  stale : it.flags.stale = false
  tokenSent : it.flags.tokenSent = false
  keyBinary : it.flags.keyBinary = false

section Allocated

variable {key : Bytes} {flags exptime nbytes : ℕ}

variable (ha : Allocated S s1 s' a key flags exptime nbytes)
include ha

section

variable (h : Inv S s1)
include h

theorem Allocated.published :
    Published S nothing s1 s' where
  inv := ha.inv
  linked := fun b hb => by
    have hn : b ≠ a := by
      rintro rfl
      exact ha.linked hb
    have hi := ha.items b hn
    rw [Store.Linked, hi] at hb
    rw [hi]
    exact ⟨hb, rfl, rfl⟩
  lost := fun b hb => by
    have hn : b ≠ a := by
      rintro rfl
      exact (h.of_slabbed ha.slabbed).1 hb
    refine .inl ?_
    rwa [Store.Linked, ha.items b hn]
  casId := ha.casId
  clock := ha.clock

theorem Allocated.item_eq :
    (s'.items a).key = key ∧ (s'.items a).flagsConv = flags ∧ (s'.items a).exptime = exptime ∧
      (s'.items a).data = List.replicate nbytes 0 := by
  obtain ⟨id, hc⟩ := ha.item
  refine ⟨Item.key_eq hc, ?_, Item.proj_eq Item.exptime hc, Item.proj_eq Item.data hc⟩
  rw [Item.proj_eq Item.flagsConv hc]
  have hw : (s1.items a).flags.cflags = false :=
    congrArg ItFlags.cflags (h.wiped a ha.slabbed)
  by_cases hf : flags = 0
  · simp [Item.flagsConv, itemInit, hw, hf]
  · simp [Item.flagsConv, itemInit, hf]

theorem Allocated.chunked_eq : (s'.items a).flags.chunked = largeItem S key flags nbytes := by
  obtain ⟨id, hc⟩ := ha.item
  have hw : (s1.items a).flags.chunked = false :=
    congrArg ItFlags.chunked (h.wiped a ha.slabbed)
  rw [Item.proj_eq (fun it => it.flags.chunked) hc]
  simp [itemInit, hw]

theorem Allocated.unmarked : (s'.items a).Unmarked := by
  obtain ⟨id, hc⟩ := ha.item
  have hw := h.wiped a ha.slabbed
  refine ⟨?_, ?_, ?_⟩
  · rw [Item.proj_eq (fun it => it.flags.stale) hc]
    exact congrArg ItFlags.stale hw
  · rw [Item.proj_eq (fun it => it.flags.tokenSent) hc]
    exact congrArg ItFlags.tokenSent hw
  · rw [Item.proj_eq (fun it => it.flags.keyBinary) hc]
    exact congrArg ItFlags.keyBinary hw

end

theorem Allocated.refs_pos : 0 < s'.refs a := by
  rw [ha.refs, if_pos rfl]
  omega

end Allocated

omit [DecidableEq Addr] [Fintype Addr] in
theorem key_ne_of_lockable {key : Bytes} {rounds : ℕ → Round Addr}
    (h : Lockable S (lockHeld (S.hash key) rounds) s b) : s.key b ≠ key := by
  obtain ⟨i, n, hl⟩ := h
  simp only [lockHeld, Bool.and_eq_true, bne_iff_ne] at hl
  exact fun hk => hl.1 (by rw [hk])

/-- The state after the evictions of an operation that holds the item `old` and the
lock of its key. -/
structure Reserved (S : Settings) (s s1 s2 : Store Addr) (old : Addr) : Prop
    extends Published S (fun b => s.key b ≠ s.key old) s s2 where
  refs : s2.refs = s1.refs
  held : 0 < s1.refs old
  linked_self : s2.Linked old
  content : ∀ b, 0 < s1.refs b → (s2.items b).content = (s1.items b).content

theorem Holding.alloc (hh : Holding S s s1 old) (flags exptime nbytes : ℕ)
    (rounds : ℕ → Round Addr) :
    ∃ s2, Reserved S s s1 s2 old ∧
      (doItemAlloc S s1 (s1.key old) flags exptime nbytes (lockHeld (S.hash (s1.key old)) rounds) =
          (s2, none) ∨
        ∃ s3 new, doItemAlloc S s1 (s1.key old) flags exptime nbytes
            (lockHeld (S.hash (s1.key old)) rounds) = (s3, some new) ∧
          Allocated S s2 s3 new (s1.key old) flags exptime nbytes) := by
  obtain ⟨s2, hp, hr⟩ := doItemAlloc_spec hh.inv hh.count (s1.key old) flags exptime nbytes
    (lockHeld (S.hash (s1.key old)) rounds)
  refine ⟨s2, ⟨?_, hp.refs, hh.refs_pos, ?_, fun b hb => ?_⟩, hr⟩
  · have hp1 := hh.toQuiet.published
    refine (hp1.trans hp.toQuiet.published).mono fun b hb hlo => ?_
    obtain hn | hl := hlo
    · exact hn.elim
    have hb1 : s1.Linked b := (hp1.lost b hb).resolve_right id
    have hne := key_ne_of_lockable hl
    rwa [hp1.key_eq hb1, hp1.key_eq hh.linked_self] at hne
  · exact (hp.lost old hh.linked_self).resolve_right fun hl => key_ne_of_lockable hl rfl
  · exact hp.content b (hp.inv.not_slabbed_of_refs (by rwa [hp.refs]))

section Reserved

variable {s2 s3 : Store Addr} {flags exptime nbytes : ℕ}

theorem Reserved.release (hr : Reserved S s s1 s2 old) :
    Published S (fun b => s.key b ≠ s.key old) s (releaseRef s2 old) := by
  have hq := releaseRef_quiet hr.inv (a := old) (by rw [hr.refs]; exact hr.held)
  exact (hr.toPublished.trans hq.published).mono fun b _ hb => hb.elim id False.elim

/-- The new item of an operation that holds `old`. -/
structure NewItem (S : Settings) (s s1 s3 : Store Addr) (old new : Addr) : Prop
    extends Published S (fun b => s.key b ≠ s.key old) s s3 where
  refs_old : 0 < s3.refs old
  refs_new : 0 < s3.refs new
  linked_old : s3.Linked old
  linked_new : ¬s3.Linked new
  key : s3.key new = s3.key old
  refcount : (s3.items new).refcount = 1
  content : ∀ b, 0 < s1.refs b → (s3.items b).content = (s1.items b).content

theorem Reserved.newItem (hr : Reserved S s s1 s2 old)
    (ha : Allocated S s2 s3 new (s1.key old) flags exptime nbytes) : NewItem S s s1 s3 old new := by
  have hf := hr.inv.of_slabbed ha.slabbed
  have hr0 : s1.refs new = 0 := by rw [← hr.refs]; exact hf.2.1
  have hn : old ≠ new := by
    rintro rfl
    exact absurd hr.held (by omega)
  have hi := ha.items old hn
  refine ⟨(hr.toPublished.trans (ha.published hr.inv)).mono fun b _ hb => hb.elim id False.elim,
    ?_, ha.refs_pos, ?_, ha.linked, ?_, ha.refcount, ?_⟩
  · rw [ha.refs, if_neg hn, hr.refs]
    exact hr.held
  · rw [Store.Linked, hi]
    exact hr.linked_self
  · have hk : s3.key old = s2.key old := congrArg Item.key hi
    rw [Store.key, (ha.item_eq hr.inv).1, hk]
    exact (Item.key_eq (hr.content old hr.held)).symm
  intro b hb
  have hbn : b ≠ new := by
    rintro rfl
    omega
  rw [ha.items b hbn, hr.content b hb]

theorem NewItem.replace (hn : NewItem S s s1 s3 old new) (data : Bytes) :
    Stores S (fun b => s.key b ≠ s.key old) s (doItemReplace S (setData s3 new data) old new) new
      { s3.items new with data := data } := by
  have hne : old ≠ new := by
    rintro rfl
    exact hn.linked_new hn.linked_old
  have hse := setData_published hn.inv hn.refs_new hn.linked_new data
  have hi : (setData s3 new data).items new = { s3.items new with data := data } := by
    rw [items_setData, if_pos rfl]
  have ho : (setData s3 new data).items old = s3.items old := by
    rw [items_setData, if_neg hne]
  rw [← hi]
  refine replace_stores
    ((hn.toPublished.trans hse).mono fun b _ hb => hb.elim id False.elim) ?_ ?_ hn.refs_new ?_ ?_
  · rw [Store.Linked, ho]
    exact hn.linked_old
  · rw [Store.Linked, hi]
    exact hn.linked_new
  · rw [Store.key, hi, Store.key, ho]
    exact hn.key
  rw [hi]
  show (s3.items new).refcount + 1 < 2 ^ 16
  rw [hn.refcount]
  decide

end Reserved

/-- What is known of an item made by append, prepend or an increment. -/
structure MadeFrom (S : Settings) (it src : Item) (data : Bytes) : Prop where
  key : it.key = src.key
  flags : it.flagsConv = src.flagsConv
  exptime : it.exptime = src.exptime
  data : it.data = data
  cas : it.flags.cas = S.useCas

end Memcached.Items
