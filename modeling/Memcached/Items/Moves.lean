import Memcached.Items.Rescue

/-!
# Moves of the slab rebalancer keep the invariant

`slab_rebalance_move` works on an item to which only the hash table and the mover itself
have a reference. The copy goes into the hash table without a reference of its own, and
the memory of the item is free before its count is zero: the invariant holds again only at
the end of a move.

Results:
* `rescueItem_stores`: a rescued item is stored again
* `rescueChunk_quiet`: a rescued chunk changes no item
* `unlinkAndClear_published`: an item without a rescue is lost
-/

namespace Memcached.Items

open Lib Assoc

variable {Addr : Type*} [DecidableEq Addr] [Fintype Addr] {S : Settings} {s : Store Addr}
  {it new b : Addr}

/-! ## An item that is held is unlinked -/

def Item.unlinkedOnce (it : Item) : Item :=
  { it with refcount := it.refcount - 1, flags := { it.flags with linked := false } }

section Held

variable (hl : s.Linked it) (hcount : 2 ≤ (s.items it).refcount)
  (hlt : (s.items it).refcount < 2 ^ 16)

include hl

theorem clock_doItemUnlink : (doItemUnlink S s it).clock = s.clock := by
  rw [doItemUnlink, if_pos (show (s.items it).flags.linked = true from hl)]
  exact clock_doItemRemove

theorem casId_doItemUnlink : (doItemUnlink S s it).casId = s.casId := by
  rw [doItemUnlink, if_pos (show (s.items it).flags.linked = true from hl)]
  exact casId_doItemRemove

include hcount hlt

theorem doItemUnlink_held :
    doItemUnlink S s it = refcountDecr (doItemUnlinkQ (hashUnlink S s it) it) it := by
  have hd : ((refcountDecr (doItemUnlinkQ (hashUnlink S s it) it) it).items it).refcount =
      ((s.items it).refcount + (2 ^ 16 - 1)) % 2 ^ 16 := by
    simp [refcountDecr, doItemUnlinkQ, hashUnlink, Store.modify]
  rw [doItemUnlink, if_pos (show (s.items it).flags.linked = true from hl), doItemRemove]
  simp only [hd]
  exact if_neg (by omega)

theorem items_doItemUnlink_held (b : Addr) : (doItemUnlink S s it).items b =
    if b = it then (s.items it).unlinkedOnce else s.items b := by
  by_cases hb : b = it
  · rw [if_pos hb, hb, doItemUnlink_held hl hcount hlt]
    simp [refcountDecr, doItemUnlinkQ, hashUnlink, Store.modify, Item.unlinkedOnce]
    omega
  · rw [if_neg hb]
    exact items_doItemUnlink_of_ne hb

theorem freed_doItemUnlink_held : (doItemUnlink S s it).freed = s.freed := by
  rw [doItemUnlink_held hl hcount hlt]
  rfl

theorem linked_doItemUnlink_held : (doItemUnlink S s it).Linked b ↔ b ≠ it ∧ s.Linked b := by
  rw [Store.Linked, items_doItemUnlink_held hl hcount hlt]
  split_ifs with hb
  · simp [Item.unlinkedOnce, hb]
  · simp [hb, Store.Linked]

theorem Indexed.doItemUnlink_held (h : Indexed S s) : Indexed S (doItemUnlink S s it) := by
  have hr : doItemUnlink S s it = releaseRef (Items.unlinked S s it) it :=
    doItemUnlink_of_linked hl
  refine (h.unlinked hl).congr (fun b => ?_) (fun b hb => ?_) ?_ ?_
  · rw [linked_doItemUnlink_held hl hcount hlt, linked_unlinked]
  · have hn : b ≠ it := (linked_unlinked.mp hb).1
    have hi : (doItemUnlink S s it).items b = (Items.unlinked S s it).items b := by
      rw [items_doItemUnlink_held hl hcount hlt, if_neg hn, items_unlinked, if_neg hn]
    rw [Store.key, hi]
    exact ⟨rfl, rfl, rfl⟩
  · rw [hr]
    exact assoc_doItemRemove
  · rw [hr]
    exact lru_doItemRemove

end Held

/-! ## A copy without references takes the place of an item -/

/-- The memory at `new` was overwritten with the item `i`, which nobody refers to yet. -/
structure CopyMade (S : Settings) (s t : Store Addr) (new : Addr) (i : Item) : Prop where
  items : ∀ b, t.items b = if b = new then i else s.items b
  refs : ∀ b, t.refs b = if b = new then 0 else s.refs b
  assoc : t.assoc = s.assoc
  lru : t.lru = s.lru
  casId : t.casId = s.casId
  clock : t.clock = s.clock
  bumps : t.bumps = s.bumps
  freed : t.freed = s.freed
  unlinked : ¬s.Linked new
  unbumped : s.bumps.count new = 0
  refcount : i.refcount = 0
  flags : i.flags.linked = false ∧ i.flags.slabbed = false ∧ i.flags.cas = S.useCas

section CopyMade

variable {t : Store Addr} {i : Item} (hc : CopyMade S s t new i) (h : Inv S s)
  (hl : s.Linked it) (hcount : 2 ≤ (s.items it).refcount) (hkey : i.key = s.key it)

include hc

omit [Fintype Addr] in
theorem CopyMade.linked (b : Addr) : t.Linked b ↔ s.Linked b := by
  rw [Store.Linked, hc.items]
  split_ifs with hb
  · exact iff_of_false (by simp [hc.flags.1]) (hb ▸ hc.unlinked)
  · rfl

theorem CopyMade.indexed (h : Indexed S s) : Indexed S t := by
  refine h.congr hc.linked (fun b hb => ?_) hc.assoc hc.lru
  have hn : b ≠ new := fun he => hc.unlinked (he ▸ hb)
  rw [Store.key, hc.items, if_neg hn]
  exact ⟨rfl, rfl, rfl⟩

include h hl hcount

omit [Fintype Addr] h hcount in
theorem CopyMade.ne : it ≠ new := fun he => hc.unlinked (he ▸ hl)

theorem CopyMade.held :
    t.Linked it ∧ 2 ≤ (t.items it).refcount ∧ (t.items it).refcount < 2 ^ 16 := by
  have hi : t.items it = s.items it := by rw [hc.items, if_neg (hc.ne hl)]
  exact ⟨(hc.linked it).mpr hl, hi ▸ hcount, hi ▸ h.lt it⟩

def copyLinked (S : Settings) (s : Store Addr) (i : Item) : Item :=
  { i with
    time := s.currentTime
    casUnique := if i.flags.cas then if S.useCas then s.nextCasId else 0 else i.casUnique
    refcount := 1
    flags := { i.flags with linked := true } }

theorem CopyMade.items_replace (b : Addr) : (doItemReplace S t it new).items b =
    if b = new then copyLinked S s i
    else if b = it then (s.items it).unlinkedOnce else s.items b := by
  obtain ⟨hlt, hco, hltt⟩ := hc.held h hl hcount
  have hne := hc.ne hl
  have hu := items_doItemUnlink_held (S := S) hlt hco hltt
  have hno := currentTime_of_clock ((clock_doItemUnlink (S := S) hlt).trans hc.clock)
  have hca : (doItemUnlink S t it).casId = s.casId := (casId_doItemUnlink hlt).trans hc.casId
  rw [doItemReplace, items_doItemLink]
  by_cases hn : b = new
  · have hi : (doItemUnlink S t it).items new = i := by
      rw [hu, if_neg hne.symm, hc.items, if_pos rfl]
    rw [if_pos hn, if_pos hn]
    simp only [linkedItem, hi, freshCas, Store.nextCasId, hno, hca, copyLinked, hc.refcount]
    all_goals rfl
  · rw [if_neg hn, if_neg hn, hu, hc.items, if_neg hne, hc.items, if_neg hn]

theorem CopyMade.linked_replace :
    (doItemReplace S t it new).Linked b ↔ b = new ∨ b ≠ it ∧ s.Linked b := by
  rw [Store.Linked, hc.items_replace h hl hcount]
  split_ifs with hn hb
  · exact iff_of_true rfl (.inl hn)
  · exact iff_of_false (by simp [Item.unlinkedOnce]) fun ho => ho.elim hn fun ha => ha.1 hb
  · simp [hn, hb, Store.Linked]

theorem CopyMade.counted_replace : Counted (doItemReplace S t it new) := by
  have hn := hc.ne hl
  obtain ⟨hlt, hco, hltt⟩ := hc.held h hl hcount
  have hi := hc.items_replace h hl hcount
  have hh : ∀ b, (doItemReplace S t it new).holders b =
      if b = new then 1 else if b = it then s.holders it - 1 else s.holders b := by
    intro b
    rw [Store.holders, refs_doItemReplace, bumps_doItemReplace, hc.refs, hc.bumps]
    simp only [hc.linked_replace h hl hcount]
    by_cases hbn : b = new
    · simp [hbn, hc.unbumped]
    by_cases hb : b = it
    · simp [hb, hn, Store.holders, hl]
    · simp [hbn, hb, Store.holders]
  refine ⟨fun b => ?_, fun b => ?_, fun b => ?_, ?_⟩
  · rw [hh, hi]
    split_ifs
    · rfl
    · exact congrArg (· - 1) (h.refcount it)
    · exact h.refcount b
  · rw [hi]
    split_ifs
    · exact Nat.one_lt_two_pow (by decide)
    · exact (Nat.sub_le _ 1).trans_lt (h.lt it)
    · exact h.lt b
  · have hu : (s.items it).flags.slabbed = false := by
      simpa [Store.Slabbed] using h.not_slabbed_of_linked hl
    rw [hh, Store.Slabbed, hi]
    split_ifs
    · simp [copyLinked, hc.flags.2.1]
    · refine iff_of_false (by simp [Item.unlinkedOnce, hu]) ?_
      rw [← h.refcount]
      omega
    · exact h.slabbed b
  · have hf : (doItemReplace S t it new).freed = s.freed :=
      (freed_doItemUnlink_held hlt hco hltt).trans hc.freed
    rw [hf]
    exact h.freed

include hkey

theorem CopyMade.indexed_replace : Indexed S (doItemReplace S t it new) := by
  obtain ⟨hlt, hco, hltt⟩ := hc.held h hl hcount
  have hne := hc.ne hl
  have hu := items_doItemUnlink_held (S := S) hlt hco hltt
  have hn : ¬(doItemUnlink S t it).Linked new := by
    rw [linked_doItemUnlink_held hlt hco hltt, hc.linked]
    exact fun hb => hc.unlinked hb.2
  refine ((hc.indexed h.toIndexed).doItemUnlink_held hlt hco hltt).doItemLink hn ?_
  intro b hb he
  obtain ⟨hbi, hlb⟩ := (linked_doItemUnlink_held hlt hco hltt).mp hb
  have hbn : b ≠ new := fun he' => hn (he' ▸ hb)
  rw [Store.key, Store.key, hu, if_neg hbi, hu, if_neg hne.symm, hc.items, if_neg hbn,
    hc.items, if_pos rfl, hkey] at he
  exact hbi (h.eq_of_key ((hc.linked b).mp hlb) hl he)

theorem CopyMade.inv_replace : Inv S (doItemReplace S t it new) where
  toIndexed := hc.indexed_replace h hl hcount hkey
  toCounted := hc.counted_replace h hl hcount
  wiped := by
    intro b hb
    rw [Store.Slabbed, hc.items_replace h hl hcount] at hb
    rw [hc.items_replace h hl hcount]
    split_ifs at hb ⊢
    · exact absurd hb (by simp [copyLinked, hc.flags.2.1])
    · exact absurd hb (h.not_slabbed_of_linked hl)
    · exact h.wiped b hb
  cas := by
    intro b hb
    rw [Store.Slabbed, hc.items_replace h hl hcount] at hb
    rw [hc.items_replace h hl hcount]
    split_ifs at hb ⊢
    · exact hc.flags.2.2
    · exact h.cas it (h.not_slabbed_of_linked hl)
    · exact h.cas b hb

theorem CopyMade.stores : Stores S nothing s (doItemReplace S t it new) new i := by
  have hi := hc.items_replace h hl hcount
  have hli := fun b => hc.linked_replace (b := b) h hl hcount
  obtain ⟨hlt, hco, hltt⟩ := hc.held h hl hcount
  have hn := hc.ne hl
  refine ⟨hc.inv_replace h hl hcount hkey, (hli new).mpr (.inl rfl), ?_, ?_, ?_, ?_, ?_, ?_⟩
  · rw [hi, if_pos rfl]
    rfl
  · rw [hi, if_pos rfl]
    rfl
  · intro b hb hlb
    obtain ⟨hbi, hlb⟩ := ((hli b).mp hlb).resolve_left hb
    refine ⟨hlb, fun he => hbi (h.eq_of_key hlb hl (he.trans hkey)), ?_⟩
    rw [hi, if_neg hb, if_neg hbi]
    exact ⟨rfl, rfl⟩
  · intro b hlb
    by_cases hbi : b = it
    · exact .inr (.inl (by rw [hbi, hkey]))
    · exact .inl ⟨fun he => hc.unlinked (he ▸ hlb), (hli b).mpr (.inr ⟨hbi, hlb⟩)⟩
  · show (doItemLink S (doItemUnlink S t it) new).casId = _
    rw [casId_doItemLink, items_doItemUnlink_held hlt hco hltt, if_neg hn.symm, hc.items,
      if_pos rfl, Store.nextCasId, casId_doItemUnlink hlt, hc.casId, Store.nextCasId]
  · exact (clock_doItemUnlink hlt).trans hc.clock

end CopyMade

/-! ## The rebalancer -/

/-- The mover has found an idle item: only the hash table and the mover hold it. -/
structure Idling (S : Settings) (s : Store Addr) (it : Addr) : Prop where
  inv : Inv S s
  linked : s.Linked it
  refcount : (s.items it).refcount = 2
  refs : s.refs it = 1

theorem Idling.bumps (h : Idling S s it) : s.bumps.count it = 0 := by
  have hcount := h.inv.refcount it
  rw [h.refcount, Store.holders, h.refs, if_pos h.linked] at hcount
  omega

variable (s it) in
omit [Fintype Addr] in
theorem items_clearForMove (b : Addr) : (clearForMove s it).items b =
    if b = it then { s.items it with
      refcount := 0, flags := { slabbed := true, fetched := true } }
    else s.items b := by
  show (s.modify it fun i => { i with
    refcount := 0, flags := { slabbed := true, fetched := true } }).items b = _
  exact items_modify _ b

theorem clearForMove_quiet (h : Inv S s) (hl : ¬s.Linked it) (hr : s.refs it = 1)
    (hbu : s.bumps.count it = 0) : Quiet S nothing nothing s (clearForMove s it) := by
  have hi := items_clearForMove s it
  have hf : (s.items it).flags.linked = false := by simpa [Store.Linked] using hl
  have hli : ∀ b, (clearForMove s it).Linked b ↔ s.Linked b := fun b =>
    Eq.congr_left (proj_of_items (fun it => it.flags.linked) hi hf.symm b)
  have hh : ∀ b, (clearForMove s it).holders b = if b = it then 0 else s.holders b := by
    intro b
    have hr' : (clearForMove s it).refs b = if b = it then 0 else s.refs b := by
      show Function.update s.refs it _ b = _
      rw [Function.update_apply]
      split_ifs
      · show s.refs it - 1 = 0
        rw [hr]
      · rfl
    rw [Store.holders, hr', show (clearForMove s it).bumps = s.bumps from rfl]
    simp only [hli]
    split_ifs with hb hlb
    · exact absurd (hb ▸ hlb) hl
    · rw [hb, hbu]
    · rw [Store.holders, if_pos ‹_›]
    · rw [Store.holders, if_neg ‹_›]
  refine ⟨⟨?_, fun b => (hli b).mp, fun b hb => .inl ((hli b).mpr hb), ?_, rfl, rfl, rfl⟩,
    ?_⟩
  · intro b hb
    rw [Store.Slabbed, hi] at hb
    rw [hi]
    split_ifs at hb ⊢
    · exact absurd rfl hb
    · rfl
  · intro b _
    exact .inl (proj_of_items Item.time hi rfl b)
  refine ⟨h.toIndexed.congr hli (fun b hb => ?_) rfl rfl, ⟨fun b => ?_, fun b => ?_,
    fun b => ?_, h.freed⟩, h.toTidy.of_items hi (.inr (.inl rfl))⟩
  · have hn : b ≠ it := fun he => hl (he ▸ hb)
    rw [Store.key, hi, if_neg hn]
    exact ⟨rfl, rfl, rfl⟩
  · rw [hh, hi]
    split_ifs
    · rfl
    · exact h.refcount b
  · rw [hi]
    split_ifs
    · exact Nat.two_pow_pos 16
    · exact h.lt b
  · rw [hh, Store.Slabbed, hi]
    split_ifs
    · simp
    · exact h.slabbed b

theorem copyItem_made (h : Idling S s it) (hf : s.Slabbed new) :
    CopyMade S s (copyItem (slabTake s new) it new) new (s.items it).copied := by
  have hn : it ≠ new := fun he => h.inv.not_slabbed_of_linked h.linked (he ▸ hf)
  obtain ⟨hl, hr, hbu⟩ := h.inv.of_slabbed hf
  have hu := h.inv.not_slabbed_of_linked h.linked
  refine ⟨items_copyItem hn, fun b => ?_, rfl, rfl, rfl, rfl, rfl, rfl, hl, hbu, rfl, rfl, ?_,
    h.inv.cas it hu⟩
  · have hs : (copyItem (slabTake s new) it new).refs = s.refs := by
      simp [copyItem, slabTake, Store.noteRef, Store.forgetRef, Store.modify]
    rw [hs]
    split_ifs with hb
    · rw [hb, hr]
    · rfl
  · simpa [Store.Slabbed, Item.copied] using hu

variable {m : Heap Addr}

/-- **The rescue of an item.** The copy is stored in the place of the item, with a new CAS
value, and nothing else changes. -/
theorem rescueItem_stores (h : Idling S m.store it) (hf : m.store.Slabbed new) :
    Stores S nothing m.store (rescueItem S m it new).store new (m.store.items it).copied := by
  have hc := copyItem_made h hf
  have hcount : 2 ≤ (m.store.items it).refcount := h.refcount.ge
  have hs := hc.stores h.inv h.linked hcount rfl
  have hn := hc.ne h.linked
  have hu : ¬(doItemReplace S (copyItem (slabTake m.store new) it new) it new).Linked it :=
    fun hl => ((hc.linked_replace h.inv h.linked hcount).mp hl).elim hn fun ha => ha.1 rfl
  have hr : (doItemReplace S (copyItem (slabTake m.store new) it new) it new).refs it = 1 := by
    rw [refs_doItemReplace, hc.refs, if_neg hn, h.refs]
  have hb :
      (doItemReplace S (copyItem (slabTake m.store new) it new) it new).bumps.count it = 0 := by
    rw [bumps_doItemReplace, hc.bumps, h.bumps]
  exact hs.then_published (clearForMove_quiet hs.inv hu hr hb).published

theorem rescueChunk_quiet {ch nch : Addr} (h : Idling S m.store it) :
    Quiet S nothing nothing m.store (rescueChunk m it ch nch).store := by
  have ho : ((refcountDecr (m.store.forgetRef it) it).items it).refcount = 1 := by
    simp [refcountDecr, Store.forgetRef, Store.modify, h.refcount]
  have hs : (rescueChunk m it ch nch).store = releaseRef m.store it := by
    rw [releaseRef, doItemRemove]
    simp only [ho, if_neg Nat.one_ne_zero]
    rfl
  rw [hs]
  exact releaseRef_quiet h.inv (by rw [h.refs]; exact Nat.one_pos)

theorem unlinkAndClear_published (h : Idling S s it) :
    Published S (· = it) s (clearForMove (doItemUnlink S s it) it) := by
  have hu := doItemUnlink_quiet h.inv (a := it)
  have hun : ¬(doItemUnlink S s it).Linked it := fun hl =>
    ((linked_doItemUnlink h.inv).mp hl).1 rfl
  have hcl := clearForMove_quiet hu.inv hun (by rw [refs_doItemUnlink, h.refs])
    (by rw [bumps_doItemUnlink, h.bumps])
  exact (hu.published.trans hcl.published).mono fun b _ hb => hb.elim id False.elim

/-! ## Moves -/

/-- The mover saves the item: it is not expired or flushed, and there is memory. -/
def Saved (s : Store Addr) (it : Addr) (new : Option Addr) : Prop :=
  new.isSome = true ∧ ((s.items it).exptime != 0 && (s.items it).exptime < s.currentTime) = false ∧
    itemIsFlushed s (s.items it) = false

/-- What `slab_rebalance_move` has found when it moves an item: nobody else holds it, and the
new memory is free. A large item that it does not save is unlinked and freed as any
other. -/
def MoveGuard (s : Store Addr) (it : Addr) (ch new : Option Addr) : Prop :=
  s.Linked it ∧ (s.items it).refcount = 2 ∧ (ch = none → ∀ n ∈ new, s.Slabbed n) ∧
    (¬Saved s it new → ch = none ∧ (s.items it).flags.chunked = false)

instance (s : Store Addr) (it : Addr) (new : Option Addr) : Decidable (Saved s it new) :=
  inferInstanceAs (Decidable (_ ∧ _))

instance (s : Store Addr) (it : Addr) (ch new : Option Addr) : Decidable (MoveGuard s it ch new) :=
  haveI : DecidablePred s.Slabbed := fun n =>
    inferInstanceAs (Decidable ((s.items n).flags.slabbed = true))
  inferInstanceAs (Decidable (_ ∧ _))

theorem idling_takeRef (h : Inv S s) (hlt : (s.items it).refcount + 1 < 2 ^ 16) (hl : s.Linked it)
    (hcount : ((takeRef s it).items it).refcount = 2) : Idling S (takeRef s it) it := by
  have hr : s.refs it = 0 := by
    rw [refcount_takeRef hlt, if_pos rfl, h.refcount, Store.holders, if_pos hl] at hcount
    omega
  refine ⟨h.takeRef (h.not_slabbed_of_linked hl) hlt, linked_takeRef.mpr hl, hcount, ?_⟩
  rw [refs_takeRef, if_pos rfl, hr]

/-- **Moves.** A move stores a copy in the place of the item, or leaves the items as they are,
or unlinks the item. -/
theorem moveFromLru_cases {ch new : Option Addr} (h : Idling S m.store it)
    (hg : MoveGuard m.store it ch new) :
    (∃ n, Stores S nothing m.store (moveFromLru S m it ch new).store n
      (m.store.items it).copied) ∨
    Published S (· = it) m.store (moveFromLru S m it ch new).store := by
  obtain ⟨-, -, hfr, hsm⟩ := hg
  unfold moveFromLru
  by_cases hs : Saved m.store it new
  · obtain ⟨hso, hexp, hf⟩ := hs
    obtain ⟨n, rfl⟩ := Option.isSome_iff_exists.mp hso
    simp only [hexp, hf, Bool.or_self, Bool.false_eq_true, if_false]
    cases ch with
    | none => exact .inl ⟨n, rescueItem_stores h (hfr rfl n rfl)⟩
    | some ch => exact .inr (rescueChunk_quiet h).of_nothing.published
  obtain ⟨rfl, hp⟩ := hsm hs
  have hu : (moveFromLru.unsaved S m it false).store =
      clearForMove (doItemUnlink S m.store it) it := by
    unfold moveFromLru.unsaved
    simp only [hp, Bool.false_eq_true, not_false_eq_true, and_self, if_true]
  cases new with
  | none => exact .inr (hu ▸ unlinkAndClear_published h)
  | some n =>
    have hlo : ((m.store.items it).exptime != 0 &&
        (m.store.items it).exptime < m.store.currentTime ||
        itemIsFlushed m.store (m.store.items it)) = true := by
      by_contra hn
      simp only [Bool.not_eq_true, Bool.or_eq_false_iff] at hn
      exact hs ⟨rfl, hn⟩
    simp only [hlo, if_true]
    exact .inr (hu ▸ unlinkAndClear_published h)

end Memcached.Items
