import Mathlib.Algebra.BigOperators.Group.Finset.Basic
import Memcached.Assoc.Invariant
import Memcached.Items.Commands

/-!
# The representation invariant of the item cache

The linked items are exactly those of the hash table and of the LRU lists, every reference
count is the number of its holders (callers, bump buffer entries, and the link itself),
and free memory is exactly what has no holder. Every function of `items.c` keeps this as
long as the 16-bit counts do not wrap. The proofs move references between their holders.

Results:
* `Inv.takeRef`, `Inv.releaseRef`: taking and dropping a reference.
* `Inv.doItemLink`, `Inv.doItemUnlink`: linking and unlinking.
* `Inv.lruMove`, `Inv.congr`: moves between the LRU lists, and changes of fields
  that the invariant does not speak of.
-/

namespace Memcached.Items

open Lib Assoc
open Function (update update_self update_of_ne)

variable {Addr : Type*} {S : Settings} {s s' : Store Addr} {a b : Addr}

/-! ## Definitions -/

/-- The part of an item header that the invariant depends on. -/
structure Header where
  key : Bytes
  linked : Bool
  slabbed : Bool
  refcount : ℕ
  queue : ℕ × Lru

def Item.header (it : Item) : Header :=
  ⟨it.key, it.flags.linked, it.flags.slabbed, it.refcount, it.queue⟩

/-- An item without its counts, its place in the lists, its access time and the marks
of accesses. -/
def Item.content (it : Item) : Item :=
  { it with
    refcount := 0
    clsid := 0
    lru := .hot
    time := 0
    flags := { it.flags with linked := false, fetched := false, active := false } }

theorem Item.proj_eq {β : Type*} (p : Item → β) {it it' : Item} (h : it.content = it'.content)
    (hp : ∀ it : Item, p it.content = p it := by intro _; rfl) : p it = p it' := by
  rw [← hp, h, hp]

theorem Item.key_eq {it it' : Item} (h : it.content = it'.content) : it.key = it'.key :=
  Item.proj_eq Item.key h

def Store.Linked (s : Store Addr) (a : Addr) : Prop := (s.items a).flags.linked = true

instance : Decidable (s.Linked a) := inferInstanceAs (Decidable (_ = true))

/-- `ITEM_SLABBED`: the memory is free. -/
def Store.Slabbed (s : Store Addr) (a : Addr) : Prop := (s.items a).flags.slabbed = true

/-- The LRU list a node belongs on. -/
def Store.place (s : Store Addr) : Node Addr → Option (ℕ × Lru)
  | .inl a => if s.Linked a then some (s.items a).queue else none
  | .inr q => if (s.lru.crawlers q).isSome then some q else none

/-- What an item adds to the two totals of bytes. -/
def Item.bytes (it : Item) : ℕ × ℕ := (it.ntotal, it.lruBytes)

section

variable [DecidableEq Addr]

/-- The number of parties that hold a reference to an item. -/
def Store.holders (s : Store Addr) (a : Addr) : ℕ :=
  s.refs a + s.bumps.count a + if s.Linked a then 1 else 0

/-- The reference counts, and the memory that is free. -/
structure Counted (s : Store Addr) : Prop where
  refcount : ∀ a, (s.items a).refcount = s.holders a
  lt : ∀ a, (s.items a).refcount < 2 ^ 16
  slabbed : ∀ a, s.Slabbed a ↔ s.holders a = 0
  freed : ∀ f ∈ s.freed, f.linked = false ∧ f.slabbed = false ∧ f.holders = 0

/-- Free memory carries no flag but its own, and items have a CAS field if CAS is on. -/
structure Tidy (S : Settings) (s : Store Addr) : Prop where
  wiped : ∀ a, s.Slabbed a → (s.items a).content.flags = { slabbed := true }
  cas : ∀ a, ¬s.Slabbed a → (s.items a).flags.cas = S.useCas

variable [Fintype Addr]

def Store.stored (s : Store Addr) : Finset Addr := {a | s.Linked a}

def Store.queued (s : Store Addr) (q : ℕ × Lru) : Finset Addr :=
  s.stored.filter fun a => (s.items a).queue = q

/-- The counters of the lists count the items of `on`, each in its list. -/
structure Tallied (l : LruLists Addr) (items : Addr → Item) (on : Finset Addr) : Prop where
  sizes : ∀ q, l.sizes q = (on.filter fun a => (items a).queue = q).card
  sizesBytes : ∀ q, l.sizesBytes q = ∑ a ∈ on with (items a).queue = q, (items a).lruBytes

/-- The counters of the LRU lists, and the totals over all lists. -/
structure Sized (s : Store Addr) : Prop extends Tallied s.lru s.items s.stored where
  currItems : s.lru.currItems = s.stored.card
  currBytes : s.lru.currBytes = ∑ a ∈ s.stored, (s.items a).ntotal

structure Indexed (S : Settings) (s : Store Addr) : Prop where
  assoc : Assoc.Inv S.hash s.key s.assoc s.stored
  lru : s.lru.ptrs.Placed s.place
  sized : Sized s

structure Inv (S : Settings) (s : Store Addr) : Prop extends Indexed S s, Counted s, Tidy S s

omit [DecidableEq Addr] in
@[simp] theorem mem_stored : a ∈ s.stored ↔ s.Linked a := by simp [Store.stored]

end

/-! ## Changes to one item -/

section

variable [DecidableEq Addr]

@[simp] theorem items_modify_self (f : Item → Item) : (s.modify a f).items a = f (s.items a) := by
  simp [Store.modify]

theorem items_modify_of_ne (h : b ≠ a) (f : Item → Item) : (s.modify a f).items b = s.items b := by
  simp [Store.modify, h]

theorem items_modify (f : Item → Item) (b : Addr) :
    (s.modify a f).items b = if b = a then f (s.items a) else s.items b := by
  split_ifs with h
  · rw [h, items_modify_self]
  · exact items_modify_of_ne h f

variable {it : Item}

theorem proj_of_items {β : Type*} (p : Item → β)
    (hi : ∀ b, s'.items b = if b = a then it else s.items b) (h : p it = p (s.items a))
    (b : Addr) : p (s'.items b) = p (s.items b) := by
  rw [hi]
  split_ifs with hb
  · rw [hb, h]
  · rfl

/-- A change that keeps the headers and everything the invariant speaks of. -/
structure SameFrame (s s' : Store Addr) : Prop where
  header : ∀ a, (s'.items a).header = (s.items a).header
  bytes : ∀ a, s.Linked a → (s'.items a).bytes = (s.items a).bytes
  assoc : s'.assoc = s.assoc
  lru : s'.lru = s.lru
  bumps : s'.bumps = s.bumps
  refs : s'.refs = s.refs
  freed : s'.freed = s.freed

theorem SameFrame.of_items (hi : ∀ b, s'.items b = if b = a then it else s.items b)
    (hh : it.header = (s.items a).header) (hby : it.bytes = (s.items a).bytes)
    (ha : s'.assoc = s.assoc) (hl : s'.lru = s.lru) (hb : s'.bumps = s.bumps)
    (hre : s'.refs = s.refs) (hf : s'.freed = s.freed) : SameFrame s s' :=
  ⟨proj_of_items Item.header hi hh, fun b _ => proj_of_items Item.bytes hi hby b,
    ha, hl, hb, hre, hf⟩

theorem SameFrame.modify {f : Item → Item} (h : (f (s.items a)).header = (s.items a).header)
    (hb : (f (s.items a)).bytes = (s.items a).bytes) : SameFrame s (s.modify a f) :=
  .of_items (items_modify f) h hb rfl rfl rfl rfl rfl

namespace SameFrame

variable (h : SameFrame s s')
include h

section

omit [DecidableEq Addr]

theorem linked (a : Addr) : s'.Linked a ↔ s.Linked a :=
  Eq.congr_left (congrArg Header.linked (h.header a))

theorem key : s'.key = s.key :=
  funext fun a => congrArg Header.key (h.header a)

theorem refcount (a : Addr) : (s'.items a).refcount = (s.items a).refcount :=
  congrArg Header.refcount (h.header a)

end

theorem holders (a : Addr) : s'.holders a = s.holders a := by
  simp only [Store.holders, h.bumps, h.refs, h.linked]

end SameFrame

variable [Fintype Addr]

section Tallied

variable {l l' : LruLists Addr} {items items' : Addr → Item} {on : Finset Addr}

variable (h : Tallied l items on)
include h

omit [DecidableEq Addr] [Fintype Addr] in
theorem Tallied.congr (hsi : l'.sizes = l.sizes) (hb : l'.sizesBytes = l.sizesBytes)
    (hs : ∀ a ∈ on, (items' a).queue = (items a).queue ∧
      (items' a).lruBytes = (items a).lruBytes) : Tallied l' items' on := by
  have hf : ∀ q, on.filter (fun a => (items' a).queue = q) =
      on.filter fun a => (items a).queue = q := by
    intro q
    exact Finset.filter_congr fun a ha => by rw [(hs a ha).1]
  refine ⟨fun q => ?_, fun q => ?_⟩
  · rw [hsi, hf, h.sizes]
  · rw [hb, hf, h.sizesBytes]
    exact Finset.sum_congr rfl fun a ha => ((hs a (Finset.mem_filter.mp ha).1).2).symm

section

omit [Fintype Addr]

/-- A linked item is added to the totals of its list. -/
theorem Tallied.link (ha : a ∉ on)
    (hs : l'.sizes = update l.sizes (items a).queue (l.sizes (items a).queue + 1))
    (hb : l'.sizesBytes = update l.sizesBytes (items a).queue
      (l.sizesBytes (items a).queue + (items a).lruBytes)) : Tallied l' items (insert a on) := by
  have hf : a ∉ on.filter fun b => (items b).queue = (items a).queue :=
    fun hm => ha (Finset.mem_filter.mp hm).1
  refine ⟨fun q => ?_, fun q => ?_⟩
  · rw [hs, Finset.filter_insert]
    by_cases hq : q = (items a).queue
    · rw [hq, update_self, if_pos rfl, Finset.card_insert_of_notMem hf, h.sizes]
    · rw [update_of_ne hq, if_neg (Ne.symm hq), h.sizes]
  · rw [hb, Finset.filter_insert]
    by_cases hq : q = (items a).queue
    · rw [hq, update_self, if_pos rfl, Finset.sum_insert hf, h.sizesBytes]
      omega
    · rw [update_of_ne hq, if_neg (Ne.symm hq), h.sizesBytes]

theorem Tallied.unlink (ha : a ∈ on)
    (hs : l'.sizes = update l.sizes (items a).queue (l.sizes (items a).queue - 1))
    (hb : l'.sizesBytes = update l.sizesBytes (items a).queue
      (l.sizesBytes (items a).queue - (items a).lruBytes)) :
    Tallied l' items (on.erase a) := by
  have hf : a ∈ on.filter fun b => (items b).queue = (items a).queue :=
    Finset.mem_filter.mpr ⟨ha, rfl⟩
  have ho : ∀ q, q ≠ (items a).queue →
      (on.filter fun b => (items b).queue = q).erase a =
        on.filter fun b => (items b).queue = q := by
    intro q hq
    exact Finset.erase_eq_of_notMem fun hm => hq (Finset.mem_filter.mp hm).2.symm
  refine ⟨fun q => ?_, fun q => ?_⟩
  · rw [hs, Finset.filter_erase]
    by_cases hq : q = (items a).queue
    · rw [hq, update_self, Finset.card_erase_of_mem hf, h.sizes]
    · rw [update_of_ne hq, ho q hq, h.sizes]
  rw [hb, Finset.filter_erase]
  by_cases hq : q = (items a).queue
  · rw [hq, update_self, h.sizesBytes,
      ← Finset.add_sum_erase _ (fun b => (items b).lruBytes) hf]
    omega
  · rw [update_of_ne hq, ho q hq, h.sizesBytes]

end

end Tallied

omit [DecidableEq Addr] in
theorem Sized.congr (h : Sized s) (hl : ∀ a, s'.Linked a ↔ s.Linked a)
    (hsa : ∀ a, s.Linked a →
      (s'.items a).queue = (s.items a).queue ∧ (s'.items a).bytes = (s.items a).bytes)
    (hlr : s'.lru = s.lru) : Sized s' := by
  have hs : s'.stored = s.stored := Finset.filter_congr fun a _ => hl a
  constructor
  · rw [hs]
    refine h.toTallied.congr (by rw [hlr]) (by rw [hlr]) fun a ha => ?_
    obtain ⟨hq, hb⟩ := hsa a (mem_stored.mp ha)
    exact ⟨hq, congrArg Prod.snd hb⟩
  · rw [hlr, hs, h.currItems]
  · rw [hlr, hs, h.currBytes]
    refine Finset.sum_congr rfl fun a ha => ?_
    exact (congrArg Prod.fst (hsa a (mem_stored.mp ha)).2).symm

theorem Indexed.congr (h : Indexed S s) (hl : ∀ a, s'.Linked a ↔ s.Linked a)
    (hs : ∀ a, s.Linked a → s'.key a = s.key a ∧
      (s'.items a).queue = (s.items a).queue ∧ (s'.items a).bytes = (s.items a).bytes)
    (has : s'.assoc = s.assoc) (hlr : s'.lru = s.lru) : Indexed S s' where
  assoc := by
    have hst : s'.stored = s.stored := by
      ext a
      simp only [mem_stored, hl]
    rw [has, hst]
    exact h.assoc.congr_key fun a ha => (hs a (mem_stored.mp ha)).1
  lru := by
    have hp : s'.place = s.place := by
      funext n
      cases n with
      | inl a =>
        simp only [Store.place, hl]
        split_ifs with ha
        · rw [(hs a ha).2.1]
        · rfl
      | inr q => simp only [Store.place, hlr]
    rw [hlr, hp]
    exact h.lru
  sized := h.sized.congr hl (fun a ha => (hs a ha).2) hlr

section

omit [Fintype Addr]

theorem Counted.congr (h : Counted s) (hc : ∀ a, (s'.items a).refcount = (s.items a).refcount ∧
      (s'.items a).flags.slabbed = (s.items a).flags.slabbed)
    (hh : ∀ a, s'.holders a = s.holders a) (hf : s'.freed = s.freed) : Counted s' where
  refcount := fun a => by rw [(hc a).1, hh, h.refcount]
  lt := fun a => by
    rw [(hc a).1]
    exact h.lt a
  slabbed := fun a => by rw [Store.Slabbed, (hc a).2, hh, ← h.slabbed, Store.Slabbed]
  freed := by
    rw [hf]
    exact h.freed

theorem Tidy.of_items (h : Tidy S s) (hi : ∀ b, s'.items b = if b = a then it else s.items b)
    (hf : it.content.flags = (s.items a).content.flags ∨
      it.content.flags = { slabbed := true } ∨ it.flags.slabbed = false ∧ it.flags.cas = S.useCas) :
    Tidy S s' := by
  constructor
  · intro b hb
    rw [Store.Slabbed, hi] at hb
    rw [hi]
    split_ifs at hb ⊢ with hba
    · obtain hsa | hw | ⟨hsl, -⟩ := hf
      · have hsl : s.Slabbed a := (congrArg ItFlags.slabbed hsa).symm.trans hb
        exact hsa.trans (h.wiped a hsl)
      · exact hw
      · rw [hsl] at hb
        cases hb
    · exact h.wiped b hb
  · intro b hb
    rw [Store.Slabbed, hi] at hb
    rw [hi]
    split_ifs at hb ⊢ with hba
    · obtain hsa | hw | ⟨-, hc⟩ := hf
      · have hsl : ¬s.Slabbed a := fun hs => hb ((congrArg ItFlags.slabbed hsa).trans hs)
        exact (congrArg ItFlags.cas hsa).trans (h.cas a hsl)
      · exact absurd (congrArg ItFlags.slabbed hw) hb
      · exact hc
    · exact h.cas b hb

end

/-- The invariant is about the frame only. -/
theorem Inv.congr (h : Inv S s) (hf : SameFrame s s') (ht : Tidy S s') : Inv S s' where
  toTidy := ht
  toIndexed := h.toIndexed.congr hf.linked
    (fun a ha => ⟨congrFun hf.key a, congrArg Header.queue (hf.header a), hf.bytes a ha⟩)
    hf.assoc hf.lru
  toCounted := h.toCounted.congr
    (fun a => ⟨hf.refcount a, congrArg Header.slabbed (hf.header a)⟩) hf.holders hf.freed

theorem Indexed.of_items (h : Indexed S s)
    (hi : ∀ b, s'.items b = if b = a then it else s.items b)
    (hk : it.key = (s.items a).key) (hl : it.flags.linked = (s.items a).flags.linked)
    (hq : it.queue = (s.items a).queue)
    (hby : s.Linked a → it.bytes = (s.items a).bytes) (ha : s'.assoc = s.assoc)
    (hlr : s'.lru = s.lru) : Indexed S s' := by
  refine h.congr
    (fun b => Eq.congr_left (proj_of_items (fun it => it.flags.linked) hi hl b))
    (fun b hb => ⟨proj_of_items Item.key hi hk b, proj_of_items Item.queue hi hq b, ?_⟩)
    ha hlr
  rw [hi]
  split_ifs with hba
  · rw [hba]
    exact hby (hba ▸ hb)
  · rfl

/-! ## References -/

section

omit [Fintype Addr]

theorem items_takeRef (b : Addr) :
    (takeRef s a).items b =
      if b = a then { s.items a with refcount := ((s.items a).refcount + 1) % 2 ^ 16 }
      else s.items b := by
  show (s.modify a fun it => { it with refcount := (it.refcount + 1) % 2 ^ 16 }).items b = _
  exact items_modify _ b

theorem linked_takeRef : (takeRef s a).Linked b ↔ s.Linked b :=
  Eq.congr_left (proj_of_items (fun it => it.flags.linked) items_takeRef (by rfl) b)

theorem refs_noteRef : (s.noteRef a).refs b = s.refs b + if b = a then 1 else 0 := by
  by_cases h : b = a <;> simp [Store.noteRef, h]

theorem holders_takeRef : (takeRef s a).holders b = s.holders b + if b = a then 1 else 0 := by
  have hre : (takeRef s a).refs b = s.refs b + if b = a then 1 else 0 := refs_noteRef
  simp only [Store.holders, linked_takeRef, hre]
  show _ + s.bumps.count b + _ = _
  omega

theorem refcount_takeRef (h : (s.items a).refcount + 1 < 2 ^ 16) :
    ((takeRef s a).items b).refcount = (s.items b).refcount + if b = a then 1 else 0 := by
  rw [items_takeRef]
  split_ifs with hb
  · rw [hb, Nat.mod_eq_of_lt h]
  · rfl

end

/-- The caller takes a reference. -/
theorem Inv.takeRef (h : Inv S s) (hh : ¬s.Slabbed a) (hl : (s.items a).refcount + 1 < 2 ^ 16) :
    Inv S (takeRef s a) where
  toTidy := h.toTidy.of_items items_takeRef (.inl rfl)
  toIndexed := h.toIndexed.of_items items_takeRef rfl rfl rfl (fun _ => rfl) rfl rfl
  refcount := fun b => by rw [refcount_takeRef hl, holders_takeRef, h.refcount]
  lt := fun b => by
    rw [refcount_takeRef hl]
    split_ifs with hb
    · rwa [hb]
    · exact h.lt b
  slabbed := fun b => by
    have hs : (Items.takeRef s a).Slabbed b ↔ s.Slabbed b :=
      Eq.congr_left (proj_of_items (fun it => it.flags.slabbed) items_takeRef (by rfl) b)
    rw [hs, holders_takeRef, h.slabbed]
    by_cases hb : b = a
    · rw [h.slabbed] at hh
      simpa [hb] using hh
    · simp [hb]
  freed := h.freed

/-- What `do_item_remove` of a held reference leaves of the item. -/
def Item.released (it : Item) : Item :=
  { it with
    refcount := it.refcount - 1
    flags := if it.refcount = 1 then { slabbed := true } else it.flags }

theorem releaseRef_eq (h : Inv S s) (hr : 0 < s.refs a) :
    (∀ b, (releaseRef s a).items b = if b = a then (s.items a).released else s.items b) ∧
      (releaseRef s a).freed =
        if (s.items a).refcount = 1 then
          ⟨(s.items a).flags.linked, (s.items a).flags.slabbed,
            s.refs a - 1 + s.bumps.count a⟩ :: s.freed
        else s.freed := by
  have hc : 0 < (s.items a).refcount := by
    rw [h.refcount, Store.holders]
    omega
  have hd : ((s.items a).refcount + (2 ^ 16 - 1)) % 2 ^ 16 = (s.items a).refcount - 1 := by
    have := h.lt a
    omega
  have hi : (refcountDecr (s.forgetRef a) a).items a =
      { s.items a with refcount := (s.items a).refcount - 1 } := by
    simp [refcountDecr, Store.forgetRef, ← hd]
  unfold releaseRef doItemRemove
  simp only [hi]
  by_cases ho : (s.items a).refcount = 1
  · simp only [ho, Nat.sub_self, if_true]
    refine ⟨fun b => ?_, ?_⟩
    · simp only [itemFree, items_modify, hi]
      split_ifs with hb
      · simp [Item.released, ho]
      · exact items_modify_of_ne hb _
    · simp [itemFree, refcountDecr, Store.forgetRef, Store.modify]
  · have hn : ¬(s.items a).refcount - 1 = 0 := by omega
    simp only [if_neg hn, if_neg ho]
    refine ⟨fun b => ?_, rfl⟩
    split_ifs with hb
    · rw [hb, hi, Item.released, if_neg ho]
    · exact items_modify_of_ne hb _

theorem proj_releaseRef {β : Type*} (p : Item → β) (h : Inv S s) (hr : 0 < s.refs a)
    (hp : p (s.items a).released = p (s.items a)) (b : Addr) :
    p ((releaseRef s a).items b) = p (s.items b) :=
  proj_of_items p (releaseRef_eq h hr).1 hp b

section

variable (h : Inv S s) (hr : 0 < s.refs a)
include h hr

theorem Inv.not_linked_of_refcount (ho : (s.items a).refcount = 1) :
    (s.items a).flags.linked = false ∧ s.refs a = 1 ∧ s.bumps.count a = 0 := by
  rw [h.refcount, Store.holders] at ho
  by_cases hl : s.Linked a
  · simp only [hl, if_true] at ho
    omega
  · simp only [hl, if_false] at ho
    exact ⟨by simpa [Store.Linked] using hl, by omega, by omega⟩

theorem linked_released : (s.items a).released.flags.linked = (s.items a).flags.linked := by
  simp only [Item.released]
  split_ifs with ho
  · exact (h.not_linked_of_refcount hr ho).1.symm
  · rfl

theorem linked_releaseRef : (releaseRef s a).Linked b ↔ s.Linked b :=
  Eq.congr_left (proj_releaseRef (fun it => it.flags.linked) h hr (linked_released h hr) b)

end

section

omit [Fintype Addr]

@[simp] theorem refs_doItemRemove : (doItemRemove s a).refs = s.refs := by
  simp only [doItemRemove]
  split_ifs <;> rfl

@[simp] theorem bumps_doItemRemove : (doItemRemove s a).bumps = s.bumps := by
  simp only [doItemRemove]
  split_ifs <;> rfl

@[simp] theorem assoc_doItemRemove : (doItemRemove s a).assoc = s.assoc := by
  simp only [doItemRemove]
  split_ifs <;> rfl

@[simp] theorem lru_doItemRemove : (doItemRemove s a).lru = s.lru := by
  simp only [doItemRemove]
  split_ifs <;> rfl

theorem refs_releaseRef : (releaseRef s a).refs b = s.refs b - if b = a then 1 else 0 := by
  unfold releaseRef
  rw [refs_doItemRemove]
  by_cases h : b = a <;> simp [Store.forgetRef, h]

end

theorem holders_releaseRef (h : Inv S s) (hr : 0 < s.refs a) :
    (releaseRef s a).holders b = s.holders b - if b = a then 1 else 0 := by
  have hbu : (releaseRef s a).bumps = s.bumps := bumps_doItemRemove
  simp only [Store.holders, linked_releaseRef h hr, refs_releaseRef, hbu]
  split_ifs with hb <;> (try rw [hb]) <;> omega

/-- The caller gives a reference back; the last one frees the item. -/
theorem Inv.releaseRef (h : Inv S s) (hr : 0 < s.refs a) : Inv S (releaseRef s a) where
  toTidy := h.toTidy.of_items (releaseRef_eq h hr).1 <| by
    by_cases ho : (s.items a).refcount = 1
    · exact .inr (.inl (by simp [Item.content, Item.released, ho]))
    · exact .inl (by simp [Item.content, Item.released, ho])
  toIndexed := h.toIndexed.of_items (releaseRef_eq h hr).1 rfl (linked_released h hr) rfl
    (fun hl => by
      have ho : (s.items a).refcount ≠ 1 := fun ho =>
        absurd hl (by simp [Store.Linked, (h.not_linked_of_refcount hr ho).1])
      simp [Item.released, ho, Item.bytes, Item.ntotal, Item.lruBytes, Item.nbytes])
    assoc_doItemRemove lru_doItemRemove
  refcount := fun b => by
    rw [holders_releaseRef h hr, ← h.refcount, (releaseRef_eq h hr).1]
    split_ifs with hb
    · rw [hb]
      rfl
    · simp
  lt := fun b => by
    rw [(releaseRef_eq h hr).1]
    split_ifs with hb
    · exact lt_of_le_of_lt (Nat.sub_le _ 1) (h.lt a)
    · exact h.lt b
  slabbed := fun b => by
    rw [holders_releaseRef h hr, ← h.refcount, Store.Slabbed, (releaseRef_eq h hr).1]
    have hn : (s.items a).flags.slabbed = false := by
      have := h.slabbed a
      rw [Store.Slabbed, Store.holders] at this
      by_contra hs
      have := this.mp (by simpa using hs)
      omega
    have hp : 0 < (s.items a).refcount := by
      rw [h.refcount, Store.holders]
      omega
    split_ifs with hb
    · rw [hb]
      by_cases ho : (s.items a).refcount = 1
      · simp [Item.released, ho]
      · have hne : ¬(s.items a).refcount - 1 = 0 := by omega
        simp [Item.released, ho, hn, hne]
    · rw [Nat.sub_zero, h.refcount, ← h.slabbed]
      rfl
  freed := by
    rw [(releaseRef_eq h hr).2]
    split_ifs with ho
    · intro f hf
      obtain rfl | hf := List.mem_cons.mp hf
      · obtain ⟨hl, hre, hc⟩ := h.not_linked_of_refcount hr ho
        refine ⟨hl, ?_, by simp [hre, hc]⟩
        have := (h.slabbed a).not.mpr (by rw [← h.refcount]; omega)
        simpa [Store.Slabbed] using this
      · exact h.freed f hf
    · exact h.freed

omit [Fintype Addr] in
theorem doItemRemove_eq (s : Store Addr) (a : Addr) :
    doItemRemove s a = releaseRef (s.noteRef a) a := by
  have : (s.noteRef a).forgetRef a = s := by
    simp [Store.noteRef, Store.forgetRef]
  rw [releaseRef, this]

/-! ## Linking and unlinking -/

section

omit [Fintype Addr]

theorem items_setFreshCas (b : Addr) :
    (setFreshCas S s a).items b =
      if b = a then { s.items a with casUnique := freshCas S s a } else s.items b := by
  show (s.modify a fun it => { it with casUnique := freshCas S s a }).items b = _
  exact items_modify _ b

theorem SameFrame.setFreshCas : SameFrame s (setFreshCas S s a) :=
  .of_items items_setFreshCas rfl rfl rfl rfl rfl rfl rfl

theorem items_touchTime (b : Addr) :
    (touchTime s a).items b =
      if b = a then { s.items a with time := s.currentTime } else s.items b :=
  items_modify _ b

theorem SameFrame.touchTime : SameFrame s (touchTime s a) :=
  .of_items items_touchTime rfl rfl rfl rfl rfl rfl rfl

end

def linkedItem (S : Settings) (s : Store Addr) (a : Addr) : Item :=
  { s.items a with
    time := s.currentTime
    casUnique := freshCas S s a
    refcount := ((s.items a).refcount + 1) % 2 ^ 16
    flags := { (s.items a).flags with linked := true } }

section

omit [Fintype Addr]

theorem items_doItemLink (b : Addr) :
    (doItemLink S s a).items b = if b = a then linkedItem S s a else s.items b := by
  have hf : freshCas S (touchTime s a) a = freshCas S s a := by
    simp [freshCas, Store.nextCasId, touchTime, Store.modify]
  simp only [doItemLink, refcountIncr, doItemLinkQ, hashLink, items_modify, items_setFreshCas,
    items_touchTime, hf, if_true]
  split_ifs <;> rfl

@[simp] theorem refs_doItemLink : (doItemLink S s a).refs = s.refs := rfl

@[simp] theorem bumps_doItemLink : (doItemLink S s a).bumps = s.bumps := rfl

theorem assoc_doItemLink : (doItemLink S s a).assoc = assocInsert s.assoc a (S.hash (s.key a)) := by
  show assocInsert s.assoc a (S.hash ((Items.setFreshCas S (touchTime s a) a).key a)) = _
  rw [SameFrame.setFreshCas.key, SameFrame.touchTime.key]

theorem lru_doItemLink :
    (doItemLink S s a).lru =
      { s.lru with
        ptrs := s.lru.ptrs.pushHead (s.items a).queue (.inl a)
        sizes := update s.lru.sizes (s.items a).queue (s.lru.sizes (s.items a).queue + 1)
        sizesBytes := update s.lru.sizesBytes (s.items a).queue
          (s.lru.sizesBytes (s.items a).queue + (s.items a).lruBytes)
        currItems := s.lru.currItems + 1
        currBytes := s.lru.currBytes + (s.items a).ntotal } := by
  have hi : (hashLink S (Items.setFreshCas S (touchTime s a) a) a).items a =
      { s.items a with
        time := s.currentTime
        casUnique := freshCas S (touchTime s a) a
        flags := { (s.items a).flags with linked := true } } := by
    simp [hashLink, items_setFreshCas, items_touchTime]
  simp only [Items.doItemLink, doItemLinkQ, refcountIncr, Store.modify, hi]
  simp only [hashLink, items_setFreshCas, items_touchTime, if_true]
  rfl

theorem linked_doItemLink : (doItemLink S s a).Linked b ↔ b = a ∨ s.Linked b := by
  rw [Store.Linked, items_doItemLink]
  split_ifs with hb
  · simp [hb, linkedItem]
  · simp [hb, Store.Linked]

end

theorem stored_doItemLink : (doItemLink S s a).stored = insert a s.stored := by
  ext b
  simp [linked_doItemLink]

section

omit [Fintype Addr]

theorem key_doItemLink : (doItemLink S s a).key = s.key :=
  funext fun b => proj_of_items Item.key items_doItemLink (by rfl) b

theorem holders_doItemLink (hl : ¬s.Linked a) :
    (doItemLink S s a).holders b = s.holders b + if b = a then 1 else 0 := by
  simp only [Store.holders, linked_doItemLink, refs_doItemLink, bumps_doItemLink]
  by_cases hb : b = a
  · simp [hb, hl]
  · simp [hb]

end

theorem Indexed.doItemLink (h : Indexed S s) (hl : ¬s.Linked a)
    (ha : ∀ b, s.Linked b → s.key b ≠ s.key a) : Indexed S (doItemLink S s a) where
  assoc := by
    rw [key_doItemLink, assoc_doItemLink, stored_doItemLink]
    exact h.assoc.assocInsert (by simpa using hl) (by simpa using ha)
  lru := by
    rw [lru_doItemLink]
    refine (h.lru.pushHead (i := (s.items a).queue) (a := .inl a)
      (by simp [Store.place, hl])).congr_place fun n i => ?_
    cases n with
    | inl b =>
      by_cases hb : b = a
      · simp [hb, Store.place, linked_doItemLink, items_doItemLink, linkedItem, Item.queue]
      · simp [hb, Store.place, linked_doItemLink, items_doItemLink]
    | inr q => simp [Store.place, lru_doItemLink]
  sized := by
    have hs := stored_doItemLink (S := S) (s := s) (a := a)
    have hm : a ∉ s.stored := by simpa using hl
    have ho : ∀ b ∈ s.stored, (Items.doItemLink S s a).items b = s.items b := by
      intro b hb
      rw [items_doItemLink, if_neg (ne_of_mem_of_not_mem hb hm)]
    have hi : (Items.doItemLink S s a).items a = linkedItem S s a := by
      rw [items_doItemLink, if_pos rfl]
    constructor
    · have hsa : Tallied s.lru (Items.doItemLink S s a).items s.stored :=
        h.sized.toTallied.congr rfl rfl fun b hb => by
          rw [ho b hb]
          exact ⟨rfl, rfl⟩
      rw [hs]
      refine hsa.link hm ?_ ?_
      · rw [lru_doItemLink, hi]
        rfl
      · rw [lru_doItemLink, hi]
        rfl
    · rw [lru_doItemLink, hs, Finset.card_insert_of_notMem hm, ← h.sized.currItems]
    · rw [lru_doItemLink, hs, Finset.sum_insert hm, hi,
        Finset.sum_congr rfl fun b hb => by rw [ho b hb], ← h.sized.currBytes]
      exact Nat.add_comm _ _

/-- An item in the hands of the caller is linked under a free key. -/
theorem Inv.doItemLink (h : Inv S s) (hl : ¬s.Linked a) (hr : 0 < s.refs a)
    (ha : ∀ b, s.Linked b → s.key b ≠ s.key a) (hlt : (s.items a).refcount + 1 < 2 ^ 16) :
    Inv S (doItemLink S s a) where
  toTidy := h.toTidy.of_items items_doItemLink (.inl rfl)
  toIndexed := h.toIndexed.doItemLink hl ha
  refcount := fun b => by
    rw [holders_doItemLink hl, ← h.refcount, items_doItemLink]
    split_ifs with hb
    · rw [hb]
      exact Nat.mod_eq_of_lt hlt
    · rfl
  lt := fun b => by
    rw [items_doItemLink]
    split_ifs
    · exact Nat.mod_lt _ (by decide)
    · exact h.lt b
  slabbed := fun b => by
    have hs : (Items.doItemLink S s a).Slabbed b ↔ s.Slabbed b :=
      Eq.congr_left (proj_of_items (fun it => it.flags.slabbed) items_doItemLink (by rfl) b)
    rw [hs, holders_doItemLink hl, h.slabbed]
    by_cases hb : b = a
    · have : s.holders a ≠ 0 := by
        rw [Store.holders]
        omega
      simpa [hb] using this
    · simp [hb]
  freed := h.freed

/-- The state of `do_item_unlink` before it drops the reference of the link, which is
handed to the caller. -/
def unlinked (S : Settings) (s : Store Addr) (a : Addr) : Store Addr :=
  (doItemUnlinkQ (hashUnlink S s a) a).noteRef a

theorem doItemUnlink_of_linked (hl : s.Linked a) :
    doItemUnlink S s a = releaseRef (unlinked S s a) a := by
  unfold doItemUnlink unlinked
  rw [if_pos (show (s.items a).flags.linked = true from hl), doItemRemove_eq]

theorem doItemUnlink_of_not_linked (hl : ¬s.Linked a) : doItemUnlink S s a = s :=
  if_neg hl

theorem items_unlinked (b : Addr) :
    (unlinked S s a).items b =
      if b = a then { s.items a with flags := { (s.items a).flags with linked := false } }
      else s.items b := by
  show (s.modify a fun it => { it with flags := { it.flags with linked := false } }).items b = _
  exact items_modify _ b

theorem linked_unlinked : (unlinked S s a).Linked b ↔ b ≠ a ∧ s.Linked b := by
  rw [Store.Linked, items_unlinked]
  split_ifs with hb <;> simp [hb, Store.Linked]

theorem stored_unlinked : (unlinked S s a).stored = s.stored.erase a := by
  ext b
  simp [linked_unlinked]

theorem lru_unlinked :
    (unlinked S s a).lru =
      { s.lru with
        ptrs := s.lru.ptrs.unlink (s.items a).queue (.inl a)
        sizes := update s.lru.sizes (s.items a).queue (s.lru.sizes (s.items a).queue - 1)
        sizesBytes := update s.lru.sizesBytes (s.items a).queue
          (s.lru.sizesBytes (s.items a).queue - (s.items a).lruBytes)
        currItems := s.lru.currItems - 1
        currBytes := s.lru.currBytes - (s.items a).ntotal } := by
  have hi : (hashUnlink S s a).items a =
      { s.items a with flags := { (s.items a).flags with linked := false } } := by
    simp [hashUnlink]
  simp only [unlinked, doItemUnlinkQ, Store.noteRef, hi]
  rfl

theorem refs_unlinked : (unlinked S s a).refs b = s.refs b + if b = a then 1 else 0 :=
  refs_noteRef

theorem holders_unlinked (hl : s.Linked a) : (unlinked S s a).holders b = s.holders b := by
  simp only [Store.holders, linked_unlinked, refs_unlinked]
  show _ + s.bumps.count b + _ = _
  by_cases hb : b = a
  · simp only [hb, hl, if_true, ne_eq, not_true_eq_false, false_and, if_false]
    omega
  · simp [hb]

theorem Indexed.unlinked (h : Indexed S s) (hl : s.Linked a) :
    Indexed S (unlinked S s a) where
  assoc := by
    have hk : (Items.unlinked S s a).key = s.key :=
      funext fun b => proj_of_items Item.key items_unlinked (by rfl) b
    rw [hk, stored_unlinked]
    exact h.assoc.assocDelete (by simpa using hl)
  lru := by
    rw [lru_unlinked]
    refine (h.lru.unlink (i := (s.items a).queue) (a := .inl a)
      (by simp [Store.place, hl])).congr_place fun n i => ?_
    cases n with
    | inl b =>
      by_cases hb : b = a
      · simp [hb, Store.place, linked_unlinked]
      · simp [hb, Store.place, linked_unlinked, items_unlinked]
    | inr q => simp [Store.place, lru_unlinked]
  sized := by
    have hs := stored_unlinked (S := S) (s := s) (a := a)
    have hm : a ∈ s.stored := by simpa using hl
    have hsa : Tallied s.lru (Items.unlinked S s a).items s.stored :=
      h.sized.toTallied.congr rfl rfl fun b _ =>
        ⟨proj_of_items Item.queue items_unlinked rfl b,
          proj_of_items Item.lruBytes items_unlinked rfl b⟩
    have hi := items_unlinked (S := S) (s := s) (a := a) a
    rw [if_pos rfl] at hi
    constructor
    · rw [hs]
      refine hsa.unlink hm ?_ ?_
      · rw [lru_unlinked, hi]
        rfl
      · rw [lru_unlinked, hi]
        rfl
    · rw [lru_unlinked, hs, Finset.card_erase_of_mem hm, ← h.sized.currItems]
    · have ht : ∀ b, ((Items.unlinked S s a).items b).ntotal = (s.items b).ntotal :=
        fun b => proj_of_items Item.ntotal items_unlinked rfl b
      have hsu := Finset.add_sum_erase s.stored (fun b => (s.items b).ntotal) hm
      rw [lru_unlinked, hs, Finset.sum_congr rfl fun b _ => ht b]
      show s.lru.currBytes - (s.items a).ntotal = _
      rw [h.sized.currBytes]
      omega

/-- A linked item leaves the table and its list, for the caller to hold. -/
theorem Inv.unlinked (h : Inv S s) (hl : s.Linked a) : Inv S (unlinked S s a) where
  toIndexed := h.toIndexed.unlinked hl
  toTidy := h.toTidy.of_items items_unlinked (.inl rfl)
  toCounted := h.toCounted.congr
    (fun b => ⟨proj_of_items Item.refcount items_unlinked rfl b,
      proj_of_items (fun it => it.flags.slabbed) items_unlinked (by rfl) b⟩)
    (fun _ => holders_unlinked hl) rfl

theorem linked_doItemUnlink (h : Inv S s) : (doItemUnlink S s a).Linked b ↔ b ≠ a ∧ s.Linked b := by
  by_cases hl : s.Linked a
  · rw [doItemUnlink_of_linked hl, linked_releaseRef (h.unlinked hl) (by simp [refs_unlinked]),
      linked_unlinked]
  rw [doItemUnlink_of_not_linked hl]
  refine ⟨fun hb => ⟨?_, hb⟩, And.right⟩
  rintro rfl
  exact hl hb

@[simp] theorem refs_doItemUnlink : (doItemUnlink S s a).refs = s.refs := by
  unfold doItemUnlink
  split_ifs
  · exact refs_doItemRemove
  · rfl

@[simp] theorem bumps_doItemUnlink : (doItemUnlink S s a).bumps = s.bumps := by
  unfold doItemUnlink
  split_ifs
  · exact bumps_doItemRemove
  · rfl

/-! ## Moves between the LRU lists -/

section

omit [Fintype Addr]

theorem items_lruMove (lru : Lru) (b : Addr) :
    (lruMove s a lru).items b = if b = a then { s.items a with lru := lru } else s.items b := by
  show (s.modify a fun it => { it with lru := lru }).items b = _
  exact items_modify _ b

theorem linked_lruMove (lru : Lru) : (lruMove s a lru).Linked b ↔ s.Linked b :=
  Eq.congr_left (proj_of_items (fun it => it.flags.linked) (items_lruMove lru) (by rfl) b)

end

theorem stored_lruMove (lru : Lru) : (lruMove s a lru).stored = s.stored := by
  ext b
  rw [mem_stored, mem_stored, linked_lruMove]

omit [Fintype Addr] in
theorem ptrs_lruMove (lru : Lru) :
    (lruMove s a lru).lru.ptrs = (s.lru.ptrs.unlink (s.items a).queue (.inl a)).pushHead
      ((s.items a).clsid, lru) (.inl a) := by
  show DMem.pushHead _ (Item.queue _) (Sum.inl a) = _
  simp only [items_modify_self, Item.queue]
  rfl

/-- A linked item moves to another LRU list. -/
theorem Inv.lruMove (h : Inv S s) (hl : s.Linked a) (lru : Lru) : Inv S (lruMove s a lru) where
  toTidy := h.toTidy.of_items (items_lruMove lru) (.inl rfl)
  assoc := by
    have hk : (Items.lruMove s a lru).key = s.key :=
      funext fun b => proj_of_items Item.key (items_lruMove lru) (by rfl) b
    rw [hk, stored_lruMove]
    exact h.assoc
  lru := by
    have ho := h.lru.unlink (i := (s.items a).queue) (a := .inl a) (by simp [Store.place, hl])
    have hon := ho.pushHead (i := ((s.items a).clsid, lru)) (a := .inl a) (by simp)
    rw [ptrs_lruMove]
    refine hon.congr_place fun n i => ?_
    cases n with
    | inl b =>
      by_cases hb : b = a
      · simp [hb, Store.place, hl, linked_lruMove, items_lruMove, Item.queue]
      · simp [hb, Store.place, linked_lruMove, items_lruMove]
    | inr q =>
      have hc : (Items.lruMove s a lru).lru.crawlers = s.lru.crawlers := rfl
      simp [Store.place, hc]
  sized := by
    have hs := stored_lruMove (s := s) (a := a) lru
    have hm : a ∈ s.stored := by simpa using hl
    have hi := items_lruMove (s := s) (a := a) lru
    constructor
    · -- the item leaves the count of its list, changes its list and is counted there
      have ho : Tallied (doItemUnlinkQ s a).lru s.items (s.stored.erase a) :=
        h.sized.toTallied.unlink hm rfl rfl
      have hch : Tallied (doItemUnlinkQ s a).lru (Items.lruMove s a lru).items
          (s.stored.erase a) :=
        ho.congr rfl rfl fun b hb => by
          rw [hi, if_neg (Finset.ne_of_mem_erase hb)]
          exact ⟨rfl, rfl⟩
      rw [hs, ← Finset.insert_erase hm]
      exact hch.link (Finset.notMem_erase a _) rfl rfl
    · rw [hs]
      exact h.sized.currItems
    · rw [hs, Finset.sum_congr rfl fun b _ =>
        proj_of_items Item.ntotal hi (show _ = (s.items a).ntotal from rfl) b]
      exact h.sized.currBytes
  toCounted := h.toCounted.congr
    (fun b => ⟨proj_of_items Item.refcount (items_lruMove lru) rfl b,
      proj_of_items (fun it => it.flags.slabbed) (items_lruMove lru) (by rfl) b⟩)
    (fun b => by
      simp only [Store.holders, linked_lruMove]
      rfl) rfl

end

end Memcached.Items
