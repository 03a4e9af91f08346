import Mathlib.Data.Fintype.Sum
import Memcached.Items.Refcount

/-!
# Items rescued from a slab page that is moved

`slab_rebalance_move` (lines 956-1066) clears a page for another class. An idle linked item
on it is copied to other memory of its class: the copy of an item takes its place by
`do_item_replace`, and the neighbours of a chunk are made to point at the copy.

Results:
* `rescue_keeps_item`: a rescued item is the same but for its CAS value
* `cas_fails_after_rescue`: so a `cas` is refused
-/

namespace Memcached.Items

open Lib Assoc
open Function (update update_self update_of_ne)

/-! ## Memory -/

/-- A pointer to an `item_chunk`: the one in the header of a large item (`ITEM_schunk`),
or one with memory of its own. -/
abbrev ChunkPtr (Addr : Type*) := Addr ⊕ Addr

/-- The fields of the `item_chunk`s; `used` is the length of `data`, and `slabbed` says
whether `it_flags` has `ITEM_SLABBED`. -/
structure ChunkMem (Addr : Type*) where
  next : ChunkPtr Addr → Option (ChunkPtr Addr)
  prev : ChunkPtr Addr → Option (ChunkPtr Addr)
  head : ChunkPtr Addr → Addr
  size : ChunkPtr Addr → ℕ
  data : ChunkPtr Addr → Bytes
  slabbed : ChunkPtr Addr → Bool

/-- The items and the chunks of large ones. -/
structure Heap (Addr : Type*) where
  store : Store Addr
  chunks : ChunkMem Addr

variable {Addr : Type*} [DecidableEq Addr]

/-- `memcpy` of one `item_chunk` to another. -/
def ChunkMem.memcpy (m : ChunkMem Addr) (dst src : ChunkPtr Addr) : ChunkMem Addr where
  next := update m.next dst (m.next src)
  prev := update m.prev dst (m.prev src)
  head := update m.head dst (m.head src)
  size := update m.size dst (m.size src)
  data := update m.data dst (m.data src)
  slabbed := update m.slabbed dst (m.slabbed src)

/-! ## The rescue of `slab_rebalance_move` -/

/-- The links of a rescued chunk, and its old memory (lines 1021-1028). -/
def relinkChunk (m : ChunkMem Addr) (ch nch : ChunkPtr Addr) : ChunkMem Addr :=
  let m := { m with next := setAt m.next (m.prev ch) (some nch) }
  let m := { m with prev := setAt m.prev (m.next ch) (some nch) }
  let m := m.memcpy nch ch
  { m with slabbed := update m.slabbed ch true }

/-- The loop that repoints `head` (lines 1006-1009), at most `fuel` rounds. -/
def repointHead (next : ChunkPtr Addr → Option (ChunkPtr Addr)) (new : Addr) :
    ℕ → Option (ChunkPtr Addr) → (ChunkPtr Addr → Addr) → ChunkPtr Addr → Addr
  | 0, _, head => head
  | _ + 1, none, head => head
  | fuel + 1, some fch, head => repointHead next new fuel (next fch) (update head fch new)

section

variable [Fintype Addr]

/-- The chunks of a rescued header: the copy of the header with its `item_chunk`, and the
walk over its chunks (lines 1003-1010). -/
def relinkHeader (m : ChunkMem Addr) (it new : Addr) : ChunkMem Addr :=
  let m := m.memcpy (.inl new) (.inl it)
  let m := { m with prev := setAt m.prev (m.next (.inl new)) (some (.inl new)) }
  { m with
    head := repointHead m.next new (Fintype.card (ChunkPtr Addr)) (some (.inl new)) m.head }

/-- Clears the memory at `a` for the move: `refcount = 0` and
`it_flags = ITEM_SLABBED|ITEM_FETCHED`. -/
def clearForMove (s : Store Addr) (a : Addr) : Store Addr :=
  (s.modify a fun it =>
    { it with refcount := 0, flags := { slabbed := true, fetched := true } }).forgetRef a

/-- The copy of an item (lines 993-999): not linked, without references. -/
def Item.copied (it : Item) : Item :=
  { it with refcount := 0, flags := { it.flags with linked := false } }

/-- `memcpy` of an item to the new memory. -/
def copyItem (s : Store Addr) (it new : Addr) : Store Addr :=
  (s.modify new fun _ => (s.items it).copied).forgetRef new

/-- The rescue of an item (lines 990-1018). -/
def rescueItem (S : Settings) (m : Heap Addr) (it new : Addr) : Heap Addr :=
  { store := clearForMove (doItemReplace S (copyItem (slabTake m.store new) it new) it new) it
    chunks :=
      if (m.store.items it).flags.chunked then relinkHeader m.chunks it new else m.chunks }

/-- The rescue of a chunk (lines 1019-1034). -/
def rescueChunk (m : Heap Addr) (it ch nch : Addr) : Heap Addr :=
  { store := (refcountDecr m.store it).forgetRef it
    chunks := relinkChunk m.chunks (.inr ch) (.inr nch) }

/-- `MOVE_FROM_LRU` of `slab_rebalance_move` (lines 956-1066) for the idle item
`it`, or for the chunk `ch` of it, with the memory that `slab_rebalance_alloc` found. The
mover has just taken its reference. -/
def moveFromLru (S : Settings) (m : Heap Addr) (it : Addr) (ch new : Option Addr) : Heap Addr :=
  let i := m.store.items it
  let expired := i.exptime != 0 && i.exptime < m.store.currentTime
  match new with
  | some new =>
    if expired || itemIsFlushed m.store i then unsaved ch.isSome
    else match ch with
      | none => rescueItem S m it new
      | some ch => rescueChunk m it ch new
  | none => unsaved ch.isSome
where
  /-- There is no memory, or the item is not worth saving. -/
  unsaved (chunk : Bool) : Heap Addr :=
    let s := doItemUnlink S m.store it
    if ¬chunk ∧ (m.store.items it).flags.chunked = false then
      { m with store := clearForMove s it }
    else { m with store := itemFree (s.forgetRef it) it }

end

/-! ## Chains of chunks -/

/-- The chunks of the item are `l`, and hold its value. -/
structure Heap.Chain (m : Heap Addr) (it : Addr) (l : List (ChunkPtr Addr)) : Prop where
  next : Linked m.chunks.next (some (.inl it)) l
  prev : Linked m.chunks.prev l.getLast? l.reverse
  head : ∀ p ∈ l, m.chunks.head p = it
  data : l.flatMap m.chunks.data = (m.store.items it).data

variable {m : ChunkMem Addr} {it ch nch new : Addr} {l : List (ChunkPtr Addr)}

theorem repointHead_eq {next : ChunkPtr Addr → Option (ChunkPtr Addr)}
    {p : Option (ChunkPtr Addr)} (h : Linked next p l) (fuel : ℕ) (hf : l.length ≤ fuel)
    (head : ChunkPtr Addr → Addr) {q : ChunkPtr Addr} (hq : q ∈ l ∨ head q = new) :
    repointHead next new fuel p head q = new := by
  induction l generalizing p fuel head with
  | nil =>
    obtain rfl := linked_nil.mp h
    have hh : head q = new := by simpa using hq
    cases fuel <;> exact hh
  | cons a l ih =>
    obtain ⟨rfl, hr⟩ := h
    cases fuel with
    | zero => simp at hf
    | succ fuel =>
      refine ih hr fuel (by simpa using hf) _ ?_
      by_cases hqa : q = a
      · exact .inr (by rw [hqa, update_self])
      · rw [update_of_ne hqa]
        simpa [hqa] using hq

section

omit [DecidableEq Addr]

theorem prev_eq_getLast? {prev : ChunkPtr Addr → Option (ChunkPtr Addr)}
    {l1 l2 : List (ChunkPtr Addr)} {p : Option (ChunkPtr Addr)} {a : ChunkPtr Addr}
    (h : Linked prev p (l1 ++ a :: l2).reverse) : prev a = l1.getLast? := by
  have hr : (l1 ++ a :: l2).reverse = l2.reverse ++ a :: l1.reverse := by simp
  rw [hr] at h
  rw [← (linked_append_cons h).head?_eq, List.head?_reverse]

theorem Heap.Chain.split {m : Heap Addr} (h : m.Chain it l) {p : ChunkPtr Addr} (hp : p ∈ l) :
    ∃ l1 l2, l = l1 ++ p :: l2 ∧ m.chunks.prev p = l1.getLast? ∧
      m.chunks.next p = l2.head? := by
  obtain ⟨l1, l2, rfl⟩ := List.append_of_mem hp
  refine ⟨l1, l2, rfl, prev_eq_getLast? h.prev, ?_⟩
  exact (linked_append_cons h.next).head?_eq.symm

theorem Heap.Chain.eq_cons {m : Heap Addr} (h : m.Chain it l) : ∃ t, l = .inl it :: t := by
  cases l with
  | nil => cases linked_nil.mp h.next
  | cons a t => exact ⟨t, by rw [Option.some.inj h.next.1]⟩

end

section

variable {l2 : List (ChunkPtr Addr)} {a b : ChunkPtr Addr} (l1 : List (ChunkPtr Addr))

theorem linked_reverse_replace {prev : ChunkPtr Addr → Option (ChunkPtr Addr)}
    (h : Linked prev (l1 ++ a :: l2).getLast? (l1 ++ a :: l2).reverse) (hb : b ∉ l1 ++ a :: l2) :
    Linked (update (setAt prev l2.head? (some b)) b (prev a)) (l1 ++ b :: l2).getLast?
      (l1 ++ b :: l2).reverse := by
  have hr : ∀ p : ChunkPtr Addr, (l1 ++ p :: l2).reverse = l2.reverse ++ p :: l1.reverse := by
    simp
  rw [hr] at h
  have hre := h.replace (b := b) (by rwa [← hr, List.mem_reverse])
  rw [← List.head?_reverse, hr, hre.head?_eq]
  rwa [List.getLast?_reverse] at hre

theorem flatMap_replace {data : ChunkPtr Addr → Bytes} (hb : b ∉ l1 ++ a :: l2) :
    (l1 ++ b :: l2).flatMap (update data b (data a)) = (l1 ++ a :: l2).flatMap data := by
  have hk : ∀ l : List (ChunkPtr Addr), b ∉ l →
      l.flatMap (update data b (data a)) = l.flatMap data := fun l hl =>
    List.flatMap_congr fun p hp => update_of_ne (ne_of_mem_of_not_mem hp hl) _ _
  rw [List.mem_append, List.mem_cons, not_or, not_or] at hb
  rw [List.flatMap_append, List.flatMap_append, List.flatMap_cons, List.flatMap_cons, update_self,
    hk l1 hb.1, hk l2 hb.2.2]

end

theorem relinkChunk_chain {m m' : Heap Addr} (h : m.Chain it l) (hch : .inr ch ∈ l)
    (hnc : .inr nch ∉ l) (hm : m'.chunks = relinkChunk m.chunks (.inr ch) (.inr nch))
    (hd : (m'.store.items it).data = (m.store.items it).data) : ∃ l', m'.Chain it l' := by
  obtain ⟨l1, l2, rfl, hpr, hne⟩ := h.split hch
  have hn := h.next.nodup
  have hs : l1.getLast? ≠ some (.inr ch) := fun he =>
    (List.nodup_append.mp hn).2.2 _ (List.mem_of_getLast? he) _ (by simp) rfl
  have hs' : l2.head? ≠ some (.inr ch) := by
    intro he
    have hco := (List.nodup_cons.mp (List.nodup_append.mp hn).2.1).1
    exact hco (List.mem_of_head? he)
  have hc : m'.chunks =
      { next := update (setAt m.chunks.next l1.getLast? (some (.inr nch))) (.inr nch)
          (m.chunks.next (.inr ch))
        prev := update (setAt m.chunks.prev l2.head? (some (.inr nch))) (.inr nch)
          (m.chunks.prev (.inr ch))
        head := update m.chunks.head (.inr nch) (m.chunks.head (.inr ch))
        size := update m.chunks.size (.inr nch) (m.chunks.size (.inr ch))
        data := update m.chunks.data (.inr nch) (m.chunks.data (.inr ch))
        slabbed := m'.chunks.slabbed } := by
    rw [hm]
    simp only [relinkChunk, ChunkMem.memcpy, hpr]
    rw [setAt_of_ne hs, hne, setAt_of_ne hs', hpr]
  refine ⟨l1 ++ .inr nch :: l2, ?_, ?_, fun p hp => ?_, ?_⟩
  · have hr := h.next.replace hnc
    rw [if_neg (by simp)] at hr
    rwa [hc]
  · rw [hc]
    exact linked_reverse_replace l1 h.prev hnc
  · rw [hc]
    show update m.chunks.head _ _ p = it
    by_cases hpn : p = .inr nch
    · rw [hpn, update_self]
      exact h.head _ hch
    · rw [update_of_ne hpn]
      rw [List.mem_append, List.mem_cons, or_iff_right hpn] at hp
      exact h.head p (List.mem_append.mpr (hp.imp_right (List.mem_cons_of_mem _)))
  · rw [hd, ← h.data, hc]
    exact flatMap_replace l1 hnc

theorem relinkHeader_chain [Fintype Addr] {m m' : Heap Addr} (h : m.Chain it l)
    (hnew : .inl new ∉ l) (hm : m'.chunks = relinkHeader m.chunks it new)
    (hd : (m'.store.items new).data = (m.store.items it).data) : ∃ l', m'.Chain new l' := by
  obtain ⟨t, rfl⟩ := h.eq_cons
  have hne : ∀ p ∈ t, p ≠ .inl new := fun p hp he => hnew (by simp [← he, hp])
  obtain ⟨-, hn⟩ := h.next
  have hhe : m.chunks.next (.inl it) = t.head? := hn.head?_eq.symm
  have hc : m'.chunks =
      { next := update m.chunks.next (.inl new) (m.chunks.next (.inl it))
        prev := setAt (update m.chunks.prev (.inl new) (m.chunks.prev (.inl it)))
          t.head? (some (.inl new))
        head := m'.chunks.head
        size := m'.chunks.size
        data := update m.chunks.data (.inl new) (m.chunks.data (.inl it))
        slabbed := m'.chunks.slabbed } := by
    rw [hm]
    simp only [relinkHeader, ChunkMem.memcpy, update_self, hhe]
  have hf : Linked m.chunks.next (some (.inl it)) ([] ++ .inl it :: t) := h.next
  have hr := hf.replace hnew
  rw [if_pos rfl] at hr
  have hl : Linked m'.chunks.next (some (.inl new)) (.inl new :: t) := by
    rw [hc]
    exact hr
  refine ⟨.inl new :: t, hl, ?_, fun p hp => ?_, ?_⟩
  · have hr := linked_reverse_replace [] h.prev hnew
    rw [hc]
    have hco : setAt (update m.chunks.prev (.inl new) (m.chunks.prev (.inl it)))
        t.head? (some (.inl new)) =
        update (setAt m.chunks.prev t.head? (some (.inl new))) (.inl new)
          (m.chunks.prev (.inl it)) := by
      cases hh : t.head? with
      | none => rfl
      | some c => exact Function.update_comm (hne c (List.mem_of_head? hh)).symm _ _ _
    rw [hco]
    exact hr
  · have hlo : m'.chunks.head =
        repointHead m'.chunks.next new (Fintype.card (ChunkPtr Addr)) (some (.inl new))
          (update m.chunks.head (.inl new) (m.chunks.head (.inl it))) := by
      rw [hm]
      rfl
    rw [hlo]
    exact repointHead_eq hl _ hl.length_le_card _ (.inl hp)
  · rw [hd, ← h.data, hc]
    exact flatMap_replace [] hnew

/-! ## What clients see -/

/-- What `gets` and `mg` tell about an item, apart from its CAS value: value, client flags,
expiry time and the marks. -/
def Item.visible (it : Item) : Bytes × Bytes × ℕ × ℕ × Bool × Bool × Bool :=
  (it.key, it.data, it.flagsConv, it.exptime, it.flags.stale, it.flags.tokenSent,
    it.flags.keyBinary)

section Store

variable {S : Settings} {s : Store Addr}

theorem items_copyItem (hn : it ≠ new) (b : Addr) :
    (copyItem (slabTake s new) it new).items b =
      if b = new then (s.items it).copied else s.items b := by
  have hit : (slabTake s new).items it = s.items it := update_of_ne hn _ _
  show ((slabTake s new).modify new fun _ => ((slabTake s new).items it).copied).items b = _
  rw [items_modify, hit]
  split_ifs with hb
  · rfl
  · exact update_of_ne hb _ _

theorem items_doItemRemove_of_ne {a b : Addr} (hb : b ≠ a) :
    (doItemRemove s a).items b = s.items b := by
  have hd : (refcountDecr s a).items b = s.items b := update_of_ne hb _ _
  unfold doItemRemove
  simp only
  split_ifs
  · exact (update_of_ne hb _ _).trans hd
  · exact hd

variable [Fintype Addr]

theorem items_doItemUnlink_of_ne {a b : Addr} (hb : b ≠ a) :
    (doItemUnlink S s a).items b = s.items b := by
  unfold doItemUnlink
  split_ifs
  · exact (items_doItemRemove_of_ne hb).trans (update_of_ne hb _ _)
  · rfl

theorem assoc_doItemUnlink {a : Addr} (hl : s.Linked a) :
    (doItemUnlink S s a).assoc = assocDelete s.key s.assoc (s.key a) (S.hash (s.key a)) := by
  unfold doItemUnlink
  rw [if_pos (show (s.items a).flags.linked = true from hl), assoc_doItemRemove]
  rfl

/-- The item that the rescue puts in the place of `it`. -/
def rescuedItem (S : Settings) (s : Store Addr) (it : Addr) : Item :=
  { s.items it with
    time := s.currentTime
    casUnique := freshCas S s it
    refcount := 1 }

theorem rescueItem_spec {m : Heap Addr} (h : Inv S m.store) (hl : m.store.Linked it)
    (hfre : m.store.Slabbed new) :
    (rescueItem S m it new).store.items new = rescuedItem S m.store it ∧
      assocFind (rescueItem S m it new).store.key (rescueItem S m it new).store.assoc
        (m.store.key it) (S.hash (m.store.key it)) = some new := by
  have hn : ¬m.store.Linked new := fun hl' => h.not_slabbed_of_linked hl' hfre
  have hne : it ≠ new := fun he => hn (he ▸ hl)
  have hite := items_copyItem (s := m.store) hne
  have hs : (rescueItem S m it new).store =
      clearForMove (doItemLink S (doItemUnlink S (copyItem (slabTake m.store new) it new) it) new)
        it := rfl
  have hfr : (copyItem (slabTake m.store new) it new).assoc = m.store.assoc ∧
      (copyItem (slabTake m.store new) it new).casId = m.store.casId ∧
      (copyItem (slabTake m.store new) it new).currentTime = m.store.currentTime :=
    ⟨rfl, rfl, rfl⟩
  rw [hs]
  generalize copyItem (slabTake m.store new) it new = s1 at hite hfr
  obtain ⟨ha1, hc1, hn1⟩ := hfr
  have hl1 : s1.Linked it := by
    rw [Store.Linked, hite, if_neg hne]
    exact hl
  have ha2 := assoc_doItemUnlink (S := S) hl1
  have hc2 : (doItemUnlink S s1 it).casId = s1.casId := by
    rw [doItemUnlink, if_pos (show (s1.items it).flags.linked = true from hl1)]
    exact casId_doItemRemove
  have hno2 : (doItemUnlink S s1 it).currentTime = s1.currentTime := by
    rw [doItemUnlink, if_pos (show (s1.items it).flags.linked = true from hl1)]
    exact currentTime_of_clock clock_doItemRemove
  have hi2 : ∀ b, b ≠ it → (doItemUnlink S s1 it).items b = s1.items b :=
    fun b hb => items_doItemUnlink_of_ne hb
  generalize doItemUnlink S s1 it = s2 at ha2 hc2 hno2 hi2
  have hn2 : s2.items new = (m.store.items it).copied := by
    rw [hi2 new hne.symm, hite, if_pos rfl]
  have hitem : (clearForMove (doItemLink S s2 new) it).items new = rescuedItem S m.store it := by
    have hc : (clearForMove (doItemLink S s2 new) it).items new =
        (doItemLink S s2 new).items new := update_of_ne hne.symm _ _
    have hfl : (m.store.items it).flags.linked = true := hl
    rw [hc, items_doItemLink, if_pos rfl]
    simp only [linkedItem, hn2, freshCas, Store.nextCasId, hno2, hc2, hn1, hc1,
      rescuedItem, Item.copied]
    cases hi : (m.store.items it).flags
    simp_all
  refine ⟨hitem, ?_⟩
  set final := clearForMove (doItemLink S s2 new) it
  have hk : ∀ b, b ≠ it → final.key b = s1.key b := by
    intro b hb
    have hc : final.items b = (doItemLink S s2 new).items b := update_of_ne hb _ _
    have hli : (doItemLink S s2 new).key b = s2.key b := congrFun key_doItemLink b
    exact (congrArg Item.key hc).trans (hli.trans (congrArg Item.key (hi2 b hb)))
  have hf : final.key new = m.store.key it := by
    rw [Store.key, hitem]
    rfl
  have ho : ∀ b ∈ m.store.stored, s1.key b = m.store.key b := by
    intro b hb
    have hbn : b ≠ new := by
      rintro rfl
      exact hn (by simpa using hb)
    rw [Store.key, hite, if_neg hbn, Store.key]
  have hm : it ∈ m.store.stored := by simpa using hl
  have hk' : ∀ b ∈ m.store.stored.erase it, final.key b = s1.key b :=
    fun b hb => hk b (Finset.ne_of_mem_erase hb)
  have ha : new ∉ m.store.stored.erase it :=
    fun hm' => hn (by simpa using Finset.mem_of_mem_erase hm')
  have hin2 := ((h.assoc.congr_key ho).assocDelete hm).congr_key hk'
  have hi3 := hin2.assocInsert ha fun b hb he => by
      rw [hk b (Finset.ne_of_mem_erase hb), ho b (Finset.mem_of_mem_erase hb), hf] at he
      have hlb : m.store.Linked b := by simpa using Finset.mem_of_mem_erase hb
      exact Finset.ne_of_mem_erase hb (h.eq_of_key hlb hl he)
  have has : final.assoc = assocInsert s2.assoc new (S.hash (final.key new)) := by
    show (doItemLink S s2 new).assoc = _
    rw [assoc_doItemLink, hf, Store.key, hn2]
    rfl
  rw [has, ha2, ha1, ← hf]
  exact hi3.assocFind_eq_some_iff.mpr ⟨Finset.mem_insert_self _ _, rfl⟩

theorem rescueChunk_spec {m : Heap Addr} (h : Inv S m.store) (hl : m.store.Linked it) :
    (∃ n, (rescueChunk m it ch nch).store.items it = { m.store.items it with refcount := n }) ∧
      assocFind (rescueChunk m it ch nch).store.key (rescueChunk m it ch nch).store.assoc
        (m.store.key it) (S.hash (m.store.key it)) = some it := by
  have hk : (rescueChunk m it ch nch).store.key = m.store.key := by
    funext b
    show ((refcountDecr m.store it).items b).key = _
    rw [refcountDecr, items_modify]
    split_ifs with hb
    · rw [hb, Store.key]
    · rfl
  constructor
  · show ∃ n, (refcountDecr m.store it).items it = _
    rw [refcountDecr, items_modify, if_pos rfl]
    exact ⟨_, rfl⟩
  · rw [hk]
    exact h.find_eq_some_iff.mpr ⟨hl, rfl⟩

/-- What the mover found at a place of the page, and the memory it got for the copy. -/
structure Rescuable (S : Settings) (m : Heap Addr) (it : Addr) (ch : Option Addr) (new : Addr)
    (l : List (ChunkPtr Addr)) : Prop where
  inv : Inv S m.store
  linked : m.store.Linked it
  saved : ((m.store.items it).exptime != 0 &&
    (m.store.items it).exptime < m.store.currentTime) = false ∧
      itemIsFlushed m.store (m.store.items it) = false
  chain : (m.store.items it).flags.chunked = true → m.Chain it l
  item : ch = none → m.store.Slabbed new ∧ .inl new ∉ l
  chunk : ∀ c, ch = some c →
    (m.store.items it).flags.chunked = true ∧ .inr c ∈ l ∧ .inr new ∉ l

theorem moveFromLru_eq {m : Heap Addr} {ch : Option Addr} (h : Rescuable S m it ch new l) :
    moveFromLru S m it ch (some new) =
      match ch with
      | none => rescueItem S m it new
      | some ch => rescueChunk m it ch new := by
  unfold moveFromLru
  simp only [h.saved.1, h.saved.2, Bool.or_self, Bool.false_eq_true, if_false]
  cases ch <;> rfl

/-- After a rescue the key leads to an item with the same value, client flags, expiry time
and marks, whose chain of chunks holds its value. Its CAS value is the one it had
exactly when only a chunk moved, CAS is off, or the next id is the old one. -/
theorem rescue_keeps_item {m : Heap Addr} {ch : Option Addr} (h : Rescuable S m it ch new l) :
    ∃ a, assocFind (moveFromLru S m it ch (some new)).store.key
        (moveFromLru S m it ch (some new)).store.assoc (m.store.key it)
        (S.hash (m.store.key it)) = some a ∧
      ((moveFromLru S m it ch (some new)).store.items a).visible = (m.store.items it).visible ∧
      ((m.store.items it).flags.chunked = true →
        ∃ l', (moveFromLru S m it ch (some new)).Chain a l') ∧
      (((moveFromLru S m it ch (some new)).store.items a).getCas = (m.store.items it).getCas ↔
        ch ≠ none ∨ S.useCas = false ∨ m.store.nextCasId = (m.store.items it).getCas) := by
  rw [moveFromLru_eq h]
  cases ch with
  | none =>
    obtain ⟨hfr, hf⟩ := h.item rfl
    obtain ⟨hi, hfi⟩ := rescueItem_spec h.inv h.linked hfr
    have hfl : (m.store.items it).flags.cas = S.useCas :=
      h.inv.cas it (h.inv.not_slabbed_of_linked h.linked)
    refine ⟨new, hfi, by rw [hi]; rfl, fun hc => ?_, ?_⟩
    · refine relinkHeader_chain (h.chain hc) hf ?_ (by rw [hi]; rfl)
      exact if_pos hc
    rw [hi]
    cases hu : S.useCas with
    | false => simp [Item.getCas, rescuedItem, hfl, hu]
    | true => simp [Item.getCas, rescuedItem, freshCas, hfl, hu]
  | some ch =>
    obtain ⟨hc, hm, hf⟩ := h.chunk ch rfl
    obtain ⟨⟨n, hi⟩, hfi⟩ := @rescueChunk_spec _ _ it ch new _ _ _ h.inv h.linked
    refine ⟨it, hfi, by rw [hi]; rfl, fun _ => ?_, ?_⟩
    · exact relinkChunk_chain (h.chain hc) hm hf rfl (by rw [hi])
    · rw [hi]
      exact ⟨fun _ => .inl (Option.some_ne_none ch), fun _ => rfl⟩

end Store

/-! ## Runs -/

/-- An item is stored, and the mover takes its reference. -/
def rescueTrace (n : ℕ) : List (Op (Fin (n + 1))) :=
  storeOps 0 (ascii "k") (ascii "v\r\n") 0 .set 0 ++ [.get (ascii "k") false true]

def noChunks (n : ℕ) : ChunkMem (Fin n) where
  next := fun _ => none
  prev := fun _ => none
  head := fun p => p.elim id id
  size := fun _ => 0
  data := fun _ => []
  slabbed := fun _ => true

theorem Rescuable.of_plain [Fintype Addr] {S : Settings} {s : Store Addr} (c : ChunkMem Addr)
    (hi : Inv S s) (hl : s.Linked it) (hs : s.Slabbed new)
    (hch : (s.items it).flags.chunked = false) (ho : s.oldestLive = 0)
    (hexp : (s.items it).exptime = 0) : Rescuable S ⟨s, c⟩ it none new [] := by
  refine ⟨hi, hl, ⟨by simp [hexp], by simp [itemIsFlushed, ho]⟩, fun hc => ?_,
    fun _ => ⟨hs, by simp⟩, by simp⟩
  exact absurd hc (by simp [hch])

theorem rescue_keeps_item_rescueTrace :
    ∃ m : Heap (Fin 2), m.store.Linked 0 ∧ ∃ a,
      assocFind (moveFromLru smallSettings m 0 none (some 1)).store.key
        (moveFromLru smallSettings m 0 none (some 1)).store.assoc (m.store.key 0)
        (smallSettings.hash (m.store.key 0)) = some a ∧
      ((moveFromLru smallSettings m 0 none (some 1)).store.items a).visible =
        (m.store.items 0).visible := by
  have hi := emptyStore_reachable 2 smallSettings fun s _ => CountsLow s
  obtain ⟨s, he, hl, hs, hc, ho, hexp⟩ := hi.exists_of_exec (rescueTrace 1)
    (p := fun s => s.Linked 0 ∧ (s.items 1).flags.slabbed = true ∧
      (s.items 0).flags.chunked = false ∧ s.oldestLive = 0 ∧ (s.items 0).exptime = 0)
    (by decide +kernel)
  have hin : Inv smallSettings s := reachable_inv (fun _ _ => id) he
  have hr := Rescuable.of_plain (noChunks 2) hin hl hs hc ho hexp
  obtain ⟨a, hf, hv, -⟩ := rescue_keeps_item hr
  exact ⟨⟨s, noChunks 2⟩, hl, a, hf, hv⟩

/-- A client reads the token of an item, the mover rescues the item, and the client's `cas`
with its token is refused though nobody stored anything. -/
theorem cas_fails_after_rescue :
    ∃ (m : Heap (Fin 3)) (s : Store (Fin 3)),
      (system (Fin 3) smallSettings).Reachable (fun s _ => CountsLow s) m.store ∧
      (∃ l, Rescuable smallSettings m 0 none 1 l) ∧
      (system (Fin 3) smallSettings).exec (fun _ _ => True)
        (moveFromLru smallSettings m 0 none (some 1)).store
        [.alloc (ascii "k") 0 0 3 (slabAt 2),
         .fill 2 (ascii "w\r\n") (m.store.items 0).getCas] = some s ∧
      s.key 2 = m.store.key 0 ∧ (s.items 2).getCas = (m.store.items 0).getCas ∧
      (step smallSettings s (.store 2 .cas false (slabAt 2) {})).map (·.2) =
        some (.stored .exists none) := by
  have hi := emptyStore_reachable 3 smallSettings fun s _ => CountsLow s
  obtain ⟨s, he, ⟨hl, hs, hc, ho, hexp⟩, ha⟩ := hi.exists_of_exec (rescueTrace 2)
    (p := fun s => (s.Linked 0 ∧ (s.items 1).flags.slabbed = true ∧
        (s.items 0).flags.chunked = false ∧ s.oldestLive = 0 ∧ (s.items 0).exptime = 0) ∧
        (((system (Fin 3) smallSettings).exec (fun _ _ => True)
          (moveFromLru smallSettings ⟨s, noChunks 3⟩ 0 none (some 1)).store
          [.alloc (ascii "k") 0 0 3 (slabAt 2),
            .fill 2 (ascii "w\r\n") (s.items 0).getCas]).any fun t =>
          decide (t.key 2 = s.key 0 ∧ (t.items 2).getCas = (s.items 0).getCas ∧
            (step smallSettings t (.store 2 .cas false (slabAt 2) {})).map (·.2) =
              some (.stored .exists none))) = true) (by decide +kernel)
  have hin : Inv smallSettings s := reachable_inv (fun _ _ => id) he
  obtain ⟨t, ht, hp⟩ := (Option.any_eq_true _ _).mp ha
  obtain ⟨hk, hca, hr⟩ := of_decide_eq_true hp
  exact ⟨⟨s, noChunks 3⟩, t, he,
    ⟨[], .of_plain (noChunks 3) hin hl hs hc ho hexp⟩, ht, hk, hca, hr⟩

end Memcached.Items
