import Memcached.Items.Background
import Memcached.Items.Overflow

/-!
# What background maintenance keeps

As long as no reference count is near its limit, every operation of the server and of its
background threads leaves the LRU lists, their counters and the hash table consistent.

Results:
* `lru_lists_consistent`: the LRU lists hold the linked items, each once
* `free_item_on_list`: unless a count wraps
* `background_keeps_live`: background work loses no live item
* `pull_loses_live_item`: unless a count wraps
-/

namespace Memcached.Items

open Lib Assoc

variable {Addr : Type*} [DecidableEq Addr] [Fintype Addr] {S : Settings}
  {s s' : Store Addr} {a b : Addr}

/-! ## The LRU lists and the hash table -/

/-- In every run whose operations all start with low counts, the walks over each LRU list
meet the linked items of that list and its crawler, once each and in opposite
orders; an item is linked iff it is in the hash table; and the counters are
exact. -/
theorem lru_lists_consistent
    (hr : (maintenance Addr S).Reachable (fun s _ => CountsLow s) s) :
    (∀ q, ∃ l : List (Node Addr), l.Nodup ∧
      Linked s.lru.ptrs.next (s.lru.ptrs.head q) l ∧
      Linked s.lru.ptrs.prev (s.lru.ptrs.tail q) l.reverse ∧
      l.getLast? = s.lru.ptrs.tail q ∧
      (∀ a, .inl a ∈ l ↔ s.Linked a ∧ (s.items a).queue = q) ∧
      ∀ q', .inr q' ∈ l ↔ q' = q ∧ (s.lru.crawlers q).isSome) ∧
    (∀ a, s.Linked a ↔ ∃ x, s.assoc.At a x) ∧
    (∀ q, s.lru.sizes q = (s.queued q).card ∧
      s.lru.sizesBytes q = ∑ a ∈ s.queued q, (s.items a).lruBytes) ∧
    s.lru.currItems = s.stored.card ∧ s.lru.currBytes = ∑ a ∈ s.stored, (s.items a).ntotal := by
  have h : Inv S s := maintenance_inv (fun _ _ => id) hr
  refine ⟨fun q => ?_, fun a => ⟨fun ha => ?_, ?_⟩, fun q => ?_, ?_, ?_⟩
  · obtain ⟨l, hn, hp, hm⟩ := h.lru q
    refine ⟨l, hn.nodup, hn, hp, ?_, fun a => ?_, fun q' => ?_⟩
    · rw [← hp.head?_eq, List.head?_reverse]
    · rw [hm, place_eq_some_iff]
    rw [hm]
    simp only [Store.place]
    split_ifs with hc
    · constructor
      · intro hq
        cases hq
        exact ⟨rfl, hc⟩
      · rintro ⟨rfl, -⟩
        rfl
    · constructor
      · intro hq
        cases hq
      · rintro ⟨rfl, hc'⟩
        exact absurd hc' hc
  · exact (h.assoc.exists_unique_at (mem_stored.mpr ha)).exists
  · rintro ⟨x, hx⟩
    exact mem_stored.mp (h.assoc.mem_of_at hx)
  · exact ⟨h.sized.sizes q, h.sized.sizesBytes q⟩
  · exact h.sized.currItems
  · exact h.sized.currBytes

/-- Two values are stored, the crawler starts at the tail of their list and passes the
older one. -/
def crawlTrace : List (Task (Fin 2)) :=
  (storeOps 0 (ascii "k") (ascii "a\r\n") 0 .set 0).map .op ++
    (storeOps 1 (ascii "m") (ascii "bc\r\n") 0 .set 0).map .op ++
    [.crawlerStart (1, .hot) none, .crawl (1, .hot) false fun _ => true]

theorem lru_lists_consistent_crawlTrace :
    ∃ s : Store (Fin 2), (maintenance (Fin 2) smallSettings).Reachable (fun s _ => CountsLow s) s ∧
      s.lru.sizes (1, .hot) = (s.queued (1, .hot)).card ∧ s.lru.sizes (1, .hot) = 2 ∧
      s.lru.ptrs.prev (.inl 0) = some (.inr (1, .hot)) ∧
      s.lru.ptrs.prev (.inr (1, .hot)) = some (.inl 1) := by
  have hi : (maintenance (Fin 2) smallSettings).Reachable (fun s _ => CountsLow s)
      (emptyStore 2) := .of_init (emptyStore_init 2)
  obtain ⟨s, he, hs, hp, hp'⟩ := hi.exists_of_exec crawlTrace
    (p := fun s => s.lru.sizes (1, .hot) = 2 ∧ s.lru.ptrs.prev (.inl 0) = some (.inr (1, .hot)) ∧
      s.lru.ptrs.prev (.inr (1, .hot)) = some (.inl 1)) (by decide +kernel)
  have hr := he
  exact ⟨s, hr, ((lru_lists_consistent hr).2.2.1 (1, .hot)).1, hs, hp, hp'⟩

/-! ## A count that wraps -/

/-- What a server that stored one item knows about it. -/
structure OneItem (s : Store (Fin 1)) : Prop where
  reachable : (maintenance (Fin 1) smallSettings).Reachable (fun _ _ => True) s
  linked : s.Linked 0
  refcount : (s.items 0).refcount = 1
  exptime : (s.items 0).exptime = 0
  oldestLive : s.oldestLive = 0
  active : (s.items 0).flags.active = false
  young : sub32 s.currentTime (s.items 0).time = 0
  tail : s.lru.ptrs.tail (1, .hot) = some (.inl 0)
  small : s.lru.sizesBytes (1, .hot) ≤ 100
  find : assocFind s.key s.assoc (ascii "k") 0 = some 0

theorem exists_oneItem : ∃ s, OneItem s := by
  have hi : (maintenance (Fin 1) smallSettings).Reachable (fun _ _ => True) (emptyStore 1) :=
    .of_init (emptyStore_init 1)
  obtain ⟨s, he, h1, h2, h3, h4, h5, h6, h7, h8, h9⟩ := hi.exists_of_exec
    ((storeOps 0 (ascii "k") (ascii "a\r\n") 0 .set 0).map .op)
    (p := fun s => s.Linked 0 ∧ (s.items 0).refcount = 1 ∧ (s.items 0).exptime = 0 ∧
      s.oldestLive = 0 ∧ (s.items 0).flags.active = false ∧
      sub32 s.currentTime (s.items 0).time = 0 ∧
      s.lru.ptrs.tail (1, .hot) = some (.inl 0) ∧ s.lru.sizesBytes (1, .hot) ≤ 100 ∧
      assocFind s.key s.assoc (ascii "k") 0 = some 0) (by decide +kernel)
  exact ⟨s, he, h1, h2, h3, h4, h5, h6, h7, h8, h9⟩

section

omit [Fintype Addr]

theorem flags_releaseRef (h : (s.items a).refcount = 1) :
    ((releaseRef s a).items a).flags = { slabbed := true } := by
  have hz : ((refcountDecr (s.forgetRef a) a).items a).refcount = 0 := by
    simp [refcountDecr, Store.forgetRef, h]
  simp only [releaseRef, doItemRemove]
  rw [if_pos hz]
  simp [itemFree]

theorem flags_releaseRef_withRefs {n : ℕ} (h : ((s.items a).refcount + n) % 2 ^ 16 = 1) :
    ((releaseRef (withRefs s a n) a).items a).flags = { slabbed := true } := by
  refine flags_releaseRef ?_
  rw [items_withRefs, if_pos rfl]
  exact h

end

theorem OneItem.slabbed_wrapped {s : Store (Fin 1)} (h : OneItem s) :
    ((wrapped s 0).items 0).flags = { slabbed := true } := by
  have hc : ((s.items 0).refcount + 65536) % 2 ^ 16 = 1 := by
    have := h.refcount
    omega
  have hw : wrapped s 0 = releaseRef (withRefs s 0 65536) 0 := rfl
  rw [hw]
  exact flags_releaseRef_withRefs hc

/-- After 65536 lookups that keep their references one of them is dropped: the item is
freed, and its LRU list holds free memory. -/
theorem free_item_on_list :
    ∃ s, (maintenance (Fin 1) smallSettings).Reachable (fun _ _ => True) s ∧
      s.lru.ptrs.tail (1, .hot) = some (.inl 0) ∧ ¬s.Linked 0 ∧ s.Slabbed 0 := by
  obtain ⟨s, h⟩ := exists_oneItem
  have hli := not_dead_of_oldestLive h.oldestLive h.exptime
  obtain ⟨l, hl⟩ := steps_wrapped smallSettings (fun _ _ => True) (fun _ => trivial) trivial
    (by rw [h.refcount]; decide) h.find hli
  have hf := h.slabbed_wrapped
  refine ⟨wrapped s 0, h.reachable.steps (steps_op (fun _ _ => id) hl), ?_, ?_, ?_⟩
  · have hlr : (wrapped s 0).lru = s.lru := by
      simp only [wrapped, releaseRef]
      rw [lru_doItemRemove]
      rfl
    rw [hlr, h.tail]
  · rw [Store.Linked, hf]
    decide
  · rw [Store.Slabbed, hf]

/-! ## Live items -/

/-- What a client sees of an item: key, value, client flags, expiry time and CAS value. -/
def Item.record (it : Item) : Bytes × Bytes × ℕ × ℕ × ℕ :=
  (it.key, it.data, it.flagsConv, it.exptime, it.getCas)

/-- From every state that a server reaches with low counts, in every run of background
tasks and lookups with low counts: an item that is linked at the start is still
linked and unchanged at the end, or it was linked and dead at some moment of the run;
and each task that unlinks an item does so while the item is dead. -/
theorem background_keeps_live {l : List (Task Addr × Reply Addr)}
    (hr : (maintenance Addr S).Reachable (fun s _ => CountsLow s) s)
    (hrun : (maintenance Addr S).Steps (fun s t => CountsLow s ∧ t.Background) s l s') :
    (∀ a, s.Linked a →
      (s'.Linked a ∧ (s'.items a).record = (s.items a).record) ∨
      ∃ l1 l2 u, l = l1 ++ l2 ∧
        (maintenance Addr S).Steps (fun s t => CountsLow s ∧ t.Background) s l1 u ∧
        u.Linked a ∧ u.Dead a) ∧
    ∀ t r s'', CountsLow s' → t.Background → (maintenance Addr S).step s' t = some (s'', r) →
      ∀ a, s'.Linked a → ¬s''.Linked a → s'.Dead a := by
  have hi : Inv S s := maintenance_inv (fun _ _ => id) hr
  have hi' : ∀ {l u}, (maintenance Addr S).Steps (fun s t => CountsLow s ∧ t.Background) s l u →
      Inv S u := fun hu => hu.induct hi fun h ho hst => runTask_inv h ho.1 hst
  constructor
  · intro a ha
    induction hrun with
    | refl => exact .inl ⟨ha, rfl⟩
    | tail hs ho hst ih =>
      rename_i l t task u r
      obtain ⟨hl, hre⟩ | ⟨l1, l2, v, rfl, hv, hlv, hd⟩ := ih
      · have hk := Keeps.of_task (hi' hs) ho.1 ho.2 hst
        obtain hlu | hd := hk.lost a hl
        · refine .inl ⟨hlu, ?_⟩
          rw [← hre]
          exact Item.proj_eq Item.record (hk.content a hlu)
        · exact .inr ⟨l, [(task, r)], t, rfl, hs, hl, hd⟩
      · exact .inr ⟨l1, l2 ++ [(task, r)], v, by rw [List.append_assoc], hv, hlv, hd⟩
  · intro t r s'' hlo hb hst a hl hg
    exact ((Keeps.of_task (hi' hrun) hlo hb hst).lost a hl).resolve_left hg

/-- The maintainer and the crawler go over a list, and a client reads an item. -/
def backgroundTrace : List (Task (Fin 2)) :=
  [.juggle 1 (fun _ => (0, 0)) (fun _ _ _ _ => true), .crawlerStart (1, .hot) (some 5),
   .crawl (1, .hot) false (fun _ => true), .op (.get (ascii "k") true true), .op (.tick 40),
   .op (.pullTail { id := 1, curLru := .hot } fun _ _ => true), .op (.remove 0)]

theorem background_keeps_live_backgroundTrace :
    ∃ s s' : Store (Fin 2), s.Linked 0 ∧ s'.Linked 0 ∧
      ((s'.Linked 0 ∧ (s'.items 0).record = (s.items 0).record) ∨
        ∃ u : Store (Fin 2), u.Linked 0 ∧ u.Dead 0) := by
  have hi : (maintenance (Fin 2) smallSettings).Reachable (fun s _ => CountsLow s)
      (emptyStore 2) := .of_init (emptyStore_init 2)
  obtain ⟨s, he, hl, ha⟩ := hi.exists_of_exec
    ((storeOps 0 (ascii "k") (ascii "a\r\n") 0 .set 0).map .op)
    (p := fun s => s.Linked 0 ∧ (((maintenance (Fin 2) smallSettings).exec
      (fun s t => CountsLow s ∧ t.Background) s backgroundTrace).any
        fun t => decide (t.Linked 0)) = true) (by decide +kernel)
  obtain ⟨t, he', hl'⟩ := (Option.any_eq_true _ _).mp ha
  obtain ⟨l, hs⟩ := System.Steps.of_exec backgroundTrace he'
  obtain ⟨hk, -⟩ := background_keeps_live he hs
  refine ⟨s, t, hl, of_decide_eq_true hl', (hk 0 hl).imp_right ?_⟩
  rintro ⟨-, -, u, -, -, hlu, hd⟩
  exact ⟨u, hlu, hd⟩

theorem lruPullTail_of_kept {p : Pull} (hid : p.id ≠ 0) (hh : p.curLru = .hot)
    (hc : p.crawlBlocks = false) (hr : p.returnItem = false)
    (ht : s.lru.ptrs.tail (p.id, .hot) = some (.inl a)) (hexp : (s.items a).exptime = 0)
    (ho : s.oldestLive = 0) (ha : (s.items a).flags.active = false)
    (hs : s.lru.sizesBytes (p.id, .hot) ≤ p.limit S)
    (hy : sub32 s.currentTime (s.items a).time ≤ p.maxAge) :
    lruPullTail S s p (fun _ _ => true) = (releaseRef (takeRef s a) a, 0, none) := by
  have hi : (takeRef s a).items a =
      { s.items a with refcount := ((s.items a).refcount + 1) % 2 ^ 16 } := by
    rw [items_takeRef, if_pos rfl]
  have hon : lruPullOne S s p a = (takeRef s a, 0, .stop none) := by
    have hf : ∀ it, itemIsFlushed (takeRef s a) it = false := by
      have ho' : (takeRef s a).oldestLive = 0 := ho
      simp [itemIsFlushed, ho']
    have hl : ¬(s.lru.sizesBytes (p.id, .hot) > p.limit S ∨
        sub32 s.currentTime (s.items a).time > p.maxAge) := by omega
    simp only [lruPullOne, hf, hi, hexp, lruPullLive, hh, ha]
    simp only [ne_eq, not_true_eq_false, false_and, Bool.false_eq_true, or_self, if_false]
    exact if_neg hl
  have hlo : lruPullLoop S p (fun _ _ => true) 5 s (some (.inl a)) 0 =
      (takeRef s a, 0, some (a, none)) := by
    simp only [lruPullLoop, hc, Bool.false_eq_true, false_and, if_false, pastCrawler, if_true,
      hon]
  simp only [lruPullTail, if_neg hid, hh, ht, hlo, lruPullDone, hr, lruPullMove]
  simp

/-- With 65535 references to an item in the hands of clients its count is 0. A pull from
the tail of its list that neither evicts nor moves anything takes a reference and
drops it: the item, which is live, is freed. -/
theorem pull_loses_live_item :
    ∃ s s' p, (maintenance (Fin 1) smallSettings).Reachable (fun _ _ => True) s ∧
      (maintenance (Fin 1) smallSettings).step s (.op (.pullTail p fun _ _ => true)) =
        some (s', .pulled 0 none) ∧
      p.evict = false ∧ s.Linked 0 ∧ ¬s.Dead 0 ∧ ¬s'.Linked 0 := by
  obtain ⟨s, h⟩ := exists_oneItem
  have hli := not_dead_of_oldestLive h.oldestLive h.exptime
  obtain ⟨⟨l, hl⟩, -, hd⟩ := steps_takeRefs smallSettings (fun _ _ => True) (fun _ => trivial)
    (by rw [h.refcount]; decide) h.find hli 65535
  refine ⟨withRefs s 0 65535, wrapped s 0, { id := 1, curLru := .hot, totalBytes := 1000 },
    h.reachable.steps (steps_op (fun _ _ => id) hl), ?_, rfl, ?_, hd, ?_⟩
  · have hp : lruPullTail smallSettings (withRefs s 0 65535)
        { id := 1, curLru := .hot, totalBytes := 1000 } (fun _ _ => true) =
          (releaseRef (takeRef (withRefs s 0 65535) 0) 0, 0, none) := by
      refine lruPullTail_of_kept (by decide) rfl rfl rfl h.tail ?_ h.oldestLive ?_ ?_ ?_
      · rw [items_withRefs, if_pos rfl]
        exact h.exptime
      · rw [items_withRefs, if_pos rfl]
        exact h.active
      · exact h.small.trans (by decide)
      · rw [items_withRefs, if_pos rfl]
        exact h.young.le
    rw [takeRef_withRefs] at hp
    simp only [maintenance, runTask, step, Guard, apply, hp]
    rfl
  · rw [Store.Linked, items_withRefs, if_pos rfl]
    exact h.linked
  · rw [Store.Linked, h.slabbed_wrapped]
    decide

end Memcached.Items
