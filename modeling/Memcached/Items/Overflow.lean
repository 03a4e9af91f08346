import Memcached.Items.Steps

/-!
# The counters of the item cache wrap

Reference counts have 16 bits and the CAS counter has 64. Nothing in `items.c`
keeps them from wrapping, and runs that are long enough make them do so.

Results:
* `steps_wrapped`: clients may look up an item 65536 times and keep their references
* `steps_casId`, `steps_casId_zero`: the CAS counter takes every value, 0 too
-/

namespace Memcached.Items

open Lib Assoc

variable {Addr : Type*} [DecidableEq Addr] [Fintype Addr] {S : Settings}
  {s s' : Store Addr} {a b : Addr}

/-! ## Reference counts -/

theorem step_remove (h : 0 < s.refs a) : step S s (.remove a) = some (releaseRef s a, .done) :=
  if_pos h

omit [Fintype Addr] in
theorem key_takeRef : (takeRef s a).key = s.key :=
  funext fun b => proj_of_items Item.key items_takeRef (by rfl) b

/-- The state in which `n` more references to an item are held. -/
def withRefs (s : Store Addr) (a : Addr) (n : ℕ) : Store Addr :=
  { s.modify a fun it => { it with refcount := (it.refcount + n) % 2 ^ 16 } with
    refs := Function.update s.refs a (s.refs a + n) }

section

omit [Fintype Addr]

theorem items_withRefs (n : ℕ) (b : Addr) : (withRefs s a n).items b =
    if b = a then { s.items a with refcount := ((s.items a).refcount + n) % 2 ^ 16 }
    else s.items b := by
  show (s.modify a fun it => { it with refcount := (it.refcount + n) % 2 ^ 16 }).items b = _
  exact items_modify _ b

theorem withRefs_zero (h : (s.items a).refcount < 2 ^ 16) : withRefs s a 0 = s := by
  simp only [withRefs, Store.modify, Nat.add_zero, Nat.mod_eq_of_lt h, Function.update_eq_self]

theorem takeRef_withRefs (n : ℕ) : takeRef (withRefs s a n) a = withRefs s a (n + 1) := by
  have hc : (((s.items a).refcount + n) % 2 ^ 16 + 1) % 2 ^ 16 =
      ((s.items a).refcount + (n + 1)) % 2 ^ 16 := by omega
  simp only [withRefs, takeRef, refcountIncr, Store.noteRef, Store.modify, Function.update_self,
    Function.update_idem, hc, Nat.add_assoc]

end

section Wrapped

variable {key : Bytes} (S : Settings) (ok : Store Addr → Op Addr → Prop)
  (hget : ∀ n, ok (withRefs s a n) (.get key false false))

include hget

/-- Lookups take any number of references to an item that is alive. -/
theorem steps_takeRefs (hc : (s.items a).refcount < 2 ^ 16)
    (hf : assocFind s.key s.assoc key (S.hash key) = some a) (hli : ¬s.Dead a) (n : ℕ) :
    (∃ l, (system Addr S).Steps ok s l (withRefs s a n)) ∧
      assocFind (withRefs s a n).key (withRefs s a n).assoc key (S.hash key) = some a ∧
      ¬(withRefs s a n).Dead a := by
  induction n with
  | zero =>
    rw [withRefs_zero hc]
    exact ⟨⟨[], .refl⟩, hf, hli⟩
  | succ n ih =>
    obtain ⟨⟨l, hl⟩, hf, hli⟩ := ih
    have hs : (system Addr S).step (withRefs s a n) (.get key false false) =
        some (takeRef (withRefs s a n) a, .item (some a)) := by
      have hget := doItemGet_of_live false false hf hli
      simp only [system, step, Guard, if_true, apply, hget]
      rfl
    rw [← takeRef_withRefs]
    refine ⟨⟨_, hl.tail (hget n) hs⟩, ?_, dead_takeRef.not.mpr hli⟩
    rw [key_takeRef]
    exact hf

/-- After 65536 lookups that keep their references the count is back where it was, and one
of the clients drops its reference. -/
def wrapped (s : Store Addr) (a : Addr) : Store Addr := releaseRef (withRefs s a 65536) a

/-- After 65536 lookups, one release frees an item that is linked. -/
theorem steps_wrapped (hr : ok (withRefs s a 65536) (.remove a))
    (hc : (s.items a).refcount < 2 ^ 16)
    (hf : assocFind s.key s.assoc key (S.hash key) = some a) (hli : ¬s.Dead a) :
    ∃ l, (system Addr S).Steps ok s l (wrapped s a) := by
  obtain ⟨⟨l, hl⟩, -, -⟩ := steps_takeRefs S ok hget hc hf hli 65536
  have hp : 0 < (withRefs s a 65536).refs a := by simp [withRefs]
  exact ⟨_, hl.tail hr (step_remove hp)⟩

end Wrapped

omit [Fintype Addr] in
theorem casId_wrapped : (wrapped s a).casId = s.casId := by
  unfold wrapped releaseRef
  rw [casId_doItemRemove]
  rfl

/-! ## CAS values -/

/-- The steps of the runs below: unconditional stores, deletes, and allocations that evict
nothing; no reference count is near its limit. -/
def Plain (s : Store Addr) (op : Op Addr) : Prop :=
  CountsLow s ∧
  match op with
  | .remove _ | .delete _ => True
  | .alloc .. => ∀ b, ¬s.Linked b
  | .store _ comm setStale _ _ => comm = .set ∧ setStale = false
  | _ => False

/-- All memory is free, and nothing was ever flushed. -/
structure Idle (s : Store (Fin 1)) : Prop where
  inv : Inv smallSettings s
  slabbed : s.Slabbed 0
  oldestLive : s.oldestLive = 0

theorem Idle.bumps {s : Store (Fin 1)} (h : Idle s) : s.bumps = [] := by
  refine List.eq_nil_iff_forall_not_mem.mpr fun a ha => ?_
  rw [Subsingleton.elim a 0] at ha
  have := (h.inv.of_slabbed h.slabbed).2.2
  exact absurd (List.count_pos_iff.mpr ha) (by omega)

omit [DecidableEq Addr] [Fintype Addr] in
theorem not_dead_of_oldestLive (h : s.oldestLive = 0) (he : (s.items a).exptime = 0) :
    ¬s.Dead a := by
  simp [Store.Dead, itemIsFlushed, Item.expiredAt, h, he]

theorem doItemAlloc_of_idle {s : Store (Fin 1)} (h : Idle s) :
    ∃ s', doItemAlloc smallSettings s (ascii "k") 0 0 3 (slabAt 0) = (s', some 0) ∧
      Allocated smallSettings s s' 0 (ascii "k") 0 0 3 := by
  refine ⟨_, ?_, .of_slab h.inv h.slabbed (ascii "k") 0 0 3 1⟩
  have hp : doItemAllocPull smallSettings 1 (slabAt 0) 10 s = (slabTake s 0, some 0) := by
    have hs : slabsAlloc s (slabAt (0 : Fin 1) 9).slab = some (slabTake s 0, 0) :=
      if_pos h.slabbed
    have hse : smallSettings.lruSegmented = true := rfl
    rw [doItemAllocPull, if_pos hse, hs]
  have hi : doItemAlloc smallSettings s (ascii "k") 0 0 3 (slabAt 0) =
      itemFromSlab smallSettings s (ascii "k") 0 0 3 1 false 1 (slabAt 0) := by
    unfold doItemAlloc
    exact (if_neg (by decide)).trans (if_neg (by decide))
  rw [hi, itemFromSlab, hp]
  rfl

/-- The state after a client stored an item in an idle cache, and still holds it. -/
structure Filled (s s' : Store (Fin 1)) : Prop where
  inv : Inv smallSettings s'
  linked : s'.Linked 0
  key : s'.key 0 = ascii "k"
  exptime : (s'.items 0).exptime = 0
  getCas : (s'.items 0).getCas = s.nextCasId
  casId : s'.casId = s.nextCasId
  refs : s'.refs 0 = 1
  bumps : s'.bumps = []
  clock : s'.clock = s.clock

theorem idle_store {s : Store (Fin 1)} (h : Idle s) :
    ∃ l s1 s', (system (Fin 1) smallSettings).Steps Plain s l s1 ∧
      (system (Fin 1) smallSettings).step s1 (.store 0 .set false (slabAt 0) {}) =
        some (s', .stored .stored (some (s'.items 0).getCas)) ∧ CountsLow s1 ∧ Filled s s' := by
  obtain ⟨s1, hal, ha⟩ := doItemAlloc_of_idle h
  have hs1 : (system (Fin 1) smallSettings).step s (.alloc (ascii "k") 0 0 3 (slabAt 0)) =
      some (s1, .item (some 0)) := by
    simp only [system, step, Guard, if_true, apply, hal]
  have hr1 : s1.refs 0 = 1 := by
    rw [ha.refs, (h.inv.of_slabbed h.slabbed).2.1]
    rfl
  have hl1 : CountsLow s1 := fun b => by
    rw [Subsingleton.elim b 0, ha.refcount]
    decide
  have hnon : s1.Missing (s1.key 0) := fun b hb => by
    rw [Subsingleton.elim b 0] at hb
    exact absurd hb ha.linked
  obtain ⟨s2, _, _, hsto, ⟨hr2, hb2⟩, rfl, rfl, hst⟩ :=
    doStoreItem_of_missing ha.inv hl1 ha.refs_pos ha.linked hnon .set false (slabAt 0) {}
  have hs2 : (system (Fin 1) smallSettings).step s1 (.store 0 .set false (slabAt 0) {}) =
      some (s2, .stored .stored (some (s2.items 0).getCas)) := by
    have hl : (s1.items 0).flags.linked = false := by simpa [Store.Linked] using ha.linked
    simp only [system, step, Guard, apply, hsto, if_pos (And.intro ha.refs_pos hl)]
  obtain ⟨he, hno, hn⟩ := h.inv.of_slabbed h.slabbed
  have hp : Plain s (.alloc (ascii "k") 0 0 3 (slabAt 0)) := by
    refine ⟨fun b => ?_, fun b => ?_⟩
    · rw [Subsingleton.elim b 0, h.inv.refcount, Store.holders, hno, hn, if_neg he]
      omega
    · rwa [Subsingleton.elim b 0]
  have hs : (system (Fin 1) smallSettings).Steps Plain s _ s1 :=
    System.Steps.refl.tail hp hs1
  obtain ⟨hk, -, hexp, -⟩ := ha.item_eq h.inv
  have hc : (s1.items 0).flags.cas = smallSettings.useCas :=
    ha.inv.cas 0 (ha.inv.not_slabbed_of_refs ha.refs_pos)
  have hne : s1.nextCasId = s.nextCasId := by rw [Store.nextCasId, ha.casId, Store.nextCasId]
  exact ⟨_, s1, s2, hs, hs2, hl1,
    { inv := hst.inv
      linked := hst.linked
      key := hst.key_eq.trans hk
      exptime := hst.exptime_eq.trans hexp
      getCas := (hst.getCas_eq rfl hc).trans hne
      casId := (hst.casId_eq rfl hc).trans hne
      refs := by rw [hr2, hr1]
      bumps := hb2.trans (ha.bumps.trans h.bumps)
      clock := hst.clock.trans ha.clock }⟩

/-- A store and a delete raise the CAS counter by one. -/
theorem idle_loop {s : Store (Fin 1)} (h : Idle s) :
    ∃ l s', (system (Fin 1) smallSettings).Steps Plain s l s' ∧ Idle s' ∧
      s'.casId = s.nextCasId := by
  obtain ⟨l, s1, s2, hs, hs2, hl1, hf⟩ := idle_store h
  -- the client's reference is dropped
  have hpo2 : 0 < s2.refs 0 := by rw [hf.refs]; omega
  have hl2 : CountsLow s2 := fun b => by
    rw [Subsingleton.elim b 0, hf.inv.refcount, Store.holders, hf.refs, hf.bumps, if_pos hf.linked,
      List.count_nil]
    omega
  obtain ⟨s3, hs3, hq, hr3, hb3⟩ : ∃ s3,
      (system (Fin 1) smallSettings).step s2 (.remove 0) = some (s3, .done) ∧
      Quiet smallSettings nothing nothing s2 s3 ∧ s3.refs 0 = 0 ∧ s3.bumps = [] := by
    refine ⟨releaseRef s2 0, step_remove hpo2, releaseRef_quiet hf.inv hpo2, ?_, ?_⟩
    · rw [refs_releaseRef, hf.refs, if_pos rfl]
    · exact bumps_doItemRemove.trans hf.bumps
  have hl3 : s3.Linked 0 := (hq.lost 0 hf.linked).resolve_right id
  have hlo3 : CountsLow s3 := fun b => by
    rw [Subsingleton.elim b 0, hq.inv.refcount, Store.holders, hr3, hb3, if_pos hl3,
      List.count_nil]
    omega
  have ho3 : s3.oldestLive = 0 :=
    (oldestLive_of_clock (hq.clock.trans hf.clock)).trans h.oldestLive
  -- the delete
  have hc3 := hq.content 0 (hq.inv.not_slabbed_of_linked hl3)
  have hh : s3.Hit (ascii "k") 0 :=
    ⟨hl3, (Item.key_eq hc3).trans hf.key,
      not_dead_of_oldestLive ho3 ((Item.proj_eq Item.exptime hc3).trans hf.exptime)⟩
  obtain ⟨s4, hd, ⟨hr4, hb4⟩, hp, hg⟩ := processDelete_of_hit hq.inv hlo3 hh
  have hs4 : (system (Fin 1) smallSettings).step s3 (.delete (ascii "k")) =
      some (s4, .deleted true) := by
    simp only [system, step, Guard, if_true, apply, hd]
  have hp2 : Plain s1 (.store 0 .set false (slabAt 0) {}) := ⟨hl1, rfl, rfl⟩
  have hp3 : Plain s2 (.remove 0) := ⟨hl2, trivial⟩
  have hp4 : Plain s3 (.delete (ascii "k")) := ⟨hlo3, trivial⟩
  refine ⟨_, s4, ((hs.tail hp2 hs2).tail hp3 hs3).tail hp4 hs4,
    ⟨hp.inv, ?_, ?_⟩, ?_⟩
  · rw [hp.inv.slabbed, Store.holders, hr4, hb4, hr3, hb3, if_neg hg]
    rfl
  · exact (oldestLive_of_clock hp.clock).trans ho3
  · rw [hp.casId, hq.casId, hf.casId]

theorem idle_emptyStore : Idle (emptyStore 1) :=
  ⟨inv_of_init (emptyStore_init 1), rfl, rfl⟩

/-- The CAS counter comes to every value. -/
theorem steps_casId (n : ℕ) :
    ∃ l s, (system (Fin 1) smallSettings).Steps Plain (emptyStore 1) l s ∧ Idle s ∧
      s.casId = n % 2 ^ 64 := by
  induction n with
  | zero => exact ⟨[], emptyStore 1, .refl, idle_emptyStore, rfl⟩
  | succ n ih =>
    obtain ⟨l, s, hl, hi, hc⟩ := ih
    obtain ⟨l', s', hl', hi', hc'⟩ := idle_loop hi
    refine ⟨_, s', hl.trans hl', hi', ?_⟩
    rw [hc', Store.nextCasId, hc]
    omega

theorem steps_casId_zero :
    ∃ l s s', (system (Fin 1) smallSettings).Steps Plain (emptyStore 1) l s ∧
      (system (Fin 1) smallSettings).step s (.store 0 .set false (slabAt 0) {}) =
        some (s', .stored .stored (some 0)) ∧ CountsLow s ∧ s'.Linked 0 ∧
      (s'.items 0).getCas = 0 := by
  obtain ⟨l, s, hl, hi, hc⟩ := steps_casId (2 ^ 64 - 1)
  obtain ⟨l', s1, s', hl', hs, hlo, hf⟩ := idle_store hi
  have hz : (s'.items 0).getCas = 0 := by
    rw [hf.getCas, Store.nextCasId, hc]
    omega
  rw [hz] at hs
  exact ⟨_, s1, s', hl.trans hl', hs, hlo, hf.linked, hz⟩

end Memcached.Items
