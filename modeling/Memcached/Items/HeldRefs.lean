import Memcached.Items.ChunkCopy

/-!
# References that operations leave behind

A lookup leaves a reference with its caller, and the allocation of an item leaves one to
the new item. All other operations on items take references only to drop them again.

Results:
* `step_refs`: what an operation does to the references of its callers
-/

namespace Memcached.Items

open Lib Assoc

variable {Addr : Type*} [DecidableEq Addr] [Fintype Addr] {S : Settings}
  {s s' : Store Addr} {a b it : Addr}

/-- The operations whose callers get no reference to an item that was there before, and
drop none. -/
def Op.Neutral : Op Addr → Prop
  | .get .. | .touch .. | .remove _ => False
  | .addDelta _ _ _ _ keep _ => keep = false
  | .pullTail p _ => p.returnItem = false
  | _ => True

instance (op : Op Addr) : Decidable op.Neutral := by
  delta Op.Neutral
  induction op using Op.casesOn <;> infer_instance

omit [Fintype Addr] in
theorem refs_releaseRef_takeRef {t : Store Addr} (ht : t.refs = (takeRef s a).refs) :
    (releaseRef t a).refs = s.refs := by
  funext b
  rw [refs_releaseRef, ht, refs_takeRef]
  split_ifs <;> omega

variable (h : Inv S s)
include h

theorem refs_doItemAlloc (hl : CountsOpen s)
    (key : Bytes) (flags exptime nbytes : ℕ) (rounds : ℕ → Round Addr) :
    let r := doItemAlloc S s key flags exptime nbytes rounds
    match r.2 with
    | none => r.1.refs = s.refs
    | some new => s.refs new = 0 ∧ ∀ b, r.1.refs b = s.refs b + if b = new then 1 else 0 := by
  intro r
  obtain ⟨s1, hp, hn | ⟨s2, new, hs, ha⟩⟩ :=
    doItemAlloc_spec h hl key flags exptime nbytes rounds
  · rw [show r = (s1, none) from hn]
    exact hp.refs
  rw [show r = (s2, some new) from hs]
  refine ⟨?_, fun b => by rw [ha.refs, hp.refs]⟩
  have hf := (hp.inv.of_slabbed ha.slabbed).2.1
  rwa [hp.refs] at hf

theorem refs_processDelete (hl : CountsLow s) (key : Bytes) :
    (processDelete S s key).1.refs = s.refs := by
  obtain hm | ⟨a, hh⟩ := missing_or_hit s key
  · obtain ⟨s1, hg, -, hr, -⟩ := doItemGet_of_missing h hl hm false false
    simp only [processDelete, hg]
    exact hr
  · obtain ⟨s1, hd, ⟨hr, -⟩, -⟩ := processDelete_of_hit h hl hh
    rw [hd]
    exact hr

theorem refs_processMdelete (hl : CountsLow s) (key : Bytes) (cas : Option ℕ)
    (setStale : Bool) (newTtl : Option ℕ) :
    (processMdelete S s key cas setStale newTtl).1.refs = s.refs := by
  obtain hm | ⟨a, hh⟩ := missing_or_hit s key
  · obtain ⟨s1, hg, -, hr, -⟩ := doItemGet_of_missing h hl hm false false
    simp only [processMdelete, hg]
    exact hr
  have hg := doItemGet_peek h hl hh
  simp only [processMdelete, hg]
  split_ifs
  · exact refs_releaseRef_takeRef rfl
  · exact refs_releaseRef_takeRef rfl
  · exact refs_releaseRef_takeRef refs_doItemUnlink

theorem refs_doStoreItem (hlt : CountsLow s) (hr : 0 < s.refs it)
    (hl : ¬s.Linked it) (comm : Comm) (setStale : Bool) (rounds : ℕ → Round Addr)
    (env : CopyEnv) : (doStoreItem S s it comm setStale rounds env).1.refs = s.refs := by
  obtain hm | ⟨old, hh⟩ := missing_or_hit s (s.key it)
  · obtain ⟨s1, r, cas, he, ⟨hre, -⟩, -⟩ :=
      doStoreItem_of_missing h hlt hr hl hm comm setStale rounds env
    rw [he]
    exact hre
  have hg := doItemGet_peek h hlt hh
  cases comm with
  | append => exact refs_doStoreItem_concat h hlt hl hh (.inl rfl) setStale rounds env
  | prepend => exact refs_doStoreItem_concat h hlt hl hh (.inr rfl) setStale rounds env
  | add =>
    simp only [doStoreItem, hg, planStore, StorePlan.run]
    exact refs_releaseRef_takeRef refs_doItemUpdate
  | set | replace =>
    simp only [doStoreItem, hg, planStore, StorePlan.run]
    exact refs_releaseRef_takeRef refs_doItemReplace
  | cas =>
    simp only [doStoreItem, hg, planStore]
    rcases casTest ((takeRef s old).items it).getCas ((takeRef s old).items old).getCas setStale
    all_goals simp only [StorePlan.run]
    · exact refs_releaseRef_takeRef rfl
    · exact refs_releaseRef_takeRef refs_doItemReplace
    · exact refs_releaseRef_takeRef rfl
    · exact refs_releaseRef_takeRef refs_doItemReplace

theorem refs_deltaReplace (hl : CountsOpen s) (a : Addr)
    (buf : Bytes) (rounds : ℕ → Round Addr) :
    let r := deltaReplace S s a buf rounds
    r.1.refs = if r.2 then s.refs else (releaseRef s a).refs := by
  intro r
  have ha := refs_doItemAlloc h hl (s.items a).key (s.items a).flagsConv (s.items a).exptime
    (buf.length + 2) (lockHeld (S.hash (s.items a).key) rounds)
  have hr : r = deltaReplace S s a buf rounds := rfl
  unfold deltaReplace at hr
  simp only at hr
  revert ha hr
  rcases doItemAlloc S s (s.items a).key (s.items a).flagsConv (s.items a).exptime
    (buf.length + 2) (lockHeld (S.hash (s.items a).key) rounds) with ⟨s1, _ | new⟩
  · intro ha hr
    rw [hr]
    funext b
    simp only [Bool.false_eq_true, if_false, refs_releaseRef, show s1.refs = s.refs from ha]
  rintro ⟨-, hre⟩ hr
  rw [hr]
  funext b
  have hb : (setData s1 new (buf ++ ascii "\r\n")).refs b = s.refs b + if b = new then 1 else 0 :=
    hre b
  simp only [if_true, refs_releaseRef]
  show (doItemReplace S (setData s1 new (buf ++ ascii "\r\n")) a new).refs b - _ = _
  rw [refs_doItemReplace, hb]
  omega

theorem refs_doAddDelta (hl : CountsLow s) (key : Bytes) (incr : Bool)
    (delta cas : ℕ) (rounds : ℕ → Round Addr) :
    (doAddDelta S s key incr delta cas false rounds).1.refs = s.refs := by
  obtain hm | ⟨a, hhi⟩ := missing_or_hit s key
  · obtain ⟨s1, hg, -, hr, -⟩ := doItemGet_of_missing h hl hm false false
    simp only [doAddDelta, doAddDeltaIn, hg]
    exact hr
  have hg := doItemGet_peek h hl hhi
  have hh := holding_takeRef h hl hhi.linked
  have hb : (releaseRef (takeRef s a) a).refs = s.refs := refs_releaseRef_takeRef rfl
  have hc : ((takeRef s a).items a).refcount > 1 := by
    rw [hh.inv.refcount, Store.holders, if_pos hh.linked_self, hh.refs, if_pos rfl]
    omega
  simp only [doAddDelta, doAddDeltaIn, List.append_nil, hg]
  by_cases hp : ((takeRef s a).items a).nbytes ≤ 2 ∨
      ((takeRef s a).items a).flags.chunked = true ∨ ((takeRef s a).items a).flags.hdr = true
  · rw [if_pos hp]
    exact hb
  by_cases hca : cas ≠ 0 ∧ ((takeRef s a).items a).getCas ≠ cas
  · rw [if_neg hp, if_pos hca]
    exact hb
  rw [if_neg hp, if_neg hca]
  obtain _ | value := Util.safeStrtoull ((takeRef s a).items a).data
  · exact hb
  simp only
  generalize Util.itoaU64 (applyDelta value incr delta) = buf
  by_cases hf : buf.length + 2 ≤ ((takeRef s a).items a).nbytes ∧
      ((takeRef s a).items a).refcount = 2
  · rw [if_pos hf]
    exact refs_releaseRef_takeRef refs_doItemUpdate
  rw [if_neg hf, if_pos hc]
  have hre := refs_deltaReplace hh.inv hh.count a buf rounds
  revert hre
  obtain ⟨s1, _ | _⟩ := deltaReplace S (takeRef s a) a buf rounds
  · exact fun hre => hre.trans hb
  · exact fun hre => refs_releaseRef_takeRef hre

/-- **References.** An operation other than a lookup leaves the references to each item as
they were, but for an item that it allocates. -/
theorem step_refs (hlt : CountsLow s) {op : Op Addr} {r : Reply Addr}
    (hop : op.Neutral) (hst : step S s op = some (s', r)) (b : Addr) :
    s'.refs b = s.refs b ∨ s.refs b = 0 ∧ s'.refs b = 1 := by
  obtain ⟨hg, hap⟩ := step_eq hst
  obtain rfl : (apply S s op).1 = s' := by rw [hap]
  have ho := hlt.countsOpen
  have hs : ∀ {t : Store Addr}, t.refs = s.refs →
      t.refs b = s.refs b ∨ s.refs b = 0 ∧ t.refs b = 1 := fun ht => .inl (congrFun ht b)
  cases op with
  | get | touch | remove => exact hop.elim
  | tick | assocExpand | assocMigrate | fill | link => exact hs rfl
  | unlink a => exact hs refs_doItemUnlink
  | replace a new => exact hs refs_doItemReplace
  | alloc key flags exptime nbytes rounds =>
    have ha := refs_doItemAlloc h ho key flags exptime nbytes rounds
    revert ha
    simp only [apply]
    obtain ⟨s1, _ | new⟩ := doItemAlloc S s key flags exptime nbytes rounds
    · exact fun ha => hs ha
    rintro ⟨hz, hr⟩
    have hb : s1.refs b = s.refs b + if b = new then 1 else 0 := hr b
    show s1.refs b = s.refs b ∨ s.refs b = 0 ∧ s1.refs b = 1
    split_ifs at hb with hn
    · rw [hn, hz] at hb ⊢
      exact .inr ⟨rfl, hb⟩
    · exact .inl hb
  | store a comm setStale rounds env =>
    have hl : ¬s.Linked a := by simp [Store.Linked, hg.2]
    exact hs (refs_doStoreItem h hlt hg.1 hl comm setStale rounds env)
  | addDelta key incr delta cas keep rounds =>
    obtain rfl : keep = false := hop
    exact hs (refs_doAddDelta h hlt key incr delta cas rounds)
  | delete key => exact hs (refs_processDelete h hlt key)
  | mdelete key cas setStale newTtl =>
    exact hs (refs_processMdelete h hlt key cas setStale newTtl)
  | bump a =>
    refine hs ?_
    simp only [apply, lruMaintainerBump, refs_doItemRemove]
    exact refs_doItemUpdate
  | pullTail p trylock =>
    obtain ⟨s1, n, ret, he, -, -, hr, hre⟩ := lruPullTail_spec h ho p trylock hg
    obtain rfl := hre hop
    refine hs (funext fun b => ?_)
    simp only [apply, he, hr b]
    rfl
  | flushAll exptime =>
    refine hs ?_
    simp only [apply, processFlushAll]
    split_ifs <;> rfl

end Memcached.Items
