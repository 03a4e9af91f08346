import Memcached.Slabs.Mover

/-!
# What `mem_malloced` counts

`mem_malloced` is meant to be the memory held in pages. But `memory_allocate` adds the size
of a page also when `malloc` fails, and nothing ever takes that back: each failure lowers
by a page what can still be allocated under the memory limit.

Results:
* `step_balanced`: every step keeps the balance
* `memMalloced_eq_heldPages`: the count is right while `malloc` does not fail
* `failed_malloc_is_counted`: a page that was never there is counted
-/

namespace Memcached.Slabs

open Lib

variable {cfg : Config} {s s' : SlabState}

/-! ## Pages held -/

def heldPages (cfg : Config) (s : SlabState) : ℕ :=
  ∑ id ∈ Finset.range (cfg.powerLargest + 1), (s.slabclass id).slabs

/-- `mem_malloced` is exact, but for `hole` pages that are on their way from one
place to another. -/
def Balanced (cfg : Config) (s : SlabState) (hole : ℕ) : Prop :=
  s.memMalloced = cfg.slabPageSize * (heldPages cfg s + hole)

/-- Neither the arrays' lengths nor `mem_malloced` change. -/
def SameMemory (s s' : SlabState) : Prop :=
  (∀ id, (s'.slabclass id).slabs = (s.slabclass id).slabs) ∧ s'.memMalloced = s.memMalloced

theorem SameMemory.refl (s : SlabState) : SameMemory s s := ⟨fun _ => rfl, rfl⟩

theorem SameMemory.trans {s'' : SlabState} (h : SameMemory s s') (h' : SameMemory s' s'') :
    SameMemory s s'' :=
  ⟨fun id => (h'.1 id).trans (h.1 id), h'.2.trans h.2⟩

theorem SameMemory.of_view (hv : s'.view = s.view) (hm : s'.memMalloced = s.memMalloced) :
    SameMemory s s' :=
  ⟨fun id => congrFun (congrArg PageView.slabs hv) id, hm⟩

theorem Balanced.same {hole : ℕ} (h : Balanced cfg s hole) (hs : SameMemory s s') :
    Balanced cfg s' hole := by
  unfold Balanced heldPages at h ⊢
  rw [hs.2, h]
  simp only [hs.1]

theorem heldPages_setClass (cfg : Config) (s : SlabState) {id : ℕ} (p : SlabClass)
    (hi : id ≤ cfg.powerLargest) :
    heldPages cfg (s.setClass id p) + (s.slabclass id).slabs = heldPages cfg s + p.slabs :=
  sum_setClass cfg s p hi SlabClass.slabs

/-! ## Pages in flight -/

theorem Balanced.setClass {hole ho' id : ℕ} (h : Balanced cfg s hole)
    (hi : id ≤ cfg.powerLargest) {p : SlabClass}
    (hs : p.slabs + ho' = (s.slabclass id).slabs + hole) :
    Balanced cfg (s.setClass id p) ho' := by
  have hh := heldPages_setClass cfg s p hi
  have hm : (s.setClass id p).memMalloced = s.memMalloced := rfl
  unfold Balanced at h ⊢
  rw [hm, h]
  congr 1
  omega

theorem Balanced.append {hole id : ℕ} (h : Balanced cfg s (hole + 1)) (hi : id ≤ cfg.powerLargest)
    (ptr : Page) : Balanced cfg (s.setClass id ((s.slabclass id).append ptr)) hole := by
  apply h.setClass hi
  simp only [SlabClass.append]
  omega

theorem Balanced.shift {hole id : ℕ} (h : Balanced cfg s hole) (hi : id ≤ cfg.powerLargest)
    (hp : 0 < (s.slabclass id).slabs) :
    Balanced cfg (s.setClass id (s.slabclass id).shift) (hole + 1) := by
  apply h.setClass hi
  simp only [SlabClass.shift, hp.ne', if_false]
  omega

theorem Balanced.getPageFromGlobalPool {hole : ℕ} {ptr : Page} (h : Balanced cfg s hole)
    (hg : getPageFromGlobalPool s = (s', some ptr)) : Balanced cfg s' (hole + 1) := by
  simp only [Slabs.getPageFromGlobalPool] at hg
  split_ifs at hg with he
  · cases (Prod.mk.inj hg).2
  rw [← (Prod.mk.inj hg).1]
  have hp : globalPagePool ≤ cfg.powerLargest := Nat.zero_le _
  apply h.setClass hp
  simp only [SlabClass.pop]
  omega

theorem Balanced.freePage {hole : ℕ} (h : Balanced cfg s (hole + 1)) (ptr : Page) :
    Balanced cfg (freePage cfg s ptr) hole := by
  have hh : heldPages cfg (Slabs.freePage cfg s ptr) = heldPages cfg s := rfl
  unfold Balanced at h ⊢
  rw [hh]
  show s.memMalloced - cfg.slabPageSize = _
  rw [h, ← Nat.add_assoc, Nat.mul_add_one, Nat.add_sub_cancel]

theorem Balanced.releaseLoop (h : Balanced cfg s 0) (n : ℕ) :
    Balanced cfg (releaseLoop cfg n s).1 0 := by
  induction n generalizing s with
  | zero => exact h
  | succ n ih =>
    obtain he | ⟨-, s1, ptr, hg, he⟩ := releaseLoop_succ_cases cfg n s
    · rw [he]
      exact h
    · rw [he]
      exact ih ((h.getPageFromGlobalPool hg).freePage ptr)

theorem Balanced.memoryRelease (h : Balanced cfg s 0) : Balanced cfg (memoryRelease cfg s).1 0 := by
  obtain he | ⟨-, -, he⟩ := memoryRelease_cases cfg s <;> rw [he]
  · exact h
  · exact h.releaseLoop _

/-! ## Steps that only touch free lists -/

theorem sameMemory_pushSlot (s : SlabState) (it : Chunk) (id : ℕ) :
    SameMemory s (pushSlot s it id) :=
  .of_view (view_pushSlot s it id) rfl

theorem sameMemory_doSlabsFree (cfg : Config) (s : SlabState) (it : Chunk) (id : ℕ) :
    SameMemory s (doSlabsFree cfg s it id) := by
  unfold doSlabsFree
  split_ifs
  · exact .refl s
  · exact sameMemory_pushSlot s it id

theorem sameMemory_doSlabsFreeChunked (s : SlabState) (parts : List (Chunk × ℕ)) :
    SameMemory s (doSlabsFreeChunked s parts) := by
  unfold doSlabsFreeChunked
  induction parts generalizing s with
  | nil => exact .refl s
  | cons part parts ih => exact (sameMemory_pushSlot s part.1 part.2).trans (ih _)

theorem sameMemory_splitSlabPageIntoFreelist (cfg : Config) (s : SlabState) (ptr : Page)
    (id : ℕ) : SameMemory s (splitSlabPageIntoFreelist cfg s ptr id) := by
  unfold splitSlabPageIntoFreelist
  induction List.range (cfg.perslab id) generalizing s with
  | nil => exact .refl s
  | cons x xs ih => exact (sameMemory_doSlabsFree cfg s ⟨ptr, x⟩ id).trans (ih _)

theorem sameMemory_doSlabsAlloc (cfg : Config) (s : SlabState) (id : ℕ) (noNewpage : Bool)
    (lib : LibC) :
    SameMemory
      (if EntersNewslab cfg s id noNewpage then (doSlabsNewslab cfg s id lib).1 else s)
      (doSlabsAlloc cfg s id noNewpage lib).1 := by
  refine .of_view ?_ ?_
  · rw [(doSlabsAlloc_pages cfg s id noNewpage lib).1]
    split_ifs <;> rfl
  by_cases hi : id < powerSmallest ∨ id > cfg.powerLargest
  · simp [doSlabsAlloc, EntersNewslab, hi]
  simp only [doSlabsAlloc, EntersNewslab, hi, if_false, not_false_eq_true, true_and]
  by_cases he : (s.slabclass id).slCurr = 0 ∧ noNewpage = false
  · simp only [he, and_self, if_true]
    split
    · split_ifs <;> rfl
    · rfl
  · simp only [if_neg he]
    split
    · split_ifs <;> rfl
    · rfl

theorem sameMemory_slabRebalanceAlloc (cfg : Config) (id : ℕ) (slabStart : Option Page)
    (lib : LibC) (n : ℕ) (s : SlabState) :
    SameMemory s (slabRebalanceAlloc cfg id slabStart lib n s).1 := by
  induction n generalizing s with
  | zero => exact .refl s
  | succ n ih =>
    have hs : SameMemory s (doSlabsAlloc cfg s id true lib).1 := by
      simpa [EntersNewslab] using sameMemory_doSlabsAlloc cfg s id true lib
    unfold slabRebalanceAlloc
    split
    · rename_i s' _ ha
      simpa [ha] using hs
    rename_i s' it _ ha
    rw [ha] at hs
    split_ifs
    · have hc : SameMemory s'
          { s' with chunks := Function.update s'.chunks it .cleared } := ⟨fun _ => rfl, rfl⟩
      exact (hs.trans hc).trans (ih _)
    · exact hs

theorem sameMemory_slabRebalanceEvict (s : SlabState) (it : Chunk) (found : InUse) :
    SameMemory s (slabRebalanceEvict s it found) := by
  cases found with
  | chunked parts expired =>
    exact (sameMemory_doSlabsFreeChunked s parts).trans (.of_view (view_markBusy _) rfl)
  | busy => exact .of_view (view_markCompleted s it) rfl
  | save => exact .of_view (view_markCompleted s it) rfl
  | expired => exact .of_view (view_markCompleted s it) rfl

theorem sameMemory_slabRebalanceSave (cfg : Config) (s : SlabState) (it : Chunk) (found : InUse)
    (lib : LibC) : SameMemory s (slabRebalanceSave cfg s it found lib) := by
  have ha := sameMemory_slabRebalanceAlloc cfg s.rebal.sClsid s.rebal.slabStart lib
    (cfg.perslab s.rebal.sClsid) s
  unfold slabRebalanceSave
  split
  · rename_i s' he
    rw [he] at ha
    exact ha.trans (sameMemory_slabRebalanceEvict s' it found)
  · rename_i s' it' he
    rw [he] at ha
    exact ha.trans (.of_view (view_markCompleted s' it) rfl)

theorem sameMemory_slabRebalanceMove (cfg : Config) (s : SlabState) (found : InUse) (lib : LibC) :
    SameMemory s (slabRebalanceMove cfg s found lib) := by
  have hl : SameMemory s (slabRebalanceLook cfg s found lib) := by
    unfold slabRebalanceLook slabRebalanceMoveChunk
    split
    · exact .refl s
    split_ifs
    · exact .refl s
    split
    · exact .refl s
    · exact .of_view (by simp) rfl
    split
    · exact .of_view (view_markBusy s) rfl
    · exact sameMemory_slabRebalanceSave cfg s _ _ lib
    · exact sameMemory_slabRebalanceSave cfg s _ _ lib
    · exact sameMemory_slabRebalanceEvict s _ _
    · exact sameMemory_slabRebalanceEvict s _ _
  refine hl.trans ?_
  unfold slabRebalanceMove advanceSlabPos
  split_ifs <;> exact ⟨fun _ => rfl, rfl⟩

/-! ## The condition -/

/-- `malloc` does not fail in this step: when a class is to get a page and the pool
is empty, there is memory for one. -/
def MallocSucceeds (cfg : Config) (s : SlabState) (a : Act) : Prop :=
  ∀ id lib, newslabOf cfg s a = some (id, lib) → RequestsPage cfg s id lib →
    (s.slabclass globalPagePool).slabs = 0 → lib.malloc ≠ none

def MemorySafe (cfg : Config) (s : SlabState) (a : Act) : Prop :=
  MoveSafe cfg s a ∧ MallocSucceeds cfg s a

theorem sameMemory_growSlabList (s : SlabState) (id : ℕ) (reallocOk : Bool) :
    SameMemory s (growSlabList s id reallocOk).1 := by
  refine ⟨growSlabList_slabs s id reallocOk, ?_⟩
  obtain ⟨-, h⟩ | ⟨-, h⟩ | ⟨-, h⟩ := growSlabList_cases s id reallocOk
  all_goals simp [h, SlabState.setClass]

theorem Balanced.takePage {lib : LibC} (h : Balanced cfg s 0) (id : ℕ)
    (hr : cfg.slabReassign = true) (hb : cfg.memBase = false)
    (hm : (s.slabclass globalPagePool).slabs = 0 → lib.malloc ≠ none) :
    ∃ t ptr, takePage cfg s id lib = (t, some ptr) ∧ Balanced cfg t 1 := by
  unfold Slabs.takePage
  by_cases hp : (s.slabclass globalPagePool).slabs < 1
  · obtain ⟨ptr, hpt⟩ := Option.ne_none_iff_exists'.mp (hm (by omega))
    have hl : newslabLen cfg id = cfg.slabPageSize := by simp [newslabLen, hr]
    refine ⟨{ s with memMalloced := s.memMalloced + newslabLen cfg id, live := insert ptr s.live },
      ptr, ?_, ?_⟩
    · simp only [Slabs.getPageFromGlobalPool, hp, if_true, memoryAllocate, hb, hpt]
    show s.memMalloced + newslabLen cfg id = cfg.slabPageSize * (heldPages cfg s + 1)
    unfold Balanced at h
    rw [h, hl, Nat.add_zero, Nat.mul_add_one]
  · have hg : Slabs.getPageFromGlobalPool s =
        (s.setClass globalPagePool (s.slabclass globalPagePool).pop,
          some ((s.slabclass globalPagePool).slabList
            ((s.slabclass globalPagePool).slabs - 1))) := by
      simp only [Slabs.getPageFromGlobalPool, hp, if_false]
    rw [hg]
    exact ⟨_, _, rfl, h.getPageFromGlobalPool hg⟩

theorem Balanced.doSlabsNewslab {id : ℕ} {lib : LibC} (h : Balanced cfg s 0)
    (hr : cfg.slabReassign = true) (hb : cfg.memBase = false)
    (hi : id ≤ cfg.powerLargest)
    (hm : RequestsPage cfg s id lib → (s.slabclass globalPagePool).slabs = 0 →
      lib.malloc ≠ none) :
    Balanced cfg (doSlabsNewslab cfg s id lib).1 0 := by
  unfold Slabs.doSlabsNewslab
  split_ifs with hl
  · exact h
  have hg := h.same (sameMemory_growSlabList s id lib.reallocOk)
  have hs := growSlabList_slabs s id lib.reallocOk globalPagePool
  have ho := growSlabList_true_iff s id lib.reallocOk
  revert hg hs ho
  obtain ⟨s1, grown⟩ := growSlabList s id lib.reallocOk
  intro hg hs ho
  cases grown with
  | false => exact hg
  | true =>
    obtain ⟨t, ptr, ht, hf⟩ := hg.takePage id hr hb fun he =>
      hm ⟨hl, ho.mp rfl⟩ (by rw [← hs]; exact he)
    simp only [ht]
    exact (hf.same (sameMemory_splitSlabPageIntoFreelist cfg t ptr id)).append hi ptr

theorem Balanced.slabRebalanceFinish (h : Balanced cfg s 0) (hm : Mover cfg s)
    (hd : s.rebal.done ≠ 0) : Balanced cfg (slabRebalanceFinish cfg s).1 0 := by
  obtain ⟨page, hp⟩ := Option.ne_none_iff_exists'.mp (hm.done hd)
  obtain ⟨hs, hds, -⟩ := hm.classes (hm.done hd)
  obtain ⟨hpo, -⟩ := hm.first page hp
  have hmo := (h.shift hs hpo).append hds page
  simp only [Slabs.slabRebalanceFinish, hp, Option.getD_some]
  split_ifs
  · exact (hmo.same (sameMemory_splitSlabPageIntoFreelist cfg _ page _)).same
      ⟨fun _ => rfl, rfl⟩
  have hf : Balanced cfg { (s.setClass s.rebal.sClsid
      (s.slabclass s.rebal.sClsid).shift).setClass s.rebal.dClsid
      (((s.setClass s.rebal.sClsid (s.slabclass s.rebal.sClsid).shift).slabclass
        s.rebal.dClsid).append page) with memLimitReached := false } 0 :=
    hmo.same ⟨fun _ => rfl, rfl⟩
  exact hf.memoryRelease.same ⟨fun _ => rfl, rfl⟩

theorem step_balanced {a : Act} {ev : PageEvents} (h : Balanced cfg s 0) (hm : Mover cfg s)
    (hr : cfg.slabReassign = true) (hb : cfg.memBase = false)
    (hma : MallocSucceeds cfg s a) (hs : step cfg s a = some (s', ev)) :
    Balanced cfg s' 0 := by
  cases a with
  | newslab id lib =>
    obtain ⟨ho, rfl, -⟩ := System.guarded_eq_some hs
    exact h.doSlabsNewslab hr hb ho.2.2 (hma id lib rfl)
  | alloc id noNewpage lib =>
    obtain ⟨-, rfl, -⟩ := System.guarded_eq_some hs
    refine Balanced.same ?_ (sameMemory_doSlabsAlloc cfg s id noNewpage lib)
    split_ifs with he
    · refine h.doSlabsNewslab hr hb ?_ (hma id lib (by simp [newslabOf, he]))
      have := he.1
      omega
    · exact h
  | free it id =>
    cases hs
    exact h.same (sameMemory_doSlabsFree cfg s it id)
  | freeChunked parts =>
    cases hs
    exact h.same (sameMemory_doSlabsFreeChunked s parts)
  | adjustMemLimit newMemLimit =>
    cases hs
    unfold doSlabsAdjustMemLimit
    rw [if_neg (by simp [hb])]
    have hl : Balanced cfg { s with memLimit := newMemLimit, memLimitReached := false } 0 :=
      h.same ⟨fun _ => rfl, rfl⟩
    exact hl.memoryRelease
  | reassign src dst =>
    cases hs
    unfold doSlabsReassign
    split_ifs
    all_goals exact h
  | rebalanceStart lib =>
    obtain ⟨-, rfl, -⟩ := System.guarded_eq_some hs
    refine h.same ((sameMemory_growSlabList s s.rebal.dClsid lib.reallocOk).trans ?_)
    unfold slabRebalanceStart
    simp only
    split_ifs <;> exact ⟨fun _ => rfl, rfl⟩
  | rebalanceMove found lib =>
    obtain ⟨-, rfl, -⟩ := System.guarded_eq_some hs
    exact h.same (sameMemory_slabRebalanceMove cfg s found lib)
  | rebalanceFinish =>
    obtain ⟨hd, rfl, -⟩ := System.guarded_eq_some hs
    exact h.slabRebalanceFinish hm hd

/-- **Memory accounting.** With `slab_reassign` on and no preallocation, in every run
in which `malloc` does not fail (and whose steps leave a page that is being moved
out of the pool there), `mem_malloced` is the page size times the number of pages
held by all classes and the pool. -/
theorem memMalloced_eq_heldPages (hreassign : cfg.slabReassign = true)
    (hbase : cfg.memBase = false) (hr : (system cfg).Reachable (MemorySafe cfg) s) :
    s.memMalloced = cfg.slabPageSize * heldPages cfg s := by
  have hi : Mover cfg s ∧ Balanced cfg s 0 := by
    refine hr.induct (P := fun s => Mover cfg s ∧ Balanced cfg s 0) ?_ ?_
    · rintro s ⟨limit, memCurrent, rfl⟩
      refine ⟨mover_slabsInit cfg limit memCurrent, ?_⟩
      simp [Balanced, heldPages, slabsInit]
    · rintro s a t ev ⟨hm, hb⟩ ⟨hsa, hma⟩ hs
      exact ⟨step_mover hm hsa hs, step_balanced hb hm hreassign hbase hma hs⟩
  exact hi.2

theorem Calm.mallocSucceeds {a : Act} (h : Calm cfg s a) : MallocSucceeds cfg s a := by
  intro id lib hn _ _
  have hm := h.2
  rw [hn] at hm
  exact Option.isSome_iff_ne_none.mp hm

theorem memMalloced_eq_heldPages_class_move : ∃ s, (s.slabclass 2).slabs = 1 ∧
    s.memMalloced = 1 * heldPages twoClasses s := by
  obtain ⟨s, hs, hc, -⟩ := classMove_reachable
  exact ⟨s, hc,
    memMalloced_eq_heldPages rfl rfl (hs.mono fun _ _ h => ⟨h.moveSafe, h.mallocSucceeds⟩)⟩

/-- Class 1 asks for its first page and `malloc` fails: no page is held, but one is
counted. -/
theorem failed_malloc_is_counted :
    ∃ s, (system onePerPage).Reachable (fun _ _ => True) s ∧ s.memMalloced = 1 ∧
      heldPages onePerPage s = 0 := by
  have hi : (system onePerPage).Reachable (fun _ _ => True) (slabsInit 100 0) :=
    .of_init ⟨100, 0, rfl⟩
  exact ⟨_, hi.of_exec [.alloc 1 false ⟨none, true⟩] rfl, rfl, rfl⟩

end Memcached.Slabs
