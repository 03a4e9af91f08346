import Memcached.Slabs.Mover

/-!
# The size of the slab lists

`grow_slab_list` makes room for one page. `slab_rebalance_start` makes it for a page that
`slab_rebalance_finish` stores much later, in another critical section. In between, a new
page of the destination class may use the same entry without growing the array.

Results:
* `step_bounded`: every step that leaves the reserved entry alone keeps the bound
* `slabs_le_listSize`: no array overflows in a run of such steps
* `finish_stores_behind_slab_list`: a run that ends with 17 pages in an array of 16
-/

namespace Memcached.Slabs

open Lib

variable {cfg : Config} {s s' : SlabState}

/-! ## The invariant and the condition -/

/-- Every class stays within its array, and the destination of a running move has a
free entry for the moved page. -/
structure Bounded (s : SlabState) : Prop where
  le : ∀ id, (s.slabclass id).slabs ≤ (s.slabclass id).listSize
  reserved : s.rebal.slabStart ≠ none →
    (s.slabclass s.rebal.dClsid).slabs < (s.slabclass s.rebal.dClsid).listSize

/-- There is a page to be had: in the pool, from `malloc` or in the preallocated
area. -/
def PageAvailable (cfg : Config) (s : SlabState) (id : ℕ) (lib : LibC) : Prop :=
  0 < (s.slabclass globalPagePool).slabs ∨ (cfg.memBase = false ∧ lib.malloc ≠ none) ∨
    (cfg.memBase = true ∧ newslabLen cfg id ≤ s.memAvail)

/-- A step that leaves the reserved entry to the mover: while a page is being moved
to a class, `do_slabs_newslab` does not give that class a page when the entry
reserved for the move is the only free one. -/
def KeepsReservedEntry (cfg : Config) (s : SlabState) (a : Act) : Prop :=
  ∀ id lib, newslabOf cfg s a = some (id, lib) → RequestsPage cfg s id lib →
    PageAvailable cfg s id lib → s.rebal.slabStart ≠ none → id = s.rebal.dClsid →
    (s.slabclass id).slabs + 1 ≠ (s.slabclass id).listSize

def ListSafe (cfg : Config) (s : SlabState) (a : Act) : Prop :=
  MoveSafe cfg s a ∧ KeepsReservedEntry cfg s a

/-! ## Classes that only lose pages -/

/-- No class gains pages, and no array changes its size. -/
def Shrinks (s s' : SlabState) : Prop :=
  ∀ id, (s'.slabclass id).slabs ≤ (s.slabclass id).slabs ∧
    (s'.slabclass id).listSize = (s.slabclass id).listSize

theorem Shrinks.of_view (h : s'.view = s.view) : Shrinks s s' := fun id =>
  ⟨(congrFun (congrArg PageView.slabs h) id).le, congrFun (congrArg PageView.listSize h) id⟩

theorem Shrinks.trans {s'' : SlabState} (h : Shrinks s s') (h' : Shrinks s' s'') :
    Shrinks s s'' := fun id =>
  ⟨(h' id).1.trans (h id).1, (h' id).2.trans (h id).2⟩

theorem Bounded.of_shrinks (h : Bounded s) (hs : Shrinks s s') (hmo : s'.mover = s.mover) :
    Bounded s' := by
  simp only [SlabState.mover, Prod.mk.injEq] at hmo
  obtain ⟨-, hd, hst, -, -⟩ := hmo
  refine ⟨fun id => ?_, fun hm => ?_⟩
  · rw [(hs id).2]
    exact (hs id).1.trans (h.le id)
  · rw [hst] at hm
    rw [hd, (hs _).2]
    exact (hs _).1.trans_lt (h.reserved hm)

theorem shrinks_getPageFromGlobalPool (s : SlabState) : Shrinks s (getPageFromGlobalPool s).1 := by
  simp only [getPageFromGlobalPool]
  split_ifs
  · exact .of_view rfl
  intro id
  rcases eq_or_ne id globalPagePool with rfl | hi
  · simp [SlabClass.pop]
  · simp [setClass_of_ne s _ hi]

variable {id : ℕ}

theorem shrinks_takePage {lib : LibC} {ptr : Page}
    (h : (takePage cfg s id lib).2 = some ptr) : Shrinks s (takePage cfg s id lib).1 := by
  rcases takePage_some_cases h with ⟨-, -, he⟩ | ⟨-, he⟩ <;> rw [he]
  · exact shrinks_getPageFromGlobalPool s
  intro i
  rw [(memoryAllocate_frame cfg s _ lib).1]
  exact ⟨le_rfl, rfl⟩

theorem shrinks_releaseLoop (cfg : Config) (n : ℕ) (s : SlabState) :
    Shrinks s (releaseLoop cfg n s).1 := by
  induction n generalizing s with
  | zero => exact .of_view rfl
  | succ n ih =>
    rcases releaseLoop_succ_cases cfg n s with he | ⟨-, s1, ptr, hg, he⟩
    · rw [he]
      exact .of_view rfl
    have hp := shrinks_getPageFromGlobalPool s
    rw [hg] at hp
    have hf : Shrinks s1 (freePage cfg s1 ptr) := fun _ => ⟨le_rfl, rfl⟩
    rw [he]
    exact (hp.trans hf).trans (ih _)

theorem shrinks_memoryRelease (cfg : Config) (s : SlabState) :
    Shrinks s (memoryRelease cfg s).1 := by
  rcases memoryRelease_cases cfg s with he | ⟨-, -, he⟩ <;> rw [he]
  · exact .of_view rfl
  · exact shrinks_releaseLoop cfg _ s

theorem shrinks_doSlabsAdjustMemLimit (cfg : Config) (s : SlabState) (newMemLimit : ℕ) :
    Shrinks s (doSlabsAdjustMemLimit cfg s newMemLimit).1 := by
  unfold doSlabsAdjustMemLimit
  split_ifs
  · exact .of_view rfl
  have hs : Shrinks s { s with memLimit := newMemLimit, memLimitReached := false } :=
    fun _ => ⟨le_rfl, rfl⟩
  exact hs.trans (shrinks_memoryRelease cfg _)

/-! ## Growing -/

theorem growSlabList_lt {reallocOk : Bool}
    (hl : (s.slabclass id).slabs ≤ (s.slabclass id).listSize)
    (ho : (growSlabList s id reallocOk).2 = true) :
    ((growSlabList s id reallocOk).1.slabclass id).slabs <
      ((growSlabList s id reallocOk).1.slabclass id).listSize := by
  rcases growSlabList_cases s id reallocOk with ⟨hn, h⟩ | ⟨he, h⟩ | ⟨-, h⟩
  · rw [h]
    exact lt_of_le_of_ne hl hn
  · rw [h, setClass_self]
    simp only [SlabClass.grown]
    split_ifs <;> omega
  · simp [h] at ho

theorem growSlabList_listSize (s : SlabState) (id : ℕ) (reallocOk : Bool) (i : ℕ) :
    (s.slabclass i).listSize ≤ ((growSlabList s id reallocOk).1.slabclass i).listSize := by
  rcases growSlabList_cases s id reallocOk with ⟨-, h⟩ | ⟨-, h⟩ | ⟨-, h⟩ <;> rw [h]
  rcases eq_or_ne i id with rfl | hi
  · simp only [setClass_self, SlabClass.grown]
    split_ifs <;> omega
  · rw [setClass_of_ne s _ hi]

theorem Bounded.growSlabList (h : Bounded s) (id : ℕ) (reallocOk : Bool) :
    Bounded (growSlabList s id reallocOk).1 := by
  have hf := (growSlabList_frame s id reallocOk).2.2
  simp only [SlabState.mover, Prod.mk.injEq] at hf
  refine ⟨fun i => ?_, fun hm => ?_⟩
  · rw [growSlabList_slabs]
    exact (h.le i).trans (growSlabList_listSize s id reallocOk i)
  · rw [hf.2.2.1] at hm
    rw [hf.2.1, growSlabList_slabs]
    exact (h.reserved hm).trans_le (growSlabList_listSize s id reallocOk _)

/-! ## Steps -/

theorem pageAvailable_of_takePage {lib : LibC} {ptr : Page} {reallocOk : Bool}
    (h : (takePage cfg (growSlabList s id reallocOk).1 id lib).2 = some ptr) :
    PageAvailable cfg s id lib := by
  rcases takePage_some_cases h with ⟨hp, -, -⟩ | ⟨-, he⟩
  · rw [growSlabList_slabs] at hp
    exact .inl hp
  refine .inr ?_
  have ha : (growSlabList s id reallocOk).1.memAvail = s.memAvail := by
    rcases growSlabList_cases s id reallocOk with ⟨-, h⟩ | ⟨-, h⟩ | ⟨-, h⟩ <;>
      simp [h, SlabState.setClass]
  rw [he, memoryAllocate] at h
  cases hb : cfg.memBase with
  | false =>
    refine .inl ⟨rfl, fun hm => ?_⟩
    simp [hb, hm] at h
  | true =>
    refine .inr ⟨rfl, ?_⟩
    by_contra hg
    simp [hb, ha, Nat.lt_of_not_le hg] at h

section

variable (h : Bounded s)
include h

theorem Bounded.append (ptr : Page) (hl : (s.slabclass id).slabs < (s.slabclass id).listSize)
    (hd : s.rebal.slabStart ≠ none → id = s.rebal.dClsid →
      (s.slabclass id).slabs + 1 < (s.slabclass id).listSize) :
    Bounded (s.setClass id ((s.slabclass id).append ptr)) := by
  refine ⟨fun i => ?_, fun hm => ?_⟩
  · rcases eq_or_ne i id with rfl | hi
    · rw [setClass_self]
      exact Nat.succ_le_of_lt hl
    · rw [setClass_of_ne s _ hi]
      exact h.le i
  have hr : (s.setClass id ((s.slabclass id).append ptr)).rebal = s.rebal := rfl
  rw [hr] at hm ⊢
  rcases eq_or_ne s.rebal.dClsid id with he | hn
  · rw [he, setClass_self]
    exact hd hm he.symm
  · rw [setClass_of_ne s _ hn]
    exact h.reserved hm

theorem Bounded.of_view (hv : s'.view = s.view) : Bounded s' :=
  h.of_shrinks (.of_view hv) (mover_eq_of_view hv)

theorem Bounded.doSlabsNewslab {lib : LibC}
    (hk : RequestsPage cfg s id lib → PageAvailable cfg s id lib →
      s.rebal.slabStart ≠ none → id = s.rebal.dClsid →
      (s.slabclass id).slabs + 1 ≠ (s.slabclass id).listSize) :
    Bounded (doSlabsNewslab cfg s id lib).1 := by
  have hg := h.growSlabList id lib.reallocOk
  rcases doSlabsNewslab_cases cfg s id lib with
    ⟨-, hv | hv⟩ | ⟨ptr, -, hl, ho, ht, hv⟩
  · exact h.of_view hv
  · exact hg.of_view hv
  have hs := shrinks_takePage ht
  have hmo := takePage_mover ht
  have hta := hg.of_shrinks hs hmo
  refine (hta.append ptr ?_ fun hm hi => ?_).of_view hv
  · rw [(hs id).2]
    exact (hs id).1.trans_lt (growSlabList_lt (h.le id) ho)
  -- the array of the destination has a free entry, so it was not enlarged
  have hf := hmo.trans (growSlabList_frame s id lib.reallocOk).2.2
  simp only [SlabState.mover, Prod.mk.injEq] at hf
  rw [hf.2.2.1] at hm
  rw [hf.2.1] at hi
  have hlt := h.reserved hm
  rw [← hi] at hlt
  have hr : RequestsPage cfg s id lib := ⟨hl, (growSlabList_true_iff s id _).mp ho⟩
  have hn := hk hr (pageAvailable_of_takePage ht) hm hi
  have hsl := (hs id).1
  have hsi := growSlabList_listSize s id lib.reallocOk id
  rw [growSlabList_slabs] at hsl
  rw [(hs id).2]
  omega

theorem Bounded.slabRebalanceStart (hm : Mover cfg s)
    (hs : s.slabRebalanceSignal = 1) (lib : LibC) :
    Bounded (slabRebalanceStart cfg s lib) := by
  have hg := h.growSlabList s.rebal.dClsid lib.reallocOk
  have hf := (growSlabList_frame s s.rebal.dClsid lib.reallocOk).2.2
  simp only [SlabState.mover, Prod.mk.injEq] at hf
  have hi := hm.idle (by omega)
  rcases slabRebalanceStart_cases cfg s lib with he | ⟨-, -, -, -, ho, he⟩ <;> rw [he]
  · refine ⟨hg.le, fun hmo => absurd ?_ hmo⟩
    exact hf.2.2.1.trans hi
  · refine ⟨hg.le, fun _ => ?_⟩
    simp only [pickPage, hf.2.1]
    exact growSlabList_lt (h.le _) ho

theorem Bounded.slabRebalanceMove (found : InUse) (lib : LibC) :
    Bounded (slabRebalanceMove cfg s found lib) := by
  obtain ⟨done, hv⟩ := slabRebalanceMove_view cfg s found lib
  have hs := congrArg PageView.slabs hv
  have hsi := congrArg PageView.listSize hv
  have hd := congrArg PageView.dClsid hv
  have hst := congrArg PageView.slabStart hv
  simp only [SlabState.view] at hs hsi hd hst
  have hs' := fun i => congrFun hs i
  have hsi' := fun i => congrFun hsi i
  refine ⟨fun id => ?_, fun hm => ?_⟩
  · rw [hs', hsi']
    exact h.le id
  · rw [hst] at hm
    rw [hd, hs', hsi']
    exact h.reserved hm

theorem Bounded.slabRebalanceFinish (hm : Mover cfg s)
    (hd : s.rebal.done ≠ 0) : Bounded (slabRebalanceFinish cfg s).1 := by
  obtain ⟨page, hp⟩ := Option.ne_none_iff_exists'.mp (hm.done hd)
  obtain ⟨-, -, hn⟩ := hm.classes (hm.done hd)
  obtain ⟨hpo, -⟩ := hm.first page hp
  have hl := h.reserved (hm.done hd)
  let shifted := s.setClass s.rebal.sClsid (s.slabclass s.rebal.sClsid).shift
  let stored := shifted.setClass s.rebal.dClsid ((shifted.slabclass s.rebal.dClsid).append page)
  have hs : ∀ id, (stored.slabclass id).slabs ≤ (stored.slabclass id).listSize := by
    intro id
    rcases eq_or_ne id s.rebal.dClsid with rfl | hds
    · simp only [stored, shifted, setClass_self, setClass_of_ne _ _ hn.symm, SlabClass.append]
      exact Nat.succ_le_of_lt hl
    simp only [stored, setClass_of_ne _ _ hds]
    rcases eq_or_ne id s.rebal.sClsid with rfl | hsr
    · have hle := h.le s.rebal.sClsid
      simp only [shifted, setClass_self, SlabClass.shift, hpo.ne', if_false]
      omega
    · simp only [shifted, setClass_of_ne _ _ hsr]
      exact h.le id
  -- splitting the page and cutting down the pool do not add pages
  have hb : ∀ t : SlabState, Shrinks stored t →
      ∀ id, (t.slabclass id).slabs ≤ (t.slabclass id).listSize := by
    intro t ht id
    rw [(ht id).2]
    exact (ht id).1.trans (hs id)
  refine ⟨?_, fun hmo => absurd rfl hmo⟩
  simp only [Slabs.slabRebalanceFinish, hp, Option.getD_some]
  split_ifs
  · exact hb _ (.of_view (view_splitSlabPageIntoFreelist cfg stored page _))
  · have hf : Shrinks stored { stored with memLimitReached := false } := fun _ => ⟨le_rfl, rfl⟩
    exact hb _ (hf.trans (shrinks_memoryRelease cfg _))

theorem Bounded.doSlabsReassign (hm : Mover cfg s) (src dst : ℕ) :
    Bounded (doSlabsReassign cfg s src dst) := by
  unfold Slabs.doSlabsReassign
  split_ifs with hs
  · exact h
  · exact h
  · exact h
  · exact h
  · have hi := hm.idle (by omega)
    exact ⟨h.le, fun hmo => absurd hi hmo⟩

end

theorem step_bounded {a : Act} {ev : PageEvents} (h : Bounded s) (hm : Mover cfg s)
    (hk : KeepsReservedEntry cfg s a) (hst : step cfg s a = some (s', ev)) : Bounded s' := by
  rcases step_cases hst with ⟨id, lib, hn, -, -, -, hv, -⟩ | ⟨hv, -⟩ |
    ⟨newMemLimit, -, rfl, -⟩ | ⟨src, dst, rfl, -⟩ | ⟨lib, hs, rfl, -⟩ |
    ⟨found, lib, -, rfl, -⟩ | ⟨-, hd, rfl⟩
  · exact (h.doSlabsNewslab (hk id lib hn)).of_view hv
  · exact h.of_view hv
  · exact h.of_shrinks (shrinks_doSlabsAdjustMemLimit cfg s newMemLimit)
      (doSlabsAdjustMemLimit_mover cfg s newMemLimit)
  · exact h.doSlabsReassign hm src dst
  · exact h.slabRebalanceStart hm hs lib
  · exact h.slabRebalanceMove found lib
  · exact h.slabRebalanceFinish hm hd

/-- **Slab lists stay within their arrays.** In every run whose steps leave the
page being moved in the pool and the reserved entry to the mover, every class
has `slabs ≤ list_size`; the entry that `do_slabs_newslab` stores to after
`grow_slab_list`, and the one that `slab_rebalance_finish` stores to, lie
inside the array. -/
theorem slabs_le_listSize (hr : (system cfg).Reachable (ListSafe cfg) s) :
    (∀ id, (s.slabclass id).slabs ≤ (s.slabclass id).listSize) ∧
    (∀ id reallocOk, (growSlabList s id reallocOk).2 = true →
      ((growSlabList s id reallocOk).1.slabclass id).slabs <
        ((growSlabList s id reallocOk).1.slabclass id).listSize) ∧
    (s.rebal.done ≠ 0 →
      (s.slabclass s.rebal.dClsid).slabs < (s.slabclass s.rebal.dClsid).listSize) := by
  have hi : Mover cfg s ∧ Bounded s := by
    refine hr.induct (P := fun s => Mover cfg s ∧ Bounded s) ?_ ?_
    · rintro s ⟨limit, memCurrent, rfl⟩
      exact ⟨mover_slabsInit cfg limit memCurrent, by simp [slabsInit],
        fun hmo => absurd rfl hmo⟩
    · rintro s a t ev ⟨hm, hb⟩ ⟨hsa, hk⟩ hs
      exact ⟨step_mover hm hsa hs, step_bounded hb hm hk hs⟩
  obtain ⟨hm, hb⟩ := hi
  exact ⟨hb.le, fun id reallocOk ho => growSlabList_lt (hb.le id) ho,
    fun hd => hb.reserved (hm.done hd)⟩

theorem Calm.keepsReservedEntry {a : Act} (h : Calm cfg s a) : KeepsReservedEntry cfg s a := by
  intro id lib hn _ _ hs _
  obtain hno | ⟨-, hno⟩ := h.1
  · exact absurd hno hs
  · rw [hn] at hno
    cases hno

theorem slabs_le_listSize_class_move : ∃ s : SlabState, (s.slabclass 2).slabs = 1 ∧
    ∀ id, (s.slabclass id).slabs ≤ (s.slabclass id).listSize := by
  obtain ⟨s, hs, hc, -⟩ := classMove_reachable
  exact ⟨s, hc, (slabs_le_listSize (hs.mono fun _ _ h => ⟨h.moveSafe, h.keepsReservedEntry⟩)).1⟩

/-- Class 2 has 15 pages in its array of 16 when a page of class 1 is to be moved
there. Before the move ends, class 2 takes a page of its own. -/
def fullListTrace : List Act :=
  (List.range 15).map (fun i => .alloc 2 false ⟨some (100 + i), true⟩) ++
  [.alloc 1 false ⟨some 10, true⟩, .alloc 1 false ⟨some 20, true⟩, .free ⟨10, 0⟩ 1,
   .reassign 1 2, .rebalanceStart ⟨none, true⟩, .alloc 2 false ⟨some 115, true⟩,
   .rebalanceMove .busy ⟨none, true⟩, .rebalanceFinish]

theorem finish_stores_behind_slab_list :
    ∃ s, (system twoClasses).Reachable (fun _ _ => True) s ∧
      (s.slabclass 2).slabs = 17 ∧ (s.slabclass 2).listSize = 16 := by
  have hi : (system twoClasses).Reachable (fun _ _ => True) (slabsInit 100 0) :=
    .of_init ⟨100, 0, rfl⟩
  exact ⟨_, hi.of_exec fullListTrace rfl, rfl, rfl⟩

end Memcached.Slabs
