import Memcached.Lib.Run
import Memcached.Slabs.Pages

/-!
# Who owns a slab page

`Owned` says that the pages obtained and not yet freed are the pages in the classes'
arrays, each at one place; a page in flight is the `hole`. Every operation keeps it.
`Mover` says that the page being moved is still the first page of its source class; it
holds as long as the pool is left its last page while the mover has picked it.
-/

namespace Memcached.Slabs

open Lib

variable {cfg : Config} {s s' : SlabState} {hole : Option Page}

/-! ## The invariants -/

/-- Every page in memory, other than the one in flight, is at one place, and no
other page is anywhere. -/
structure Owned (cfg : Config) (s : SlabState) (hole : Option Page) : Prop where
  once : ∀ page, pageCount cfg s page + (if hole = some page then 1 else 0) =
    if page ∈ s.live then 1 else 0
  below : cfg.memBase = true → ∀ page ∈ s.live, page < s.memCurrent

/-- The page being moved is the first one of its source class. -/
structure Mover (cfg : Config) (s : SlabState) : Prop where
  classes : s.rebal.slabStart ≠ none → s.rebal.sClsid ≤ cfg.powerLargest ∧
    s.rebal.dClsid ≤ cfg.powerLargest ∧ s.rebal.sClsid ≠ s.rebal.dClsid
  first : ∀ page, s.rebal.slabStart = some page → 0 < (s.slabclass s.rebal.sClsid).slabs ∧
    (s.slabclass s.rebal.sClsid).slabList 0 = page
  started : s.slabRebalanceSignal = 2 ↔ s.rebal.slabStart ≠ none
  done : s.rebal.done ≠ 0 → s.rebal.slabStart ≠ none

theorem pages_eq_of_view (h : s'.view = s.view) (id : ℕ) :
    (s'.slabclass id).pages = (s.slabclass id).pages :=
  pages_congr (congrFun (congrArg PageView.slabs h) id) (congrFun (congrArg PageView.slabList h) id)

theorem Owned.congr (h : Owned cfg s hole)
    (hp : ∀ id, (s'.slabclass id).pages = (s.slabclass id).pages) (hl : s'.live = s.live)
    (hc : s'.memCurrent = s.memCurrent) : Owned cfg s' hole := by
  refine ⟨fun page => ?_, by rw [hl, hc]; exact h.below⟩
  have hco : pageCount cfg s' page = pageCount cfg s page := by simp only [pageCount, hp]
  rw [hco, hl, h.once page]

theorem Owned.of_view (h : Owned cfg s hole) (hv : s'.view = s.view) : Owned cfg s' hole :=
  h.congr (pages_eq_of_view hv) (congrArg PageView.live hv)
    (congrArg PageView.memCurrent hv)

def SlabState.mover (s : SlabState) : ℕ × ℕ × Option Page × ℕ × ℕ :=
  (s.rebal.sClsid, s.rebal.dClsid, s.rebal.slabStart, s.rebal.done, s.slabRebalanceSignal)

theorem mover_eq_of_view (h : s'.view = s.view) : s'.mover = s.mover :=
  congrArg (fun v : PageView => (v.sClsid, v.dClsid, v.slabStart, v.done, v.signal)) h

/-- The class still has its first page, at the front. -/
def KeepsFirst (s s' : SlabState) (id : ℕ) : Prop :=
  0 < (s.slabclass id).slabs →
    0 < (s'.slabclass id).slabs ∧ (s'.slabclass id).slabList 0 = (s.slabclass id).slabList 0

variable {id : ℕ}

theorem KeepsFirst.of_eq (hs : (s'.slabclass id).slabs = (s.slabclass id).slabs)
    (hl : (s'.slabclass id).slabList = (s.slabclass id).slabList) : KeepsFirst s s' id := by
  intro hp
  rw [hs, hl]
  exact ⟨hp, rfl⟩

theorem KeepsFirst.of_view (h : s'.view = s.view) (id : ℕ) : KeepsFirst s s' id :=
  .of_eq (congrFun (congrArg PageView.slabs h) id) (congrFun (congrArg PageView.slabList h) id)

theorem KeepsFirst.trans {s'' : SlabState} (h : KeepsFirst s s' id)
    (h' : KeepsFirst s' s'' id) : KeepsFirst s s'' id := by
  intro hp
  obtain ⟨hp', hl⟩ := h hp
  obtain ⟨hp'', hl'⟩ := h' hp'
  exact ⟨hp'', hl'.trans hl⟩

theorem Mover.congr (h : Mover cfg s) (hm : s'.mover = s.mover)
    (hf : s.rebal.slabStart ≠ none → KeepsFirst s s' s.rebal.sClsid) : Mover cfg s' := by
  simp only [SlabState.mover, Prod.mk.injEq] at hm
  obtain ⟨hsr, hds, hs, hd, hsi⟩ := hm
  refine ⟨by rw [hsr, hds, hs]; exact h.classes, ?_, by rw [hsi, hs]; exact h.started,
    by rw [hd, hs]; exact h.done⟩
  intro page hp
  rw [hs] at hp
  obtain ⟨hpo, hl⟩ := h.first page hp
  obtain ⟨hp', hl'⟩ := hf (by simp [hp]) hpo
  rw [hsr]
  exact ⟨hp', hl'.trans hl⟩

/-! ## Pages in flight -/

variable {ptr : Page}

theorem Owned.getPageFromGlobalPool (h : Owned cfg s none)
    (hg : (getPageFromGlobalPool s).2 = some ptr) :
    Owned cfg (getPageFromGlobalPool s).1 (some ptr) := by
  simp only [Slabs.getPageFromGlobalPool] at hg ⊢
  split_ifs at hg ⊢ with hp
  cases hg
  refine ⟨fun page => ?_, h.below⟩
  have hc := pageCount_setClass cfg s (s.slabclass globalPagePool).pop
    (show globalPagePool ≤ cfg.powerLargest from Nat.zero_le _) page
  have hpo := congrArg (List.count page) (pages_pop (s.slabclass globalPagePool) (by omega))
  have ho := h.once page
  rw [List.count_append, List.count_singleton] at hpo
  simp only [reduceCtorEq, if_false, add_zero] at ho
  simp only [Option.some.injEq, beq_iff_eq] at hpo ⊢
  have hl : (s.setClass globalPagePool (s.slabclass globalPagePool).pop).live = s.live := rfl
  rw [hl]
  omega

theorem Owned.insert (h : Owned cfg s none) (hp : ptr ∉ s.live)
    (hs : ∀ id, (s'.slabclass id).pages = (s.slabclass id).pages)
    (hl : s'.live = insert ptr s.live)
    (hb : cfg.memBase = true → ∀ page ∈ s'.live, page < s'.memCurrent) :
    Owned cfg s' (some ptr) := by
  refine ⟨fun page => ?_, hb⟩
  have ho := h.once page
  have hc : pageCount cfg s' page = pageCount cfg s page := by
    simp only [pageCount, hs]
  simp only [reduceCtorEq, if_false, add_zero] at ho
  rw [hc, hl, ho]
  obtain rfl | hn := eq_or_ne page ptr
  · simp [hp]
  · simp [hn, hn.symm]

theorem le_alignSize (size : ℕ) : size ≤ alignSize size := by
  unfold alignSize
  split_ifs <;> omega

theorem newslabLen_pos (cfg : Config) (id : ℕ) : 0 < newslabLen cfg id := by
  unfold newslabLen
  split_ifs
  · exact cfg.slabPageSize_pos
  · exact cfg.chunks_pos id

variable {lib : LibC}

theorem Owned.memoryAllocate (h : Owned cfg s none) {size : ℕ} (hs : 0 < size)
    (hf : lib.Fresh s) (hg : (memoryAllocate cfg s size lib).2 = some ptr) :
    Owned cfg (memoryAllocate cfg s size lib).1 (some ptr) := by
  unfold Slabs.memoryAllocate at hg ⊢
  by_cases hb : cfg.memBase = false
  · simp only [hb, if_true] at hg ⊢
    cases hm : lib.malloc with
    | none => simp [hm] at hg
    | some ptr' =>
      simp only [hm, Option.some.injEq] at hg ⊢
      subst hg
      exact h.insert (hf _ hm) (fun _ => rfl) rfl (by simp [hb])
  rw [if_neg hb] at hg ⊢
  by_cases ha : size > s.memAvail
  · simp [ha] at hg
  simp only [if_neg ha, Option.some.injEq] at hg ⊢
  subst hg
  -- the area grows upwards, so its next page lies above all pages in memory
  have hbe := h.below (by simpa using hb)
  have hpo : 0 < alignSize size := lt_of_lt_of_le hs (le_alignSize size)
  refine h.insert (fun hme => (hbe _ hme).false) (fun _ => rfl) rfl fun _ page hp => ?_
  obtain rfl | hp := Finset.mem_insert.mp hp
  · exact Nat.lt_add_of_pos_right hpo
  · exact Nat.lt_add_right _ (hbe page hp)

theorem Owned.append (h : Owned cfg s (some ptr)) (hi : id ≤ cfg.powerLargest) :
    Owned cfg (s.setClass id ((s.slabclass id).append ptr)) none := by
  refine ⟨fun page => ?_, h.below⟩
  have hc := pageCount_setClass cfg s ((s.slabclass id).append ptr) hi page
  have ho := h.once page
  rw [pages_append, List.count_append, List.count_singleton] at hc
  simp only [Option.some.injEq, beq_iff_eq] at ho hc
  simp only [reduceCtorEq, if_false, add_zero]
  have hl : (s.setClass id ((s.slabclass id).append ptr)).live = s.live := rfl
  rw [hl]
  omega

theorem Owned.freePage (h : Owned cfg s (some ptr)) : Owned cfg (freePage cfg s ptr) none := by
  refine ⟨fun page => ?_,
    fun hb page hp => h.below hb page (Finset.mem_of_mem_erase hp)⟩
  have ho := h.once page
  have hc : pageCount cfg (Slabs.freePage cfg s ptr) page = pageCount cfg s page := rfl
  have hl : (Slabs.freePage cfg s ptr).live = s.live.erase ptr := rfl
  rw [hc, hl]
  obtain rfl | hn := eq_or_ne page ptr
  · simp only [if_true] at ho
    simp only [reduceCtorEq, if_false, add_zero, Finset.mem_erase, ne_eq, not_true_eq_false,
      false_and]
    split_ifs at ho
    omega
  · simpa [hn, hn.symm] using ho

theorem Owned.shift (h : Owned cfg s none) (hi : id ≤ cfg.powerLargest)
    (hpo : 0 < (s.slabclass id).slabs) :
    Owned cfg (s.setClass id (s.slabclass id).shift) (some ((s.slabclass id).slabList 0)) := by
  refine ⟨fun page => ?_, h.below⟩
  have hc := pageCount_setClass cfg s (s.slabclass id).shift hi page
  have hp := congrArg (List.count page) (pages_shift (s.slabclass id) hpo)
  have ho := h.once page
  rw [List.count_cons] at hp
  simp only [reduceCtorEq, if_false, add_zero] at ho
  simp only [Option.some.injEq, beq_iff_eq] at hp ⊢
  have hl : (s.setClass id (s.slabclass id).shift).live = s.live := rfl
  rw [hl]
  omega

/-! ## New pages -/

section

variable (s : SlabState) (id : ℕ) (reallocOk : Bool)

/-- `grow_slab_list` succeeds on an array with a free entry, enlarges a full one, or
fails on a full one. -/
theorem growSlabList_cases :
    let p := s.slabclass id
    (p.slabs ≠ p.listSize ∧ growSlabList s id reallocOk = (s, true)) ∨
      (p.slabs = p.listSize ∧ growSlabList s id reallocOk = (s.setClass id p.grown, true)) ∨
      (p.slabs = p.listSize ∧ growSlabList s id reallocOk = (s, false)) := by
  simp only [growSlabList]
  split_ifs with hf ho
  · exact .inr (.inl ⟨hf, rfl⟩)
  · exact .inr (.inr ⟨hf, rfl⟩)
  · exact .inl ⟨hf, rfl⟩

@[simp] theorem growSlabList_slabs (i : ℕ) :
    ((growSlabList s id reallocOk).1.slabclass i).slabs = (s.slabclass i).slabs := by
  obtain ⟨-, h⟩ | ⟨-, h⟩ | ⟨-, h⟩ := growSlabList_cases s id reallocOk <;> rw [h]
  obtain rfl | hi := eq_or_ne i id
  · simp [SlabClass.grown]
  · simp [setClass_of_ne s _ hi]

@[simp] theorem growSlabList_slabList (i : ℕ) :
    ((growSlabList s id reallocOk).1.slabclass i).slabList = (s.slabclass i).slabList := by
  obtain ⟨-, h⟩ | ⟨-, h⟩ | ⟨-, h⟩ := growSlabList_cases s id reallocOk <;> rw [h]
  obtain rfl | hi := eq_or_ne i id
  · simp [SlabClass.grown]
  · simp [setClass_of_ne s _ hi]

theorem growSlabList_frame :
    (growSlabList s id reallocOk).1.live = s.live ∧
      (growSlabList s id reallocOk).1.memCurrent = s.memCurrent ∧
      (growSlabList s id reallocOk).1.mover = s.mover := by
  obtain ⟨-, h⟩ | ⟨-, h⟩ | ⟨-, h⟩ := growSlabList_cases s id reallocOk <;> rw [h] <;>
    exact ⟨rfl, rfl, rfl⟩

end

theorem Owned.growSlabList (h : Owned cfg s hole) (id : ℕ) (reallocOk : Bool) :
    Owned cfg (growSlabList s id reallocOk).1 hole :=
  h.congr (fun i => pages_congr (growSlabList_slabs s id reallocOk i)
    (growSlabList_slabList s id reallocOk i)) (growSlabList_frame s id reallocOk).1
    (growSlabList_frame s id reallocOk).2.1

theorem takePage_none_view (h : takePage cfg s id lib = (s', none)) : s'.view = s.view := by
  unfold takePage getPageFromGlobalPool at h
  by_cases hp : (s.slabclass globalPagePool).slabs < 1
  · simp only [hp, if_true, memoryAllocate] at h
    by_cases hb : cfg.memBase = false
    · rw [if_pos hb] at h
      cases hm : lib.malloc with
      | none => simp only [hm, Prod.mk.injEq, and_true] at h; rw [← h]; rfl
      | some ptr => simp [hm] at h
    · rw [if_neg hb] at h
      split_ifs at h
      · rw [← (Prod.mk.inj h).1]
      · cases (Prod.mk.inj h).2
      · cases (Prod.mk.inj h).2
  · simp [hp] at h

theorem takePage_some_cases (h : (takePage cfg s id lib).2 = some ptr) :
    (0 < (s.slabclass globalPagePool).slabs ∧ (getPageFromGlobalPool s).2 = some ptr ∧
        takePage cfg s id lib = getPageFromGlobalPool s) ∨
      ((s.slabclass globalPagePool).slabs = 0 ∧
        takePage cfg s id lib = memoryAllocate cfg s (newslabLen cfg id) lib) := by
  by_cases hp : (s.slabclass globalPagePool).slabs < 1
  · refine .inr ⟨by omega, ?_⟩
    simp only [takePage, getPageFromGlobalPool, hp, if_true]
  · refine .inl ⟨by omega, ?_, ?_⟩
    · simpa [takePage, getPageFromGlobalPool, hp] using h
    · simp only [takePage, getPageFromGlobalPool, hp, if_false]

theorem Owned.takePage (h : Owned cfg s none) (hf : lib.Fresh s)
    (hg : (takePage cfg s id lib).2 = some ptr) :
    Owned cfg (takePage cfg s id lib).1 (some ptr) := by
  obtain ⟨-, hp, he⟩ | ⟨-, he⟩ := takePage_some_cases hg
  · rw [he]
    exact h.getPageFromGlobalPool hp
  · rw [he] at hg ⊢
    exact h.memoryAllocate (newslabLen_pos cfg id) hf hg

theorem memoryAllocate_frame (cfg : Config) (s : SlabState) (size : ℕ) (lib : LibC) :
    (memoryAllocate cfg s size lib).1.slabclass = s.slabclass ∧
      (memoryAllocate cfg s size lib).1.mover = s.mover := by
  unfold memoryAllocate
  by_cases hb : cfg.memBase = false
  · rw [if_pos hb]
    cases lib.malloc <;> exact ⟨rfl, rfl⟩
  · rw [if_neg hb]
    split_ifs <;> exact ⟨rfl, rfl⟩

theorem getPageFromGlobalPool_mover (s : SlabState) :
    (getPageFromGlobalPool s).1.mover = s.mover := by
  simp only [getPageFromGlobalPool]
  split_ifs <;> rfl

theorem keepsFirst_getPageFromGlobalPool (s : SlabState)
    (hi : id = globalPagePool → (s.slabclass globalPagePool).slabs ≠ 1) :
    KeepsFirst s (getPageFromGlobalPool s).1 id := by
  simp only [getPageFromGlobalPool]
  split_ifs with hp
  · exact .of_eq rfl rfl
  obtain rfl | hn := eq_or_ne id globalPagePool
  · intro hpo
    have ho := hi rfl
    simp only [setClass_self, SlabClass.pop, and_true]
    omega
  · exact .of_eq (by rw [setClass_of_ne s _ hn]) (by rw [setClass_of_ne s _ hn])

theorem keepsFirst_append (s : SlabState) (id i : ℕ) (ptr : Page) :
    KeepsFirst s (s.setClass id ((s.slabclass id).append ptr)) i := by
  obtain rfl | hi := eq_or_ne i id
  · intro hp
    simp only [setClass_self, SlabClass.append]
    exact ⟨by omega, Function.update_of_ne (by omega) _ _⟩
  · exact .of_eq (by rw [setClass_of_ne s _ hi]) (by rw [setClass_of_ne s _ hi])

theorem takePage_mover (h : (takePage cfg s id lib).2 = some ptr) :
    (takePage cfg s id lib).1.mover = s.mover := by
  obtain ⟨-, -, he⟩ | ⟨-, he⟩ := takePage_some_cases h <;> rw [he]
  · exact getPageFromGlobalPool_mover s
  · exact (memoryAllocate_frame cfg s _ lib).2

theorem keepsFirst_takePage {id i : ℕ} (h : (takePage cfg s id lib).2 = some ptr)
    (hi : i = globalPagePool → (s.slabclass globalPagePool).slabs ≠ 1) :
    KeepsFirst s (takePage cfg s id lib).1 i := by
  obtain ⟨-, -, he⟩ | ⟨-, he⟩ := takePage_some_cases h <;> rw [he]
  · exact keepsFirst_getPageFromGlobalPool s hi
  · have hc := (memoryAllocate_frame cfg s (newslabLen cfg id) lib).1
    exact .of_eq (by rw [hc]) (by rw [hc])

/-- What `do_slabs_newslab` does to the pages: nothing, or only a larger array, or
it takes a page and appends it. -/
theorem doSlabsNewslab_cases (cfg : Config) (s : SlabState) (id : ℕ) (lib : LibC) :
    let r := doSlabsNewslab cfg s id lib
    let g := growSlabList s id lib.reallocOk
    let t := takePage cfg g.1 id lib
    (r.2 = none ∧ (r.1.view = s.view ∨ r.1.view = g.1.view)) ∨
      (∃ ptr, r.2 = some ptr ∧ ¬MemLimitHit cfg s id ∧ g.2 = true ∧ t.2 = some ptr ∧
        r.1.view = (t.1.setClass id ((t.1.slabclass id).append ptr)).view) := by
  intro r g t
  have hr : r = doSlabsNewslab cfg s id lib := rfl
  by_cases hl : MemLimitHit cfg s id
  · rw [doSlabsNewslab, if_pos hl] at hr
    exact .inl ⟨by rw [hr], .inl (by rw [hr]; rfl)⟩
  rw [doSlabsNewslab, if_neg hl] at hr
  rcases hg : growSlabList s id lib.reallocOk with ⟨s1, grown⟩
  have hg' : g = (s1, grown) := hg
  cases grown with
  | false =>
    rw [hg] at hr
    exact .inl ⟨by rw [hr], .inr (by rw [hr, hg'])⟩
  | true =>
    rcases ht : takePage cfg s1 id lib with ⟨s2, page⟩
    have ht' : t = (s2, page) := by simp only [t, hg', ht]
    simp only [hg, ht] at hr
    cases page with
    | none => exact .inl ⟨by rw [hr], .inr (by rw [hr, hg']; exact takePage_none_view ht)⟩
    | some ptr =>
      refine .inr ⟨ptr, by rw [hr], hl, by rw [hg'], by rw [ht'], ?_⟩
      rw [hr, ht']
      exact view_append_congr (view_splitSlabPageIntoFreelist cfg s2 ptr id) id ptr

theorem Owned.doSlabsNewslab (h : Owned cfg s none) (hf : lib.Fresh s)
    (hi : id ≤ cfg.powerLargest) : Owned cfg (doSlabsNewslab cfg s id lib).1 none := by
  have hg := h.growSlabList id lib.reallocOk
  obtain ⟨-, hv | hv⟩ | ⟨ptr, -, -, -, ht, hv⟩ := doSlabsNewslab_cases cfg s id lib
  · exact h.of_view hv
  · exact hg.of_view hv
  have hf' : lib.Fresh (Slabs.growSlabList s id lib.reallocOk).1 := by
    unfold LibC.Fresh
    rw [(growSlabList_frame s id lib.reallocOk).1]
    exact hf
  exact ((hg.takePage hf' ht).append hi).of_view hv

theorem doSlabsNewslab_mover (cfg : Config) (s : SlabState) (id : ℕ) (lib : LibC) :
    (doSlabsNewslab cfg s id lib).1.mover = s.mover := by
  have hg := (growSlabList_frame s id lib.reallocOk).2.2
  obtain ⟨-, hv | hv⟩ | ⟨ptr, -, -, -, ht, hv⟩ := doSlabsNewslab_cases cfg s id lib
  · exact mover_eq_of_view hv
  · exact (mover_eq_of_view hv).trans hg
  · exact (mover_eq_of_view hv).trans ((takePage_mover ht).trans hg)

/-- The step asks for a page of class `id` and is not refused before it looks in the
pool. -/
def RequestsPage (cfg : Config) (s : SlabState) (id : ℕ) (lib : LibC) : Prop :=
  ¬MemLimitHit cfg s id ∧
    ((s.slabclass id).slabs ≠ (s.slabclass id).listSize ∨ lib.reallocOk = true)

theorem growSlabList_true_iff (s : SlabState) (id : ℕ) (reallocOk : Bool) :
    (growSlabList s id reallocOk).2 = true ↔
      (s.slabclass id).slabs ≠ (s.slabclass id).listSize ∨ reallocOk = true := by
  simp only [growSlabList]
  split_ifs <;> simp_all

theorem keepsFirst_doSlabsNewslab {id i : ℕ} (hi : i = globalPagePool → RequestsPage cfg s id lib →
      (s.slabclass globalPagePool).slabs ≠ 1) :
    KeepsFirst s (doSlabsNewslab cfg s id lib).1 i := by
  have hg : KeepsFirst s (growSlabList s id lib.reallocOk).1 i :=
    .of_eq (growSlabList_slabs s id _ i) (growSlabList_slabList s id _ i)
  rcases doSlabsNewslab_cases cfg s id lib with
    ⟨-, hv | hv⟩ | ⟨ptr, -, hl, ho, ht, hv⟩
  · exact .of_view hv i
  · exact hg.trans (.of_view hv i)
  have hr : RequestsPage cfg s id lib := ⟨hl, (growSlabList_true_iff s id _).mp ho⟩
  have hta := keepsFirst_takePage (i := i) ht (by simpa using fun h => hi h hr)
  exact (hg.trans hta).trans ((keepsFirst_append _ id i ptr).trans (.of_view hv i))

/-! ## Releasing pages -/

theorem getPageFromGlobalPool_none (h : getPageFromGlobalPool s = (s', none)) : s' = s := by
  simp only [getPageFromGlobalPool] at h
  split_ifs at h
  · exact (Prod.mk.inj h).1.symm
  · cases (Prod.mk.inj h).2

/-- One iteration of the loop of `memory_release`: it stops, or frees the last page
of the pool and goes on. -/
theorem releaseLoop_succ_cases (cfg : Config) (n : ℕ) (s : SlabState) :
    releaseLoop cfg (n + 1) s = (s, []) ∨
      (s.memLimit < s.memMalloced ∧ ∃ s1 ptr, getPageFromGlobalPool s = (s1, some ptr) ∧
        let r := releaseLoop cfg n (freePage cfg s1 ptr)
        releaseLoop cfg (n + 1) s = (r.1, ptr :: r.2)) := by
  by_cases hl : s.memMalloced > s.memLimit
  · rcases hg : getPageFromGlobalPool s with ⟨s1, page⟩
    cases page with
    | none =>
      refine .inl ?_
      obtain rfl := getPageFromGlobalPool_none hg
      simp [releaseLoop, hl, hg]
    | some ptr => exact .inr ⟨hl, s1, ptr, rfl, by simp [releaseLoop, hl, hg]⟩
  · exact .inl (by simp [releaseLoop, hl])

theorem Owned.releaseLoop (h : Owned cfg s none) (n : ℕ) :
    Owned cfg (releaseLoop cfg n s).1 none := by
  induction n generalizing s with
  | zero => exact h
  | succ n ih =>
    obtain he | ⟨-, s1, ptr, hg, he⟩ := releaseLoop_succ_cases cfg n s
    · rw [he]
      exact h
    have hp : (Slabs.getPageFromGlobalPool s).2 = some ptr := by rw [hg]
    have ho := h.getPageFromGlobalPool hp
    rw [hg] at ho
    rw [he]
    exact ih ho.freePage

theorem releaseLoop_freed (cfg : Config) (n : ℕ) (s : SlabState) :
    (releaseLoop cfg n s).1.live ⊆ s.live ∧
      ∀ page ∈ (releaseLoop cfg n s).2, page ∉ (releaseLoop cfg n s).1.live := by
  induction n generalizing s with
  | zero => simp [releaseLoop]
  | succ n ih =>
    obtain he | ⟨-, s1, ptr, hg, he⟩ := releaseLoop_succ_cases cfg n s
    · simp [he]
    obtain ⟨hs, hf⟩ := ih (freePage cfg s1 ptr)
    have hl : s1.live = s.live := by
      have := congrArg (fun r => r.1.live) hg
      simp only [getPageFromGlobalPool] at this
      split_ifs at this <;> exact this.symm
    rw [he]
    refine ⟨hs.trans (by simpa [freePage, hl] using Finset.erase_subset ptr s.live), ?_⟩
    intro page hp
    obtain rfl | hp := List.mem_cons.mp hp
    · exact fun hm => by simpa [freePage] using hs hm
    · exact hf page hp

theorem releaseLoop_mover (cfg : Config) (n : ℕ) (s : SlabState) :
    (releaseLoop cfg n s).1.mover = s.mover := by
  induction n generalizing s with
  | zero => rfl
  | succ n ih =>
    obtain he | ⟨-, s1, ptr, hg, he⟩ := releaseLoop_succ_cases cfg n s
    · rw [he]
    have hm := getPageFromGlobalPool_mover s
    rw [hg] at hm
    rw [he]
    exact (ih _).trans hm

theorem keepsFirst_releaseLoop (n : ℕ) (hi : id = globalPagePool → s.memMalloced ≤
      s.memLimit + ((s.slabclass globalPagePool).slabs - 1) * cfg.slabPageSize) :
    KeepsFirst s (releaseLoop cfg n s).1 id := by
  induction n generalizing s with
  | zero => exact .of_eq rfl rfl
  | succ n ih =>
    obtain he | ⟨hl, s1, ptr, hg, he⟩ := releaseLoop_succ_cases cfg n s
    · rw [he]
      exact .of_eq rfl rfl
    have hs1 : s1 = s.setClass globalPagePool (s.slabclass globalPagePool).pop := by
      simp only [getPageFromGlobalPool] at hg
      split_ifs at hg
      · cases (Prod.mk.inj hg).2
      · exact (Prod.mk.inj hg).1.symm
    have hm : id = globalPagePool → (s.slabclass globalPagePool).slabs ≠ 1 := by
      intro hp ho
      have hle := hi hp
      rw [ho] at hle
      omega
    have hf := keepsFirst_getPageFromGlobalPool s hm
    rw [hg] at hf
    rw [he]
    have hfr : KeepsFirst s1 (freePage cfg s1 ptr) id := .of_eq rfl rfl
    refine (hf.trans hfr).trans (ih fun hp => ?_)
    have hle := hi hp
    have hpo : ((s.slabclass globalPagePool).slabs - 1) * cfg.slabPageSize ≤
        ((s.slabclass globalPagePool).slabs - 1 - 1) * cfg.slabPageSize + cfg.slabPageSize := by
      rw [← Nat.succ_mul]
      exact Nat.mul_le_mul_right _ (by omega)
    simp only [hs1, freePage, SlabState.setClass, Function.update_self, SlabClass.pop]
    omega

theorem memoryRelease_cases (cfg : Config) (s : SlabState) :
    memoryRelease cfg s = (s, []) ∨
      (cfg.memBase = false ∧ cfg.slabReassign = true ∧
        memoryRelease cfg s = releaseLoop cfg (s.slabclass globalPagePool).slabs s) := by
  unfold memoryRelease
  split_ifs with hb hr
  · exact .inl rfl
  · exact .inl rfl
  · exact .inr ⟨by simpa using hb, by simpa using hr, rfl⟩

theorem Owned.memoryRelease (h : Owned cfg s none) : Owned cfg (memoryRelease cfg s).1 none := by
  obtain he | ⟨-, -, he⟩ := memoryRelease_cases cfg s <;> rw [he]
  · exact h
  · exact h.releaseLoop _

theorem memoryRelease_freed (cfg : Config) (s : SlabState) :
    ∀ page ∈ (memoryRelease cfg s).2, page ∉ (memoryRelease cfg s).1.live := by
  obtain he | ⟨-, -, he⟩ := memoryRelease_cases cfg s <;> rw [he]
  · simp
  · exact (releaseLoop_freed cfg _ s).2

theorem memoryRelease_mover (cfg : Config) (s : SlabState) :
    (memoryRelease cfg s).1.mover = s.mover := by
  obtain he | ⟨-, -, he⟩ := memoryRelease_cases cfg s <;> rw [he]
  exact releaseLoop_mover cfg _ s

theorem keepsFirst_memoryRelease
    (hi : id = globalPagePool → cfg.memBase = false → cfg.slabReassign = true →
      s.memMalloced ≤
        s.memLimit + ((s.slabclass globalPagePool).slabs - 1) * cfg.slabPageSize) :
    KeepsFirst s (memoryRelease cfg s).1 id := by
  obtain he | ⟨hb, hr, he⟩ := memoryRelease_cases cfg s <;> rw [he]
  · exact .of_eq rfl rfl
  · exact keepsFirst_releaseLoop _ fun hp => hi hp hb hr

end Memcached.Slabs
