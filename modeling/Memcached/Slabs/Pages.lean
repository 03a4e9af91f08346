import Mathlib.Algebra.BigOperators.Group.Finset.Basic
import Mathlib.Data.List.NodupEquivFin
import Memcached.Slabs.Model

/-!
# Pages in the slab classes' arrays

The page list of a class is the used part of its array. `pageCount` counts the
occurrences of a page over all classes; every operation of `slabs.c` is described
by what it does to the page lists: most do nothing, a new page is appended, a pool
page is taken off the end, and the mover drops the first page of its source.
-/

namespace Memcached.Slabs

@[simp] theorem setClass_self (s : SlabState) (id : ℕ) (p : SlabClass) :
    (s.setClass id p).slabclass id = p := by
  simp [SlabState.setClass]

theorem setClass_of_ne (s : SlabState) {id id' : ℕ} (p : SlabClass) (h : id' ≠ id) :
    (s.setClass id p).slabclass id' = s.slabclass id' := by
  simp [SlabState.setClass, h]

/-! ## Page lists -/

/-- `slab_list[0..slabs-1]` -/
def SlabClass.pages (p : SlabClass) : List Page := (List.range p.slabs).map p.slabList

theorem length_pages (p : SlabClass) : p.pages.length = p.slabs := by
  simp [SlabClass.pages]

theorem pages_congr {p q : SlabClass} (hs : q.slabs = p.slabs)
    (hl : q.slabList = p.slabList) : q.pages = p.pages := by
  simp [SlabClass.pages, hs, hl]

/-- A new page is the last one of its class. -/
theorem pages_append (p : SlabClass) (ptr : Page) : (p.append ptr).pages = p.pages ++ [ptr] := by
  simp only [SlabClass.pages, SlabClass.append, List.range_succ, List.map_append, List.map_cons,
    List.map_nil, Function.update_self, List.append_cancel_right_eq]
  refine List.map_congr_left fun x hx => Function.update_of_ne ?_ _ _
  exact (List.mem_range.mp hx).ne

theorem pages_pop (p : SlabClass) (h : 0 < p.slabs) :
    p.pages = p.pop.pages ++ [p.slabList (p.slabs - 1)] := by
  obtain ⟨n, hn⟩ : ∃ n, p.slabs = n + 1 := ⟨p.slabs - 1, by omega⟩
  simp [SlabClass.pages, SlabClass.pop, hn, List.range_succ]

/-- The first page leaves, and the others move up. -/
theorem pages_shift (p : SlabClass) (h : 0 < p.slabs) :
    p.pages = p.slabList 0 :: p.shift.pages := by
  obtain ⟨n, hn⟩ : ∃ n, p.slabs = n + 1 := ⟨p.slabs - 1, by omega⟩
  have ht : (List.range n).map (fun x => p.slabList (x + 1)) =
      (List.range n).map (fun x => p.slabList (if x < n then x + 1 else x)) := by
    refine List.map_congr_left fun x hx => ?_
    rw [if_pos (List.mem_range.mp hx)]
  simp [SlabClass.pages, SlabClass.shift, hn, List.range_succ_eq_map, ← ht, Function.comp_def]

/-! ## Occurrences over all classes -/

def pageCount (cfg : Config) (s : SlabState) (page : Page) : ℕ :=
  ∑ id ∈ Finset.range (cfg.powerLargest + 1), (s.slabclass id).pages.count page

/-- Page `page` is entry `x.2` of class `x.1`. -/
def Holds (cfg : Config) (s : SlabState) (page : Page) (x : ℕ × ℕ) : Prop :=
  x.1 ≤ cfg.powerLargest ∧ x.2 < (s.slabclass x.1).slabs ∧
    (s.slabclass x.1).slabList x.2 = page

theorem sum_setClass (cfg : Config) (s : SlabState) {id : ℕ} (p : SlabClass)
    (hid : id ≤ cfg.powerLargest) (f : SlabClass → ℕ) :
    ∑ i ∈ Finset.range (cfg.powerLargest + 1), f ((s.setClass id p).slabclass i) +
        f (s.slabclass id) =
      ∑ i ∈ Finset.range (cfg.powerLargest + 1), f (s.slabclass i) + f p := by
  have hm : id ∈ Finset.range (cfg.powerLargest + 1) := Finset.mem_range.mpr (by omega)
  have hr : ∑ i ∈ (Finset.range (cfg.powerLargest + 1)).erase id,
      f ((s.setClass id p).slabclass i) =
      ∑ i ∈ (Finset.range (cfg.powerLargest + 1)).erase id, f (s.slabclass i) := by
    refine Finset.sum_congr rfl fun i hi => ?_
    rw [setClass_of_ne s p (Finset.ne_of_mem_erase hi)]
  rw [← Finset.add_sum_erase _ _ hm, ← Finset.add_sum_erase _ (fun i => _) hm, hr,
    setClass_self]
  omega

theorem pageCount_setClass (cfg : Config) (s : SlabState) {id : ℕ} (p : SlabClass)
    (hi : id ≤ cfg.powerLargest) (page : Page) :
    pageCount cfg (s.setClass id p) page + (s.slabclass id).pages.count page =
      pageCount cfg s page + p.pages.count page :=
  sum_setClass cfg s p hi (·.pages.count page)

variable {page : Page} {p : SlabClass}

theorem count_pages_eq_zero : p.pages.count page = 0 ↔ ∀ i < p.slabs, p.slabList i ≠ page := by
  simp [SlabClass.pages, List.count_eq_zero]

theorem slabList_inj_of_count_le_one (h : p.pages.count page ≤ 1)
    {i j : ℕ} (hi : i < p.slabs) (hj : j < p.slabs) (hp : p.slabList i = page)
    (hpj : p.slabList j = page) : i = j := by
  by_contra hn
  wlog hl : i < j generalizing i j
  · exact this hj hi hpj hp (Ne.symm hn) (by omega)
  have hd : p.pages.Duplicate page := List.duplicate_iff_exists_distinct_get.mpr
    ⟨⟨i, by rwa [length_pages]⟩, ⟨j, by rwa [length_pages]⟩, hl,
      by simp [SlabClass.pages, hp], by simp [SlabClass.pages, hpj]⟩
  have := List.duplicate_iff_two_le_count.mp hd
  omega

/-- A page that is counted once is at one place. -/
theorem exists_unique_holds {cfg : Config} {s : SlabState}
    (h : pageCount cfg s page = 1) : ∃! x, Holds cfg s page x := by
  obtain ⟨id, hid, hc⟩ : ∃ id ∈ Finset.range (cfg.powerLargest + 1),
      (s.slabclass id).pages.count page ≠ 0 := by
    by_contra hn
    push Not at hn
    rw [pageCount, Finset.sum_eq_zero hn] at h
    omega
  -- all occurrences are in this class, since the total is one
  have hs : (s.slabclass id).pages.count page +
      ∑ i ∈ (Finset.range (cfg.powerLargest + 1)).erase id,
        (s.slabclass i).pages.count page = 1 := by
    rw [Finset.add_sum_erase _ (fun i => (s.slabclass i).pages.count page) hid]
    exact h
  have ho : ∀ i, i ≤ cfg.powerLargest → i ≠ id → (s.slabclass i).pages.count page = 0 := by
    intro i hi hne
    have hz : ∑ i ∈ (Finset.range (cfg.powerLargest + 1)).erase id,
        (s.slabclass i).pages.count page = 0 := by omega
    rw [Finset.sum_eq_zero_iff] at hz
    exact hz i (Finset.mem_erase.mpr ⟨hne, Finset.mem_range.mpr (by omega)⟩)
  rw [Ne, count_pages_eq_zero] at hc
  push Not at hc
  obtain ⟨i, hi, hp⟩ := hc
  refine ⟨(id, i), ⟨by simp at hid; omega, hi, hp⟩, ?_⟩
  rintro ⟨id', j⟩ ⟨hi', hj, hp'⟩
  obtain rfl : id' = id := by
    by_contra hne
    exact count_pages_eq_zero.mp (ho id' hi' hne) j hj hp'
  rw [slabList_inj_of_count_le_one (by omega) hi hj hp hp']

theorem not_holds {cfg : Config} {s : SlabState} (h : pageCount cfg s page = 0)
    (x : ℕ × ℕ) : ¬ Holds cfg s page x := by
  rintro ⟨hid, hi, hp⟩
  rw [pageCount, Finset.sum_eq_zero_iff] at h
  have hz := h x.1 (Finset.mem_range.mpr (by omega))
  exact count_pages_eq_zero.mp hz x.2 hi hp

/-! ## Operations that leave the pages alone -/

/-- The part of the state that says where the pages are: the classes' arrays, the
source of new pages and the mover's progress. -/
structure PageView where
  slabs : ℕ → ℕ
  slabList : ℕ → ℕ → Page
  listSize : ℕ → ℕ
  memCurrent : ℕ
  live : Finset Page
  sClsid : ℕ
  dClsid : ℕ
  slabStart : Option Page
  done : ℕ
  signal : ℕ

def SlabState.view (s : SlabState) : PageView where
  slabs := fun id => (s.slabclass id).slabs
  slabList := fun id => (s.slabclass id).slabList
  listSize := fun id => (s.slabclass id).listSize
  memCurrent := s.memCurrent
  live := s.live
  sClsid := s.rebal.sClsid
  dClsid := s.rebal.dClsid
  slabStart := s.rebal.slabStart
  done := s.rebal.done
  signal := s.slabRebalanceSignal

theorem view_setClass (s : SlabState) (id : ℕ)
    (hs : p.slabs = (s.slabclass id).slabs) (hl : p.slabList = (s.slabclass id).slabList)
    (hsi : p.listSize = (s.slabclass id).listSize) : (s.setClass id p).view = s.view := by
  simp only [SlabState.view, SlabState.setClass, PageView.mk.injEq, and_true]
  refine ⟨?_, ?_, ?_⟩ <;> funext i <;> rcases eq_or_ne i id with rfl | hi <;>
    simp_all

theorem view_append_congr {s s' : SlabState} (h : s'.view = s.view) (id : ℕ) (ptr : Page) :
    (s'.setClass id ((s'.slabclass id).append ptr)).view =
      (s.setClass id ((s.slabclass id).append ptr)).view := by
  simp only [SlabState.view, PageView.mk.injEq] at h
  obtain ⟨hs, hl, hsi, hr⟩ := h
  have hs' := fun i => congrFun hs i
  have hl' := fun i => congrFun hl i
  have hsi' := fun i => congrFun hsi i
  simp only [SlabState.view, PageView.mk.injEq]
  refine ⟨?_, ?_, ?_, hr⟩ <;> funext i <;> rcases eq_or_ne i id with rfl | hi <;>
    simp_all [SlabState.setClass, SlabClass.append]

@[simp] theorem view_pushSlot (s : SlabState) (it : Chunk) (id : ℕ) :
    (pushSlot s it id).view = s.view :=
  view_setClass s id rfl rfl rfl

@[simp] theorem view_doSlabsFree (cfg : Config) (s : SlabState) (it : Chunk) (id : ℕ) :
    (doSlabsFree cfg s it id).view = s.view := by
  unfold doSlabsFree
  split_ifs
  · rfl
  · exact view_pushSlot s it id

@[simp] theorem view_doSlabsFreeChunked (s : SlabState) (parts : List (Chunk × ℕ)) :
    (doSlabsFreeChunked s parts).view = s.view := by
  unfold doSlabsFreeChunked
  induction parts generalizing s with
  | nil => rfl
  | cons part parts ih => rw [List.foldl_cons, ih, view_pushSlot]

@[simp] theorem view_splitSlabPageIntoFreelist (cfg : Config) (s : SlabState) (ptr : Page)
    (id : ℕ) : (splitSlabPageIntoFreelist cfg s ptr id).view = s.view := by
  unfold splitSlabPageIntoFreelist
  induction List.range (cfg.perslab id) generalizing s with
  | nil => rfl
  | cons x xs ih => rw [List.foldl_cons, ih, view_doSlabsFree]

@[simp] theorem view_slabRebalanceCutFree (s : SlabState) (id : ℕ) (it : Chunk) :
    (slabRebalanceCutFree s id it).view = s.view :=
  view_setClass s id rfl rfl rfl

@[simp] theorem view_markCompleted (s : SlabState) (it : Chunk) :
    (markCompleted s it).view = s.view := rfl

@[simp] theorem view_markBusy (s : SlabState) : (markBusy s).view = s.view := rfl

/-- `do_slabs_alloc` enters `do_slabs_newslab`. -/
def EntersNewslab (cfg : Config) (s : SlabState) (id : ℕ) (noNewpage : Bool) : Prop :=
  ¬(id < powerSmallest ∨ id > cfg.powerLargest) ∧ (s.slabclass id).slCurr = 0 ∧ noNewpage = false

instance (cfg : Config) (s : SlabState) (id : ℕ) (noNewpage : Bool) :
    Decidable (EntersNewslab cfg s id noNewpage) :=
  inferInstanceAs (Decidable (_ ∧ _))

theorem doSlabsAlloc_pages (cfg : Config) (s : SlabState) (id : ℕ) (noNewpage : Bool) (lib : LibC) :
    let r := doSlabsAlloc cfg s id noNewpage lib
    let n := if EntersNewslab cfg s id noNewpage then doSlabsNewslab cfg s id lib else (s, none)
    r.1.view = n.1.view ∧ r.2.2 = n.2 := by
  by_cases hi : id < powerSmallest ∨ id > cfg.powerLargest
  · simp [doSlabsAlloc, EntersNewslab, hi]
  have hn : (if (s.slabclass id).slCurr = 0 ∧ noNewpage = false then doSlabsNewslab cfg s id lib
      else (s, none)) =
      if EntersNewslab cfg s id noNewpage then doSlabsNewslab cfg s id lib else (s, none) := by
    simp [EntersNewslab, hi]
  simp only [doSlabsAlloc, hi, if_false, hn]
  generalize (if EntersNewslab cfg s id noNewpage then doSlabsNewslab cfg s id lib
    else (s, none)) = n
  split
  · split_ifs
    · exact ⟨view_setClass _ id rfl rfl rfl, rfl⟩
    · exact ⟨rfl, rfl⟩
  · exact ⟨rfl, rfl⟩

@[simp] theorem view_doSlabsAlloc_noNewpage (cfg : Config) (s : SlabState) (id : ℕ) (lib : LibC) :
    (doSlabsAlloc cfg s id true lib).1.view = s.view := by
  simpa [EntersNewslab] using (doSlabsAlloc_pages cfg s id true lib).1

@[simp] theorem view_slabRebalanceAlloc (cfg : Config) (id : ℕ) (slabStart : Option Page)
    (lib : LibC) (n : ℕ) (s : SlabState) :
    (slabRebalanceAlloc cfg id slabStart lib n s).1.view = s.view := by
  induction n generalizing s with
  | zero => rfl
  | succ n ih =>
    have hv := view_doSlabsAlloc_noNewpage cfg s id lib
    unfold slabRebalanceAlloc
    split
    · rename_i s' _ ha
      simpa [ha] using hv
    rename_i s' it _ ha
    rw [ha] at hv
    split_ifs
    · exact (ih _).trans hv
    · exact hv

theorem view_slabRebalanceEvict (s : SlabState) (it : Chunk) (found : InUse) :
    (slabRebalanceEvict s it found).view = s.view := by
  cases found <;> simp [slabRebalanceEvict]

theorem view_slabRebalanceMoveChunk (cfg : Config) (s : SlabState) (it : Chunk) (found : InUse)
    (lib : LibC) : (slabRebalanceMoveChunk cfg s it found lib).view = s.view := by
  have hs : (slabRebalanceSave cfg s it found lib).view = s.view := by
    have hv := view_slabRebalanceAlloc cfg s.rebal.sClsid s.rebal.slabStart lib
      (cfg.perslab s.rebal.sClsid) s
    unfold slabRebalanceSave
    split
    · rename_i s' ha
      rw [view_slabRebalanceEvict]
      simpa [ha] using hv
    · rename_i s' it' ha
      rw [view_markCompleted]
      simpa [ha] using hv
  unfold slabRebalanceMoveChunk
  split
  · rfl
  · simp
  · split <;> first | exact hs | exact view_slabRebalanceEvict s it _ | rfl

end Memcached.Slabs
