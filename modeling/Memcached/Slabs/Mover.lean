import Memcached.Slabs.Ownership

/-!
# Page moves interleaved with allocation

`system` runs the critical sections of `slabs.c` in any order. A move out of the page pool
takes two of them, and in between a worker may take the very page that is being moved:
nothing marks it as taken. `LeavesMovedPage` is the condition that no step does so.

Results:
* `step_owned`, `step_mover`: every step keeps ownership and the page that is moved
* `pages_owned_once`: a page is at one place of one class
* `pool_page_handed_out_while_moved`: unless a worker takes the page that is moved
-/

namespace Memcached.Slabs

open Lib

variable {cfg : Config} {s s' : SlabState}

/-! ## The system -/

/-- The allocator after `slabs_init`, and its critical sections. -/
def system (cfg : Config) : System SlabState Act PageEvents where
  init := fun s => ∃ limit memCurrent, s = slabsInit limit memCurrent
  step := step cfg

/-- The class for which a step enters `do_slabs_newslab`. -/
def newslabOf (cfg : Config) (s : SlabState) : Act → Option (ℕ × LibC)
  | .newslab id lib => some (id, lib)
  | .alloc id noNewpage lib => if EntersNewslab cfg s id noNewpage then some (id, lib) else none
  | _ => none

/-- A step that may run while a page of the pool is being moved: `do_slabs_newslab`
does not take a page when the moved one is the only page left in the pool, and
a new memory limit can be met without freeing it. -/
def LeavesMovedPage (cfg : Config) (s : SlabState) (a : Act) : Prop :=
  (∀ id lib, newslabOf cfg s a = some (id, lib) → RequestsPage cfg s id lib →
    (s.slabclass globalPagePool).slabs ≠ 1) ∧
  ∀ newMemLimit, a = .adjustMemLimit newMemLimit → cfg.memBase = false →
    cfg.slabReassign = true → s.memMalloced ≤
      newMemLimit + ((s.slabclass globalPagePool).slabs - 1) * cfg.slabPageSize

/-- The condition on the steps of a run: while a page of the pool is being moved,
they leave it there. -/
def MoveSafe (cfg : Config) (s : SlabState) (a : Act) : Prop :=
  s.rebal.slabStart ≠ none → s.rebal.sClsid = globalPagePool → LeavesMovedPage cfg s a

/-! ## The mover's own steps -/

theorem Mover.idle (h : Mover cfg s) (hs : s.slabRebalanceSignal ≠ 2) :
    s.rebal.slabStart = none := by
  by_contra hn
  exact hs (h.started.mpr hn)

theorem mover_of_idle (hs : s.rebal.slabStart = none) (hd : s.rebal.done = 0)
    (hsi : s.slabRebalanceSignal ≠ 2) : Mover cfg s where
  classes := by simp [hs]
  first := by simp [hs]
  started := by simp [hs, hsi]
  done := by simp [hd]

theorem Mover.done_of_idle (h : Mover cfg s) (hs : s.rebal.slabStart = none) :
    s.rebal.done = 0 := by
  by_contra hne
  exact h.done hne hs

theorem Mover.doSlabsReassign (h : Mover cfg s) (src dst : ℕ) :
    Mover cfg (doSlabsReassign cfg s src dst) := by
  unfold Slabs.doSlabsReassign
  split_ifs with hs
  · exact h
  · exact h
  · exact h
  · exact h
  · have hi := h.idle (by omega)
    exact mover_of_idle hi (h.done_of_idle hi) (by simp)

theorem owned_doSlabsReassign (h : Owned cfg s none) (src dst : ℕ) :
    Owned cfg (doSlabsReassign cfg s src dst) none := by
  unfold doSlabsReassign
  split_ifs
  all_goals first | exact h | exact h.congr (fun _ => rfl) rfl rfl

theorem slabRebalanceStart_cases (cfg : Config) (s : SlabState) (lib : LibC) :
    let g := (growSlabList s s.rebal.dClsid lib.reallocOk).1
    slabRebalanceStart cfg s lib = { g with slabRebalanceSignal := 0 } ∨
      (s.rebal.sClsid ≤ cfg.powerLargest ∧ s.rebal.dClsid ≤ cfg.powerLargest ∧
        s.rebal.sClsid ≠ s.rebal.dClsid ∧ 2 ≤ (s.slabclass s.rebal.sClsid).slabs ∧
        (growSlabList s s.rebal.dClsid lib.reallocOk).2 = true ∧
        slabRebalanceStart cfg s lib = pickPage g) := by
  intro g
  simp only [slabRebalanceStart]
  split_ifs with hb
  · exact .inl rfl
  simp only [not_or] at hb
  obtain ⟨⟨hs, hd, hn⟩, hg, ht⟩ := hb
  rw [growSlabList_slabs] at ht
  exact .inr ⟨by omega, by omega, hn, by omega, by simpa using hg, rfl⟩

theorem owned_slabRebalanceStart (h : Owned cfg s none) (lib : LibC) :
    Owned cfg (slabRebalanceStart cfg s lib) none := by
  have hg := h.growSlabList s.rebal.dClsid lib.reallocOk
  rcases slabRebalanceStart_cases cfg s lib with he | ⟨-, -, -, -, -, he⟩ <;> rw [he]
  · exact hg.congr (fun _ => rfl) rfl rfl
  · exact hg.congr (fun _ => rfl) rfl rfl

theorem Mover.slabRebalanceStart (h : Mover cfg s) (hs : s.slabRebalanceSignal = 1)
    (lib : LibC) : Mover cfg (slabRebalanceStart cfg s lib) := by
  have hf := (growSlabList_frame s s.rebal.dClsid lib.reallocOk).2.2
  simp only [SlabState.mover, Prod.mk.injEq] at hf
  have hi := h.idle (by omega)
  rcases slabRebalanceStart_cases cfg s lib with he | ⟨hsr, hd, hn, hsl, -, he⟩ <;>
    rw [he]
  · exact mover_of_idle (by simpa [hf.2.2.1] using hi)
      (by simpa [hf.2.2.2.1] using h.done_of_idle hi) (by simp)
  refine ⟨fun _ => ?_, fun page hp => ?_, by simp [pickPage], by simp [pickPage]⟩
  · simpa [pickPage, hf.1, hf.2.1] using ⟨hsr, hd, hn⟩
  simp only [pickPage, Option.some.injEq, hf.1] at hp ⊢
  rw [growSlabList_slabs]
  exact ⟨by omega, hp⟩

theorem view_slabRebalanceLook (cfg : Config) (s : SlabState) (found : InUse) (lib : LibC) :
    (slabRebalanceLook cfg s found lib).view = s.view := by
  unfold slabRebalanceLook
  split
  · rfl
  split_ifs
  · rfl
  · exact view_slabRebalanceMoveChunk cfg s _ found lib

theorem slabRebalanceMove_view (cfg : Config) (s : SlabState) (found : InUse) (lib : LibC) :
    ∃ done, (slabRebalanceMove cfg s found lib).view = { s.view with done := done } := by
  rw [← view_slabRebalanceLook cfg s found lib]
  unfold slabRebalanceMove advanceSlabPos
  split_ifs
  · exact ⟨_, rfl⟩
  · exact ⟨_, rfl⟩
  · exact ⟨_, rfl⟩

theorem owned_slabRebalanceMove (h : Owned cfg s none) (found : InUse) (lib : LibC) :
    Owned cfg (slabRebalanceMove cfg s found lib) none := by
  obtain ⟨done, hv⟩ := slabRebalanceMove_view cfg s found lib
  exact h.congr
    (fun id => pages_congr (congrFun (congrArg PageView.slabs hv) id)
      (congrFun (congrArg PageView.slabList hv) id))
    (congrArg PageView.live hv) (congrArg PageView.memCurrent hv)

theorem Mover.slabRebalanceMove (h : Mover cfg s) (hsi : s.slabRebalanceSignal = 2)
    (found : InUse) (lib : LibC) : Mover cfg (slabRebalanceMove cfg s found lib) := by
  obtain ⟨done, hv⟩ := slabRebalanceMove_view cfg s found lib
  have hsr := congrArg PageView.sClsid hv
  have hd := congrArg PageView.dClsid hv
  have hs := congrArg PageView.slabStart hv
  have hsig := congrArg PageView.signal hv
  have hsl := congrFun (congrArg PageView.slabs hv) s.rebal.sClsid
  have hl := congrFun (congrArg PageView.slabList hv) s.rebal.sClsid
  simp only [SlabState.view] at hsr hd hs hsig hsl hl
  refine ⟨?_, ?_, ?_, ?_⟩
  · rw [hsr, hd, hs]
    exact h.classes
  · rw [hsr, hs, hsl, hl]
    exact h.first
  · rw [hsig, hs]
    exact h.started
  · rw [hs]
    exact fun _ => h.started.mp hsi

/-- The end of a move: the page goes from the front of its source to the end of its
destination, and the pool may be cut down to the memory limit. -/
theorem owned_slabRebalanceFinish (h : Owned cfg s none) (hm : Mover cfg s)
    (hd : s.rebal.done ≠ 0) : Owned cfg (slabRebalanceFinish cfg s).1 none := by
  obtain ⟨page, hp⟩ := Option.ne_none_iff_exists'.mp (hm.done hd)
  obtain ⟨hsr, hds, -⟩ := hm.classes (hm.done hd)
  obtain ⟨hpos, hf⟩ := hm.first page hp
  have hs := h.shift hsr hpos
  rw [hf] at hs
  have ha := hs.append hds
  simp only [slabRebalanceFinish, hp, Option.getD_some]
  split_ifs with hpo
  · exact (ha.of_view (view_splitSlabPageIntoFreelist cfg _ page _)).congr
      (fun _ => rfl) rfl rfl
  · refine Owned.congr (Owned.memoryRelease ?_) (fun _ => rfl) rfl rfl
    exact ha.congr (fun _ => rfl) rfl rfl

theorem mover_slabRebalanceFinish (cfg : Config) (s : SlabState) :
    Mover cfg (slabRebalanceFinish cfg s).1 := by
  exact mover_of_idle rfl rfl (by simp [slabRebalanceFinish])

/-! ## All steps -/

variable {ev : PageEvents}

theorem step_cases {a : Act} (h : step cfg s a = some (s', ev)) :
    (∃ id lib, newslabOf cfg s a = some (id, lib) ∧ lib.Fresh s ∧ powerSmallest ≤ id ∧
      id ≤ cfg.powerLargest ∧ s'.view = (doSlabsNewslab cfg s id lib).1.view ∧
      ev = { handed := (doSlabsNewslab cfg s id lib).2 }) ∨
    (s'.view = s.view ∧ ev = {}) ∨
    (∃ newMemLimit, a = .adjustMemLimit newMemLimit ∧
      s' = (doSlabsAdjustMemLimit cfg s newMemLimit).1 ∧
      ev = { released := (doSlabsAdjustMemLimit cfg s newMemLimit).2 }) ∨
    (∃ src dst, s' = doSlabsReassign cfg s src dst ∧ ev = {}) ∨
    (∃ lib, s.slabRebalanceSignal = 1 ∧ s' = slabRebalanceStart cfg s lib ∧ ev = {}) ∨
    (∃ found lib, s.slabRebalanceSignal = 2 ∧ s' = slabRebalanceMove cfg s found lib ∧ ev = {}) ∨
    (a = .rebalanceFinish ∧ s.rebal.done ≠ 0 ∧ s' = (slabRebalanceFinish cfg s).1) := by
  cases a with
  | newslab id lib =>
    obtain ⟨ho, h⟩ := System.guarded_eq_some h
    exact .inl ⟨id, lib, rfl, ho.1, ho.2.1, ho.2.2, by rw [h.1], h.2.symm⟩
  | alloc id noNewpage lib =>
    obtain ⟨ho, h⟩ := System.guarded_eq_some h
    obtain ⟨hv, hp⟩ := doSlabsAlloc_pages cfg s id noNewpage lib
    rw [h.1] at hv
    rw [← h.2, hp]
    split_ifs at hv hp ⊢ with he
    · exact .inl ⟨id, lib, by simp [newslabOf, he], ho, by have := he.1; omega,
        by have := he.1; omega, hv, rfl⟩
    · exact .inr (.inl ⟨hv, rfl⟩)
  | free it id =>
    cases h
    exact .inr (.inl ⟨view_doSlabsFree .., rfl⟩)
  | freeChunked parts =>
    cases h
    exact .inr (.inl ⟨view_doSlabsFreeChunked .., rfl⟩)
  | adjustMemLimit newMemLimit =>
    cases h
    exact .inr (.inr (.inl ⟨newMemLimit, rfl, rfl, rfl⟩))
  | reassign src dst =>
    cases h
    exact .inr (.inr (.inr (.inl ⟨src, dst, rfl, rfl⟩)))
  | rebalanceStart lib =>
    obtain ⟨ho, h⟩ := System.guarded_eq_some h
    exact .inr (.inr (.inr (.inr (.inl ⟨lib, ho, h.1.symm, h.2.symm⟩))))
  | rebalanceMove found lib =>
    obtain ⟨ho, h⟩ := System.guarded_eq_some h
    exact .inr (.inr (.inr (.inr (.inr (.inl ⟨found, lib, ho.1, h.1.symm, h.2.symm⟩)))))
  | rebalanceFinish =>
    obtain ⟨ho, h⟩ := System.guarded_eq_some h
    exact .inr (.inr (.inr (.inr (.inr (.inr ⟨rfl, ho, h.1.symm⟩)))))

theorem Owned.doSlabsAdjustMemLimit (h : Owned cfg s none) (newMemLimit : ℕ) :
    Owned cfg (doSlabsAdjustMemLimit cfg s newMemLimit).1 none := by
  unfold Slabs.doSlabsAdjustMemLimit
  split_ifs
  · exact h
  have hl : Owned cfg { s with memLimit := newMemLimit, memLimitReached := false } none :=
    h.congr (fun _ => rfl) rfl rfl
  exact hl.memoryRelease

theorem step_owned {a : Act} (h : Owned cfg s none) (hm : Mover cfg s)
    (hs : step cfg s a = some (s', ev)) : Owned cfg s' none := by
  rcases step_cases hs with ⟨id, lib, -, hf, -, hi, hv, -⟩ | ⟨hv, -⟩ |
    ⟨newMemLimit, -, rfl, -⟩ | ⟨src, dst, rfl, -⟩ | ⟨lib, -, rfl, -⟩ | ⟨found, lib, -, rfl, -⟩ |
    ⟨-, hd, rfl⟩
  · exact (h.doSlabsNewslab hf hi).of_view hv
  · exact h.of_view hv
  · exact h.doSlabsAdjustMemLimit newMemLimit
  · exact owned_doSlabsReassign h src dst
  · exact owned_slabRebalanceStart h lib
  · exact owned_slabRebalanceMove h found lib
  · exact owned_slabRebalanceFinish h hm hd

theorem doSlabsAdjustMemLimit_mover (cfg : Config) (s : SlabState) (newMemLimit : ℕ) :
    (doSlabsAdjustMemLimit cfg s newMemLimit).1.mover = s.mover := by
  unfold doSlabsAdjustMemLimit
  split_ifs
  · rfl
  · exact memoryRelease_mover cfg _

theorem keepsFirst_doSlabsAdjustMemLimit {newMemLimit id : ℕ}
    (hi : id = globalPagePool → cfg.memBase = false → cfg.slabReassign = true →
      s.memMalloced ≤
        newMemLimit + ((s.slabclass globalPagePool).slabs - 1) * cfg.slabPageSize) :
    KeepsFirst s (doSlabsAdjustMemLimit cfg s newMemLimit).1 id := by
  unfold doSlabsAdjustMemLimit
  split_ifs
  · exact .of_eq rfl rfl
  have hs : KeepsFirst s { s with memLimit := newMemLimit, memLimitReached := false } id :=
    .of_eq rfl rfl
  exact hs.trans (keepsFirst_memoryRelease hi)

theorem step_mover {a : Act} (hm : Mover cfg s) (hsa : MoveSafe cfg s a)
    (hst : step cfg s a = some (s', ev)) : Mover cfg s' := by
  rcases step_cases hst with ⟨id, lib, hn, -, -, -, hv, -⟩ | ⟨hv, -⟩ |
    ⟨newMemLimit, ha, rfl, -⟩ | ⟨src, dst, rfl, -⟩ | ⟨lib, hs, rfl, -⟩ |
    ⟨found, lib, hs, rfl, -⟩ | ⟨-, -, rfl⟩
  · refine hm.congr ((mover_eq_of_view hv).trans (doSlabsNewslab_mover cfg s id lib))
      fun hmo => (keepsFirst_doSlabsNewslab fun hp hre => ?_).trans (.of_view hv _)
    exact (hsa hmo hp).1 id lib hn hre
  · exact hm.congr (mover_eq_of_view hv) fun _ => .of_view hv _
  · refine hm.congr (doSlabsAdjustMemLimit_mover cfg s newMemLimit) fun hmo =>
      keepsFirst_doSlabsAdjustMemLimit fun hp hb hr => ?_
    exact (hsa hmo hp).2 newMemLimit ha hb hr
  · exact hm.doSlabsReassign src dst
  · exact hm.slabRebalanceStart hs lib
  · exact hm.slabRebalanceMove hs found lib
  · exact mover_slabRebalanceFinish cfg s

/-! ## The page being moved -/

theorem owned_slabsInit (cfg : Config) (limit memCurrent : ℕ) :
    Owned cfg (slabsInit limit memCurrent) none where
  once := by simp [pageCount, slabsInit, SlabClass.pages]
  below := by simp [slabsInit]

theorem mover_slabsInit (cfg : Config) (limit memCurrent : ℕ) :
    Mover cfg (slabsInit limit memCurrent) :=
  mover_of_idle rfl rfl (by simp [slabsInit])

theorem reachable_owned_mover (hr : (system cfg).Reachable (MoveSafe cfg) s) :
    Owned cfg s none ∧ Mover cfg s := by
  refine hr.induct (P := fun s => Owned cfg s none ∧ Mover cfg s) ?_ ?_
  · rintro s ⟨limit, memCurrent, rfl⟩
    exact ⟨owned_slabsInit cfg limit memCurrent, mover_slabsInit cfg limit memCurrent⟩
  · rintro s a t ev ⟨ho, hm⟩ hsa hs
    exact ⟨step_owned ho hm hs, step_mover hm hsa hs⟩

variable {page : Page}

theorem Owned.mem_live_of_holds (h : Owned cfg s none) {x : ℕ × ℕ}
    (hx : Holds cfg s page x) : page ∈ s.live := by
  by_contra hn
  have ho := h.once page
  simp only [reduceCtorEq, if_false, add_zero, hn] at ho
  exact not_holds ho x hx

theorem Mover.holds (hm : Mover cfg s) (hp : s.rebal.slabStart = some page) :
    Holds cfg s page (s.rebal.sClsid, 0) := by
  obtain ⟨hpo, hf⟩ := hm.first page hp
  exact ⟨(hm.classes (by simp [hp])).1, hpo, hf⟩

/-- The page in flight after `takePage` is at no place, but the page being moved
still is at the front of its class. -/
theorem doSlabsNewslab_handed_ne (h : Owned cfg s none) (hm : Mover cfg s) {id : ℕ} {lib : LibC}
    (hfr : lib.Fresh s) (hp : s.rebal.slabStart = some page)
    (hpo : s.rebal.sClsid = globalPagePool → RequestsPage cfg s id lib →
      (s.slabclass globalPagePool).slabs ≠ 1) :
    (doSlabsNewslab cfg s id lib).2 ≠ some page := by
  rcases doSlabsNewslab_cases cfg s id lib with ⟨hn, -⟩ | ⟨ptr, hpt, hl, hok, ht, -⟩
  · simp [hn]
  rw [hpt]
  rintro he
  obtain rfl := Option.some.inj he
  have hr : RequestsPage cfg s id lib := ⟨hl, (growSlabList_true_iff s id _).mp hok⟩
  have hfr' : lib.Fresh (growSlabList s id lib.reallocOk).1 := by
    unfold LibC.Fresh
    rw [(growSlabList_frame s id lib.reallocOk).1]
    exact hfr
  have ho := ((h.growSlabList id lib.reallocOk).takePage hfr' ht).once ptr
  have hg : KeepsFirst s (growSlabList s id lib.reallocOk).1 s.rebal.sClsid :=
    .of_eq (growSlabList_slabs s id _ _) (growSlabList_slabList s id _ _)
  have hk := hg.trans (keepsFirst_takePage ht (by simpa using fun h => hpo h hr))
  obtain ⟨hs, hpos, hf⟩ := hm.holds hp
  obtain ⟨hp', hf'⟩ := hk hpos
  have hz : pageCount cfg (takePage cfg (growSlabList s id lib.reallocOk).1 id lib).1 ptr =
      0 := by
    simp only [if_true] at ho
    split_ifs at ho
    omega
  exact not_holds hz (s.rebal.sClsid, 0) ⟨hs, hp', hf'.trans hf⟩

theorem step_leaves_moved_page {a : Act} (h : Owned cfg s none)
    (hm : Mover cfg s) (hsa : MoveSafe cfg s a) (hs : step cfg s a = some (s', ev))
    (hf : a ≠ .rebalanceFinish) (hp : s.rebal.slabStart = some page) :
    ev.handed ≠ some page ∧ page ∉ ev.released := by
  have hmo : s.rebal.slabStart ≠ none := by simp [hp]
  have ho' := step_owned h hm hs
  have hm' := step_mover hm hsa hs
  rcases step_cases hs with ⟨id, lib, hn, hfr, -, -, -, rfl⟩ | ⟨-, rfl⟩ |
    ⟨newMemLimit, ha, rfl, rfl⟩ | ⟨src, dst, rfl, rfl⟩ | ⟨lib, -, rfl, rfl⟩ |
    ⟨found, lib, -, rfl, rfl⟩ | ⟨ha, -, -⟩
  · refine ⟨doSlabsNewslab_handed_ne h hm hfr hp fun hpo hr => ?_, by simp⟩
    exact (hsa hmo hpo).1 id lib hn hr
  · simp
  · -- a freed page is gone from memory, and the moved one is still in its class
    have hst := congrArg (fun m => m.2.2.1) (doSlabsAdjustMemLimit_mover cfg s newMemLimit)
    have hl := ho'.mem_live_of_holds (hm'.holds (hst.trans hp))
    refine ⟨by simp, fun hme => ?_⟩
    unfold doSlabsAdjustMemLimit at hme hl
    split_ifs at hme hl
    · simp at hme
    · exact memoryRelease_freed cfg _ page hme hl
  · simp
  · simp
  · simp
  · exact absurd ha hf

/-- **Page ownership.** In every run whose steps leave the page being moved in the
pool, every page obtained and not yet freed is at exactly one place of
one class, no other page is at any place, and no step other than the end of the
move gives the page being moved to a class or frees it. -/
theorem pages_owned_once (hr : (system cfg).Reachable (MoveSafe cfg) s) :
    (∀ page ∈ s.live, ∃! x, Holds cfg s page x) ∧
    (∀ page x, Holds cfg s page x → page ∈ s.live) ∧
    ∀ a s' ev page, MoveSafe cfg s a → step cfg s a = some (s', ev) → a ≠ .rebalanceFinish →
      s.rebal.slabStart = some page → ev.handed ≠ some page ∧ page ∉ ev.released := by
  obtain ⟨ho, hm⟩ := reachable_owned_mover hr
  refine ⟨fun page hp => exists_unique_holds ?_, fun page x => ho.mem_live_of_holds,
    fun a s' ev page hs hst hf hp =>
      step_leaves_moved_page ho hm hs hst hf hp⟩
  simpa [hp] using ho.once page

def onePerPage : Config where
  powerLargest := 1
  size := fun _ => 1
  perslab := fun _ => 1
  slabPageSize := 1
  slabChunkSizeMax := 1
  slabReassign := true
  memBase := false
  slabPageSize_pos := by decide
  chunks_pos := fun _ => by decide

def twoClasses : Config := { onePerPage with powerLargest := 2 }

/-- No page of the pool is being moved, no class gets a page during a move, and `malloc` does
not fail. -/
def Calm (cfg : Config) (s : SlabState) (a : Act) : Prop :=
  (s.rebal.slabStart = none ∨
      s.rebal.sClsid ≠ globalPagePool ∧ (newslabOf cfg s a).isNone = true) ∧
    (newslabOf cfg s a).all (fun x => x.2.malloc.isSome) = true

instance (a : Act) : Decidable (Calm cfg s a) := inferInstanceAs (Decidable (_ ∧ _))

theorem Calm.moveSafe {a : Act} (h : Calm cfg s a) : MoveSafe cfg s a := fun hn hp =>
  h.1.elim (fun hs => absurd hs hn) fun hs => absurd hp hs.1

/-- Page 10 is moved from class 1 to class 2. -/
theorem classMove_reachable : ∃ s, (system twoClasses).Reachable (Calm twoClasses) s ∧
    (s.slabclass 2).slabs = 1 ∧ 10 ∈ s.live := by
  have hi : (system twoClasses).Reachable (Calm twoClasses) (slabsInit 100 0) :=
    .of_init ⟨100, 0, rfl⟩
  exact hi.exists_of_exec
    [.alloc 1 false ⟨some 10, true⟩, .alloc 1 false ⟨some 20, true⟩, .free ⟨10, 0⟩ 1,
     .reassign 1 2, .rebalanceStart ⟨none, true⟩, .rebalanceMove .busy ⟨none, true⟩,
     .rebalanceFinish]
    (p := fun s => (s.slabclass 2).slabs = 1 ∧ 10 ∈ s.live) (by decide)

theorem pages_owned_once_class_move : ∃ s, (s.slabclass 2).slabs = 1 ∧ 10 ∈ s.live ∧
    ∃! x, Holds twoClasses s 10 x := by
  obtain ⟨s, hs, hc, hl⟩ := classMove_reachable
  exact ⟨s, hc, hl, (pages_owned_once (hs.mono fun _ _ h => h.moveSafe)).1 10 hl⟩

/-- Three pages come into class 1; two of them are emptied and moved to the pool,
and a move back out of the pool is started. A worker then needs a page. -/
def poolMoveTrace : List Act :=
  [.alloc 1 false ⟨some 10, true⟩, .alloc 1 false ⟨some 20, true⟩,
   .alloc 1 false ⟨some 30, true⟩, .free ⟨10, 0⟩ 1, .free ⟨20, 0⟩ 1,
   .reassign 1 0, .rebalanceStart ⟨none, true⟩, .rebalanceMove .busy ⟨none, true⟩,
   .rebalanceFinish,
   .reassign 1 0, .rebalanceStart ⟨none, true⟩, .rebalanceMove .busy ⟨none, true⟩,
   .rebalanceFinish,
   .reassign 0 1, .rebalanceStart ⟨none, true⟩, .alloc 1 false ⟨none, true⟩]

/-- Page 10 is being moved out of the pool when the next allocation of class 1 is
given that page. -/
theorem pool_page_handed_out_while_moved :
    ∃ s s' ev, (system onePerPage).Reachable (fun _ _ => True) s ∧
      s.rebal.slabStart = some 10 ∧
      step onePerPage s (.alloc 1 false ⟨none, true⟩) = some (s', ev) ∧ ev.handed = some 10 := by
  have hi : (system onePerPage).Reachable (fun _ _ => True) (slabsInit 100 0) :=
    .of_init ⟨100, 0, rfl⟩
  exact ⟨_, _, _, hi.of_exec poolMoveTrace rfl, rfl, rfl, rfl⟩

end Memcached.Slabs
