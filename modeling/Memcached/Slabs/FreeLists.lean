import Memcached.Slabs.Mover

/-!
# The free lists of the slab classes

`Listed` says what the free lists are for: the list of a class has the free chunks of
the class, each once, and `sl_curr` is its length. Each function of the allocator that
touches a free list keeps it.

Results:
* `Listed.slabRebalanceAlloc`, `Listed.slabRebalanceCutFree`: the mover takes chunks
* `Listed.doSlabsFreeChunked`: an item is freed
* `Listed.splitSlabPageIntoFreelist`, `doSlabsNewslab_free`: a page is cut
-/

namespace Memcached.Slabs

open Lib
open Function (update update_of_ne)

/-! ## Free lists -/

/-- The free list of a class has the free chunks of the class, each once, and
`sl_curr` is its length. -/
structure Listed (s : SlabState) (cls : Chunk → ℕ) : Prop where
  nodup : ∀ id, (s.slabclass id).slots.Nodup
  curr : ∀ id, (s.slabclass id).slCurr = (s.slabclass id).slots.length
  mem_iff : ∀ id c, c ∈ (s.slabclass id).slots ↔ s.chunks c = .slabbed ∧ cls c = id

variable {cfg : Config} {s s' : SlabState} {cls cls' : Chunk → ℕ}

theorem Listed.congr (h : Listed s cls)
    (hs : ∀ id, (s'.slabclass id).slots = (s.slabclass id).slots)
    (hcu : ∀ id, (s'.slabclass id).slCurr = (s.slabclass id).slCurr)
    (hc : s'.chunks = s.chunks) : Listed s' cls := by
  refine ⟨fun id => ?_, fun id => ?_, fun id c => ?_⟩
  · rw [hs]
    exact h.nodup id
  · rw [hs, hcu]
    exact h.curr id
  · rw [hs, hc]
    exact h.mem_iff id c

theorem Listed.congr_cls (h : Listed s cls) (hcl : ∀ c, s.chunks c = .slabbed → cls' c = cls c) :
    Listed s cls' := by
  refine ⟨h.nodup, h.curr, fun id c => ?_⟩
  rw [h.mem_iff]
  constructor
  · rintro ⟨hs, hc⟩
    exact ⟨hs, (hcl c hs).trans hc⟩
  · rintro ⟨hs, hc⟩
    exact ⟨hs, (hcl c hs).symm.trans hc⟩

variable {c : Chunk}

theorem Listed.pushSlot (h : Listed s cls) (hc : s.chunks c ≠ .slabbed) :
    Listed (pushSlot s c (cls c)) cls := by
  have hn : c ∉ (s.slabclass (cls c)).slots := fun hm => hc ((h.mem_iff _ c).mp hm).1
  refine ⟨fun id => ?_, fun id => ?_, fun id p => ?_⟩
  · obtain rfl | hi := eq_or_ne id (cls c)
    · simpa [Slabs.pushSlot, SlabState.setClass] using ⟨hn, h.nodup _⟩
    · simpa [Slabs.pushSlot, SlabState.setClass, hi] using h.nodup id
  · obtain rfl | hi := eq_or_ne id (cls c)
    · simpa [Slabs.pushSlot, SlabState.setClass] using h.curr _
    · simpa [Slabs.pushSlot, SlabState.setClass, hi] using h.curr id
  obtain rfl | hp := eq_or_ne p c
  · obtain rfl | hi := eq_or_ne id (cls p)
    · simp [Slabs.pushSlot, SlabState.setClass]
    · have ho := h.mem_iff id p
      simp [Slabs.pushSlot, SlabState.setClass, hi, ho, hc, hi.symm]
  · obtain rfl | hi := eq_or_ne id (cls c)
    · simpa [Slabs.pushSlot, SlabState.setClass, hp] using h.mem_iff _ p
    · simpa [Slabs.pushSlot, SlabState.setClass, hp, hi] using h.mem_iff id p

@[simp] theorem chunks_pushSlot (s : SlabState) (c : Chunk) (id : ℕ) :
    (pushSlot s c id).chunks = update s.chunks c .slabbed := rfl

theorem Listed.doSlabsFreeChunked (h : Listed s cls) {l : List Chunk} (hl : l.Nodup)
    (hf : ∀ p ∈ l, s.chunks p ≠ .slabbed) :
    let s' := Slabs.doSlabsFreeChunked s (l.map fun p => (p, cls p))
    Listed s' cls ∧ s'.rebal = s.rebal ∧
      s'.chunks = fun p => if p ∈ l then .slabbed else s.chunks p := by
  induction l generalizing s with
  | nil => exact ⟨h, rfl, by simp [Slabs.doSlabsFreeChunked]⟩
  | cons c l ih =>
    have hc := hf c (.head _)
    have hn := (List.nodup_cons.mp hl).1
    have hre : ∀ p ∈ l, (Slabs.pushSlot s c (cls c)).chunks p ≠ .slabbed := by
      intro p hp
      rw [chunks_pushSlot, update_of_ne (ne_of_mem_of_not_mem hp hn)]
      exact hf p (.tail _ hp)
    obtain ⟨hli, hr, hch⟩ := ih (h.pushSlot hc) (List.nodup_cons.mp hl).2 hre
    refine ⟨hli, hr, ?_⟩
    refine hch.trans (funext fun p => ?_)
    obtain rfl | hp := eq_or_ne p c
    · simp
    · simp [hp]

variable {id : ℕ}

theorem Listed.splitSlabPageIntoFreelist (cfg : Config) (h : Listed s cls) {page : Page}
    (hid : powerSmallest ≤ id) (hla : id ≤ cfg.powerLargest)
    (hpa : ∀ c : Chunk, c.page = page → s.chunks c ≠ .slabbed ∧ cls c = id) :
    let s' := Slabs.splitSlabPageIntoFreelist cfg s page id
    Listed s' cls ∧ s'.rebal = s.rebal ∧
      s'.chunks = fun c => if c.page = page ∧ c.idx < cfg.perslab id then .slabbed
        else s.chunks c := by
  have hlo : ∀ n, let s' := (List.range n).foldl (fun s x => doSlabsFree cfg s ⟨page, x⟩ id) s
      Listed s' cls ∧ s'.rebal = s.rebal ∧
        s'.chunks = fun c => if c.page = page ∧ c.idx < n then .slabbed else s.chunks c := by
    intro n
    induction n with
    | zero => exact ⟨h, rfl, by simp⟩
    | succ n ih =>
      rw [List.range_succ, List.foldl_append, List.foldl_cons, List.foldl_nil]
      obtain ⟨hl, hr, hc⟩ := ih
      generalize (List.range n).foldl (fun s x => doSlabsFree cfg s ⟨page, x⟩ id) s = t at *
      obtain ⟨hf, hcl⟩ := hpa ⟨page, n⟩ rfl
      have ho : ¬(id < powerSmallest ∨ id > cfg.powerLargest) := by omega
      have hno : t.chunks ⟨page, n⟩ ≠ .slabbed := by
        rw [hc]
        simpa using hf
      have hpu := hl.pushSlot hno
      rw [hcl] at hpu
      simp only [doSlabsFree, if_neg ho]
      refine ⟨hpu, hr, funext fun c => ?_⟩
      rw [chunks_pushSlot, hc]
      obtain rfl | hn := eq_or_ne c ⟨page, n⟩
      · simp
      rw [update_of_ne hn]
      have hi : c.page = page → c.idx ≠ n := by
        rintro rfl rfl
        exact hn rfl
      have hif : (c.page = page ∧ c.idx < n + 1) ↔ (c.page = page ∧ c.idx < n) := by
        constructor
        · rintro ⟨hp, hlt⟩
          exact ⟨hp, by have := hi hp; omega⟩
        · rintro ⟨hp, hlt⟩
          exact ⟨hp, by omega⟩
      simp only [hif]
  exact hlo (cfg.perslab id)

theorem Listed.pop (h : Listed s cls) {slots : List Chunk}
    (hs : (s.slabclass id).slots = c :: slots) (st : ChunkState) (hst : st ≠ .slabbed) :
    Listed { s.setClass id { s.slabclass id with
        slots := slots, slCurr := (s.slabclass id).slCurr - 1 } with
      chunks := update s.chunks c st } cls := by
  obtain ⟨hf, hc⟩ := (h.mem_iff id c).mp (by rw [hs]; exact .head _)
  have hn := h.nodup id
  rw [hs] at hn
  obtain ⟨hno, hr⟩ := List.nodup_cons.mp hn
  refine ⟨fun i => ?_, fun i => ?_, fun i p => ?_⟩
  · obtain rfl | hi := eq_or_ne i id
    · simpa [SlabState.setClass] using hr
    · simpa [SlabState.setClass, hi] using h.nodup i
  · obtain rfl | hi := eq_or_ne i id
    · simp [SlabState.setClass, h.curr, hs]
    · simpa [SlabState.setClass, hi] using h.curr i
  obtain rfl | hp := eq_or_ne p c
  · obtain rfl | hi := eq_or_ne i id
    · simp [SlabState.setClass, hno, hst]
    · have ho := h.mem_iff i p
      simp [SlabState.setClass, hi, ho, hst, hc, hi.symm]
  · obtain rfl | hi := eq_or_ne i id
    · have ho := h.mem_iff i p
      rw [hs] at ho
      simpa [SlabState.setClass, hp] using ho
    · simpa [SlabState.setClass, hp, hi] using h.mem_iff i p

theorem Listed.slCurr_ne_zero (h : Listed s cls) {slots : List Chunk}
    (hs : (s.slabclass id).slots = c :: slots) : (s.slabclass id).slCurr ≠ 0 := by
  rw [h.curr, hs]
  simp

theorem doSlabsAlloc_noNewpage (cfg : Config) (h : Listed s cls) (id : ℕ) (lib : LibC) :
    (∃ page, doSlabsAlloc cfg s id true lib = (s, none, page)) ∨
      ∃ c slots page, powerSmallest ≤ id ∧ (s.slabclass id).slots = c :: slots ∧
        doSlabsAlloc cfg s id true lib =
          ({ s.setClass id { s.slabclass id with
                slots := slots, slCurr := (s.slabclass id).slCurr - 1 } with
              chunks := update s.chunks c .inUse }, some c, page) := by
  unfold doSlabsAlloc
  by_cases hi : id < powerSmallest ∨ id > cfg.powerLargest
  · rw [if_pos hi]
    exact .inl ⟨none, rfl⟩
  rw [if_neg hi]
  simp only [Bool.true_eq_false, and_false, if_false]
  rcases hs : (s.slabclass id).slots with _ | ⟨c, slots⟩
  · exact .inl ⟨none, rfl⟩
  · simp only [if_pos (h.slCurr_ne_zero hs)]
    exact .inr ⟨c, slots, none, by omega, rfl, rfl⟩

/-- What the mover's allocation does to the chunks: some free chunks are cleared, and
the one it returns is in use. -/
def Reclaims (cls : Chunk → ℕ) (id : ℕ) (s s' : SlabState) (new : Option Chunk) : Prop :=
  (∀ c, s'.chunks c = s.chunks c ∨
    s.chunks c = .slabbed ∧ (s'.chunks c = .cleared ∨ new = some c)) ∧
  ∀ c, new = some c → s.chunks c = .slabbed ∧ s'.chunks c = .inUse ∧ cls c = id

theorem Listed.slabRebalanceAlloc (cfg : Config) (h : Listed s cls) (id : ℕ)
    (slabStart : Option Page) (lib : LibC) (n : ℕ) :
    let r := Slabs.slabRebalanceAlloc cfg id slabStart lib n s
    Listed r.1 cls ∧ r.1.rebal = s.rebal ∧ Reclaims cls id s r.1 r.2 := by
  induction n generalizing s with
  | zero => exact ⟨h, rfl, fun c => .inl rfl, by simp [Slabs.slabRebalanceAlloc]⟩
  | succ n ih =>
    rcases doSlabsAlloc_noNewpage cfg h id lib with ⟨page, he⟩ |
      ⟨c, slots, page, -, hsl, he⟩
    · simp only [Slabs.slabRebalanceAlloc, he]
      exact ⟨h, trivial, fun c => .inl rfl, by simp⟩
    obtain ⟨hf, hc⟩ := (h.mem_iff id c).mp (by rw [hsl]; exact .head _)
    simp only [Slabs.slabRebalanceAlloc, he]
    split_ifs with hpa
    · -- the popped chunk lies in the page: it is cleared and the loop goes on
      have hpo := h.pop hsl .cleared (by simp)
      obtain ⟨hl, hr, hst, hnew⟩ := ih hpo
      rw [Function.update_idem]
      refine ⟨hl, hr, fun p => ?_, fun p hp => ?_⟩
      · obtain rfl | hn := eq_or_ne p c
        · obtain hsa | ⟨hs, -⟩ := hst p
          · exact .inr ⟨hf, .inl (hsa.trans (by simp))⟩
          · simp at hs
        · simpa [update_of_ne hn] using hst p
      · obtain ⟨hs, hu, hi⟩ := hnew p hp
        obtain rfl | hn := eq_or_ne p c
        · simp at hs
        · exact ⟨by simpa [update_of_ne hn] using hs, hu, hi⟩
    · refine ⟨h.pop hsl .inUse (by simp), rfl, fun p => ?_, ?_⟩
      · obtain rfl | hn := eq_or_ne p c
        · exact .inr ⟨hf, .inr rfl⟩
        · exact .inl (by simp [update_of_ne hn])
      · rintro p hp
        cases hp
        exact ⟨hf, by simp, hc⟩

theorem Listed.slabRebalanceCutFree (h : Listed s cls)
    (hf : s.chunks c = .slabbed) (hc : cls c = id) :
    Listed (markCompleted (Slabs.slabRebalanceCutFree s id c) c) cls := by
  have hm : c ∈ (s.slabclass id).slots := (h.mem_iff id c).mpr ⟨hf, hc⟩
  refine ⟨fun i => ?_, fun i => ?_, fun i p => ?_⟩
  · obtain rfl | hi := eq_or_ne i id
    · simpa [markCompleted, Slabs.slabRebalanceCutFree, SlabState.setClass] using
        (h.nodup i).erase c
    · simpa [markCompleted, Slabs.slabRebalanceCutFree, SlabState.setClass, hi] using h.nodup i
  · obtain rfl | hi := eq_or_ne i id
    · simp [markCompleted, Slabs.slabRebalanceCutFree, SlabState.setClass, h.curr,
        List.length_erase_of_mem hm]
    · simpa [markCompleted, Slabs.slabRebalanceCutFree, SlabState.setClass, hi] using h.curr i
  obtain rfl | hi := eq_or_ne i id
  · have ho := h.mem_iff i p
    obtain rfl | hp := eq_or_ne p c
    · simp [markCompleted, Slabs.slabRebalanceCutFree, SlabState.setClass,
        (h.nodup i).mem_erase_iff]
    · simp [markCompleted, Slabs.slabRebalanceCutFree, SlabState.setClass,
        (h.nodup i).mem_erase_iff, hp, ho]
  · have ho := h.mem_iff i p
    obtain rfl | hp := eq_or_ne p c
    · simp [markCompleted, Slabs.slabRebalanceCutFree, SlabState.setClass, hi, ho, hc, hi.symm]
    · simp [markCompleted, Slabs.slabRebalanceCutFree, SlabState.setClass, hi, hp, ho]

theorem Listed.markCompleted (h : Listed s cls) (hc : s.chunks c ≠ .slabbed) :
    Listed (markCompleted s c) cls := by
  refine ⟨h.nodup, h.curr, fun id p => ?_⟩
  obtain rfl | hp := eq_or_ne p c
  · have ho := h.mem_iff id p
    simp only [hc, false_and, iff_false] at ho
    simpa [Slabs.markCompleted] using ho
  · simpa [Slabs.markCompleted, hp] using h.mem_iff id p

/-! ## New pages -/

/-- The free lists, the chunks and the mover are the same. -/
def SameFree (s s' : SlabState) : Prop :=
  (∀ id, (s'.slabclass id).slots = (s.slabclass id).slots) ∧
  (∀ id, (s'.slabclass id).slCurr = (s.slabclass id).slCurr) ∧
  s'.chunks = s.chunks ∧ s'.rebal = s.rebal

theorem SameFree.refl (s : SlabState) : SameFree s s := ⟨fun _ => rfl, fun _ => rfl, rfl, rfl⟩

theorem SameFree.trans {s'' : SlabState} (h : SameFree s s') (h' : SameFree s' s'') :
    SameFree s s'' :=
  ⟨fun id => (h'.1 id).trans (h.1 id), fun id => (h'.2.1 id).trans (h.2.1 id),
    h'.2.2.1.trans h.2.2.1, h'.2.2.2.trans h.2.2.2⟩

theorem SameFree.listed (hs : SameFree s s') (h : Listed s cls) : Listed s' cls :=
  h.congr hs.1 hs.2.1 hs.2.2.1

theorem SameFree.setClass {p : SlabClass} (hs : p.slots = (s.slabclass id).slots)
    (hc : p.slCurr = (s.slabclass id).slCurr) : SameFree s (s.setClass id p) := by
  refine ⟨fun i => ?_, fun i => ?_, rfl, rfl⟩
  · obtain rfl | hi := eq_or_ne i id
    · simpa [SlabState.setClass] using hs
    · simp [SlabState.setClass, hi]
  · obtain rfl | hi := eq_or_ne i id
    · simpa [SlabState.setClass] using hc
    · simp [SlabState.setClass, hi]

theorem sameFree_growSlabList (s : SlabState) (id : ℕ) (reallocOk : Bool) :
    SameFree s (growSlabList s id reallocOk).1 := by
  obtain ⟨-, h⟩ | ⟨-, h⟩ | ⟨-, h⟩ := growSlabList_cases s id reallocOk <;> rw [h]
  · exact .refl s
  · exact .setClass rfl rfl
  · exact .refl s

theorem sameFree_getPageFromGlobalPool (s : SlabState) :
    SameFree s (getPageFromGlobalPool s).1 := by
  simp only [getPageFromGlobalPool]
  split_ifs
  · exact .refl s
  · exact .setClass rfl rfl

theorem sameFree_memoryAllocate (cfg : Config) (s : SlabState) (size : ℕ) (lib : LibC) :
    SameFree s (memoryAllocate cfg s size lib).1 := by
  unfold memoryAllocate
  by_cases hb : cfg.memBase = false
  · rw [if_pos hb]
    obtain _ | ptr := lib.malloc
    · exact .refl s
    · exact .refl s
  rw [if_neg hb]
  simp only
  split_ifs
  · exact .refl s
  · exact .refl s
  · exact .refl s

theorem sameFree_takePage (cfg : Config) (s : SlabState) (id : ℕ) (lib : LibC) :
    SameFree s (takePage cfg s id lib).1 := by
  have hp := sameFree_getPageFromGlobalPool s
  unfold takePage
  rcases hg : getPageFromGlobalPool s with ⟨t, page⟩
  rw [hg] at hp
  cases page with
  | none => exact hp.trans (sameFree_memoryAllocate cfg t _ lib)
  | some ptr => exact hp

theorem sameFree_releaseLoop (cfg : Config) (n : ℕ) (s : SlabState) :
    SameFree s (releaseLoop cfg n s).1 := by
  induction n generalizing s with
  | zero => exact .refl s
  | succ n ih =>
    obtain he | ⟨-, t, ptr, hg, he⟩ := releaseLoop_succ_cases cfg n s <;> rw [he]
    · exact .refl s
    have hp := sameFree_getPageFromGlobalPool s
    rw [hg] at hp
    exact (hp.trans (.refl _)).trans (ih (freePage cfg t ptr))

theorem sameFree_memoryRelease (cfg : Config) (s : SlabState) :
    SameFree s (memoryRelease cfg s).1 := by
  obtain he | ⟨-, -, he⟩ := memoryRelease_cases cfg s <;> rw [he]
  · exact .refl s
  · exact sameFree_releaseLoop cfg _ s

theorem pages_getPageFromGlobalPool (s : SlabState) (hi : id ≠ globalPagePool) :
    ((getPageFromGlobalPool s).1.slabclass id).pages = (s.slabclass id).pages := by
  simp only [getPageFromGlobalPool]
  split_ifs
  · rfl
  · rw [setClass_of_ne s _ hi]

theorem pages_takePage (cfg : Config) (s : SlabState) (i : ℕ) (lib : LibC)
    (hi : id ≠ globalPagePool) :
    ((takePage cfg s i lib).1.slabclass id).pages = (s.slabclass id).pages := by
  have hp := pages_getPageFromGlobalPool s hi
  unfold takePage
  rcases hg : getPageFromGlobalPool s with ⟨t, page⟩
  rw [hg] at hp
  cases page with
  | none => rw [(memoryAllocate_frame cfg t _ lib).1, hp]
  | some ptr => exact hp

theorem pages_releaseLoop (cfg : Config) (n : ℕ) (s : SlabState) (hi : id ≠ globalPagePool) :
    ((releaseLoop cfg n s).1.slabclass id).pages = (s.slabclass id).pages := by
  induction n generalizing s with
  | zero => rfl
  | succ n ih =>
    obtain he | ⟨-, t, ptr, hg, he⟩ := releaseLoop_succ_cases cfg n s <;> rw [he]
    have hp := pages_getPageFromGlobalPool s hi
    rw [hg] at hp
    exact (ih (freePage cfg t ptr)).trans hp

theorem pages_memoryRelease (cfg : Config) (s : SlabState) (hi : id ≠ globalPagePool) :
    ((memoryRelease cfg s).1.slabclass id).pages = (s.slabclass id).pages := by
  obtain he | ⟨-, -, he⟩ := memoryRelease_cases cfg s <;> rw [he]
  exact pages_releaseLoop cfg _ s hi

/-- `do_slabs_newslab` either leaves the free lists alone or cuts a page, which is at
no place of any class, into chunks and appends it to the class. -/
theorem doSlabsNewslab_free (h : Owned cfg s none) (id : ℕ) {lib : LibC} (hf : lib.Fresh s) :
    let r := doSlabsNewslab cfg s id lib
    (r.2 = none ∧ SameFree s r.1 ∧ ∀ i, (r.1.slabclass i).pages = (s.slabclass i).pages) ∨
      ∃ ptr t, r.2 = some ptr ∧ SameFree s t ∧
        SameFree (splitSlabPageIntoFreelist cfg t ptr id) r.1 ∧
        (∀ i ≠ globalPagePool, i ≤ cfg.powerLargest → ptr ∉ (s.slabclass i).pages) ∧
        ∀ i ≠ globalPagePool, (r.1.slabclass i).pages =
          if i = id then (s.slabclass i).pages ++ [ptr] else (s.slabclass i).pages := by
  intro r
  have hgr := sameFree_growSlabList s id lib.reallocOk
  have hp : ∀ i, ((growSlabList s id lib.reallocOk).1.slabclass i).pages =
      (s.slabclass i).pages := fun i =>
    pages_congr (growSlabList_slabs s id _ i) (growSlabList_slabList s id _ i)
  have how := h.growSlabList id lib.reallocOk
  have hf' : lib.Fresh (growSlabList s id lib.reallocOk).1 := by
    unfold LibC.Fresh
    rw [(growSlabList_frame s id lib.reallocOk).1]
    exact hf
  have hr : r = doSlabsNewslab cfg s id lib := rfl
  by_cases hl : MemLimitHit cfg s id
  · rw [doSlabsNewslab, if_pos hl] at hr
    rw [hr]
    exact .inl ⟨rfl, .refl s, fun _ => rfl⟩
  rw [doSlabsNewslab, if_neg hl] at hr
  rcases hg : growSlabList s id lib.reallocOk with ⟨s1, grown⟩
  rw [hg] at hgr hp how hf'
  cases grown with
  | false =>
    rw [hg] at hr
    rw [hr]
    exact .inl ⟨rfl, hgr, hp⟩
  | true =>
    have htak := sameFree_takePage cfg s1 id lib
    have hta : ∀ {i}, i ≠ globalPagePool → _ := fun {i} hi => pages_takePage cfg s1 id lib hi
    rcases ht : takePage cfg s1 id lib with ⟨s2, page⟩
    rw [ht] at htak hta
    simp only [hg, ht] at hr
    cases page with
    | none =>
      have hv := takePage_none_view ht
      rw [hr]
      exact .inl ⟨rfl, hgr.trans htak, fun i => (pages_eq_of_view hv i).trans (hp i)⟩
    | some ptr =>
      have hh := how.takePage hf' (by rw [ht])
      rw [ht] at hh
      have ho := hh.once ptr
      simp only [if_true] at ho
      have hz : pageCount cfg s2 ptr = 0 := by
        split_ifs at ho
        omega
      refine .inr ⟨ptr, s2, by rw [hr], hgr.trans htak, by rw [hr]; exact .setClass rfl rfl,
        fun i hi hle hm => ?_, fun i hi => ?_⟩
      · rw [← hp i, ← hta hi] at hm
        simp only [SlabClass.pages, List.mem_map, List.mem_range] at hm
        obtain ⟨x, hx, he⟩ := hm
        exact not_holds hz (i, x) ⟨hle, hx, he⟩
      rw [hr]
      have hs := pages_eq_of_view (view_splitSlabPageIntoFreelist cfg s2 ptr id) i
      obtain rfl | hn := eq_or_ne i id
      · simp only [setClass_self, if_true]
        rw [pages_append, hs, hta hi, hp]
      · simp only [hn, if_false]
        rw [setClass_of_ne _ _ hn, hs, hta hi, hp]

end Memcached.Slabs
