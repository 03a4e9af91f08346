import Memcached.Slabs.ChunkShape

/-!
# A page is empty when its move ends

The mover clears one chunk of its page after the other while the workers go on, and a
round that meets no busy chunk ends the move. `PageInv` joins the shape of the chunks,
the counters of the items and the progress of the move, and every step keeps it.

Results:
* `PageInv.look`: what a look at a chunk does
* `moved_page_empty`: a page is empty when its move ends
* `chunk_freed_after_move`: unless a counter wraps
-/

namespace Memcached.Slabs

open Lib
open Function (update update_self update_of_ne update_eq_self update_idem)

variable {cfg : Config} {s s' : SlabState} {cls cls' : Chunk → ℕ} {kind : Chunk → Kind}

/-! ## The invariant -/

/-- The counter of an item is the number of its references, and nothing else is
referenced. -/
def Header.Counted (h : Header) : Prop :=
  match h.kind with
  | .free => h.refs = 0
  | .part _ => h.refs = 0
  | .taken => h.refcount = 1 ∧ h.refs = 1
  | .item linked _ => h.refcount < 65536 ∧ 0 < h.refcount ∧ h.refcount = h.refs + linked.toNat

variable {h : Header}

theorem Header.Counted.free (hc : h.Counted) (hk : h.kind = .free) : h.refs = 0 := by
  unfold Header.Counted at hc
  rw [hk] at hc
  exact hc

theorem Header.Counted.part {head : Chunk} (hc : h.Counted)
    (hk : h.kind = .part head) : h.refs = 0 := by
  unfold Header.Counted at hc
  rw [hk] at hc
  exact hc

theorem Header.Counted.taken (hc : h.Counted) (hk : h.kind = .taken) :
    h.refcount = 1 ∧ h.refs = 1 := by
  unfold Header.Counted at hc
  rw [hk] at hc
  exact hc

variable {chain : Option (List Chunk)}

theorem Header.Counted.item {linked : Bool} (hc : h.Counted) (hk : h.kind = .item linked chain) :
    h.refcount < 65536 ∧ 0 < h.refcount ∧ h.refcount = h.refs + linked.toNat := by
  unfold Header.Counted at hc
  rw [hk] at hc
  exact hc

/-- How far the move is: what is marked `completed` is cleared, and so is what a round
without busy items has passed. -/
structure Progress (cfg : Config) (s : SlabState) : Prop where
  completed : ∀ page, s.rebal.slabStart = some page → s.rebal.sClsid ≠ globalPagePool →
    ∀ i, s.rebal.completed i = true → s.chunks ⟨page, i⟩ = .cleared
  passed : ∀ page, s.rebal.slabStart = some page → s.rebal.sClsid ≠ globalPagePool →
    s.rebal.busyItems = 0 → ∀ i < s.rebal.slabPos, s.chunks ⟨page, i⟩ = .cleared
  done : ∀ page, s.rebal.slabStart = some page → s.rebal.sClsid ≠ globalPagePool →
    s.rebal.done ≠ 0 → ∀ i < cfg.perslab s.rebal.sClsid, s.chunks ⟨page, i⟩ = .cleared
  pool : s.rebal.slabStart ≠ none → s.rebal.sClsid = globalPagePool → s.rebal.done ≠ 0

/-- The invariant of the allocator, its mover and the items. -/
structure PageInv (cfg : Config) (m : PageState) : Prop where
  own : Owned cfg m.slabs none
  mover : Mover cfg m.slabs
  shape : Shape cfg m.slabs m.clsid m.kind
  progress : Progress cfg m.slabs
  counted : ∀ c, (m.hdr c).Counted

variable {m m' : PageState}

theorem Progress.of_idle (h : s.rebal.slabStart = none) : Progress cfg s := by
  refine ⟨?_, ?_, ?_, fun hn => absurd h hn⟩ <;> intro page hp <;> simp [h] at hp

theorem Progress.congr (h : Progress cfg s) (hr : s'.rebal = s.rebal)
    (hk : ∀ page, s.rebal.slabStart = some page → s.rebal.sClsid ≠ globalPagePool →
      ∀ i, s.chunks ⟨page, i⟩ = .cleared → s'.chunks ⟨page, i⟩ = .cleared) : Progress cfg s' := by
  refine ⟨?_, ?_, ?_, by rw [hr]; exact h.pool⟩ <;> rw [hr]
  · intro page hp hs i hi
    exact hk page hp hs i (h.completed page hp hs i hi)
  · intro page hp hs hb i hi
    exact hk page hp hs i (h.passed page hp hs hb i hi)
  · intro page hp hs hd i hi
    exact hk page hp hs i (h.done page hp hs hd i hi)

theorem Shape.congr (h : Shape cfg s cls kind) (hcl : s'.slabclass = s.slabclass)
    (hch : s'.chunks = s.chunks) : Shape cfg s' cls kind := by
  refine ⟨h.listed.congr (by simp [hcl]) (by simp [hcl]) hch, fun c hc => ?_,
    fun c hc => ?_, h.chain, h.part⟩
  · rw [hch] at hc
    exact (h.home c hc).congr (by rw [hcl])
  · rw [hch]
    exact h.used c hc

variable {page : Page}

/-- While a page of a class is being moved. -/
theorem Progress.of_page (hpa : s.rebal.slabStart = some page)
    (hpo : s.rebal.sClsid ≠ globalPagePool)
    (hc : ∀ i, s.rebal.completed i = true → s.chunks ⟨page, i⟩ = .cleared)
    (hp : s.rebal.busyItems = 0 → ∀ i < s.rebal.slabPos, s.chunks ⟨page, i⟩ = .cleared)
    (hd : s.rebal.done ≠ 0 → ∀ i < cfg.perslab s.rebal.sClsid,
      s.chunks ⟨page, i⟩ = .cleared) : Progress cfg s := by
  refine ⟨?_, ?_, ?_, fun _ he => absurd he hpo⟩ <;> rw [hpa] <;> rintro _ ⟨⟩ -
  · exact hc
  · exact hp
  · exact hd

theorem ne_globalPagePool {id : ℕ} (h : powerSmallest ≤ id) : id ≠ globalPagePool := by
  unfold powerSmallest at h
  unfold globalPagePool
  omega

theorem Owned.class_unique (h : Owned cfg s none) {i j : ℕ}
    (hi : page ∈ (s.slabclass i).pages) (hj : page ∈ (s.slabclass j).pages)
    (hi' : i ≤ cfg.powerLargest) (hj' : j ≤ cfg.powerLargest) : i = j := by
  simp only [SlabClass.pages, List.mem_map, List.mem_range] at hi hj
  obtain ⟨x, hx, hxp⟩ := hi
  obtain ⟨y, hy, hyp⟩ := hj
  have hl := h.mem_live_of_holds (x := (i, x)) ⟨hi', hx, hxp⟩
  have ho : pageCount cfg s page = 1 := by simpa [hl] using h.once page
  obtain ⟨z, -, hu⟩ := exists_unique_holds ho
  have hxz := hu (i, x) ⟨hi', hx, hxp⟩
  have hyz := hu (j, y) ⟨hj', hy, hyp⟩
  exact congrArg Prod.fst (hxz.trans hyz.symm)

theorem Mover.mem_pages (h : Mover cfg s) (hp : s.rebal.slabStart = some page) :
    page ∈ (s.slabclass s.rebal.sClsid).pages := by
  obtain ⟨-, hpo, hf⟩ := h.holds hp
  exact List.mem_map.mpr ⟨0, List.mem_range.mpr hpo, hf⟩

variable {c : Chunk}

theorem PageInv.clsid_eq (h : PageInv cfg m) (hp : m.slabs.rebal.slabStart = some c.page)
    (hc : m.slabs.chunks c = .slabbed ∨ m.kind c ≠ .free) : m.clsid c = m.slabs.rebal.sClsid := by
  obtain ⟨-, hl, hm, -⟩ := h.shape.home c hc
  exact h.own.class_unique hm (h.mover.mem_pages hp) hl
    (h.mover.classes (by simp [hp])).1

theorem Shape.page_empty (h : Shape cfg s cls kind)
    (hp : ∀ i ≠ globalPagePool, i ≤ cfg.powerLargest → page ∉ (s.slabclass i).pages)
    (c : Chunk) (hc : c.page = page) : s.chunks c ≠ .slabbed ∧ kind c = .free := by
  have hn : ¬(s.chunks c = .slabbed ∨ kind c ≠ .free) := by
    intro hh
    obtain ⟨hsm, hl, hm, -⟩ := h.home c hh
    rw [hc] at hm
    exact hp _ (ne_globalPagePool hsm) hl hm
  exact ⟨fun hs => hn (.inl hs), by_contra fun hne => hn (.inr hne)⟩

variable {id : ℕ} {hdr : Chunk → Header}

theorem Counted.formatted (h : (hdr c).Counted) (hf : c.page = page → (hdr c).kind = .free) :
    (formatted hdr page id c).Counted := by
  unfold Slabs.formatted
  split_ifs with hp
  · simpa [Header.Counted, hf hp] using h
  · exact h

theorem Shape.formatted (hdr : Chunk → Header) {t : SlabState}
    (h : Shape cfg s (fun c => (hdr c).clsid) fun c => (hdr c).kind)
    (he : ∀ c : Chunk, c.page = page → s.chunks c ≠ .slabbed ∧ (hdr c).kind = .free)
    (hid : powerSmallest ≤ id) (hl : id ≤ cfg.powerLargest) (hst : SameFree s t)
    (hsp : SameFree (splitSlabPageIntoFreelist cfg t page id) s')
    (hnew : page ∈ (s'.slabclass id).pages)
    (hp : ∀ c : Chunk, c.page ≠ page → ∀ i ≠ globalPagePool,
      c.page ∈ (s.slabclass i).pages → c.page ∈ (s'.slabclass i).pages) :
    Shape cfg s' (fun c => (formatted hdr page id c).clsid)
        (fun c => (formatted hdr page id c).kind) ∧
      s'.rebal = s.rebal ∧ ∀ c : Chunk, c.page ≠ page → s'.chunks c = s.chunks c := by
  have hcl : ∀ c, s.chunks c = .slabbed →
      (Slabs.formatted hdr page id c).clsid = (hdr c).clsid := by
    intro c hc
    have hn : c.page ≠ page := fun heq => (he c heq).1 hc
    simp [Slabs.formatted, hn]
  have hk : (fun c => (Slabs.formatted hdr page id c).kind) = fun c => (hdr c).kind := by
    funext c
    unfold Slabs.formatted
    split_ifs with heq
    · exact (he c heq).2.symm
    · rfl
  have hli : Listed t fun c => (Slabs.formatted hdr page id c).clsid :=
    hst.listed (h.listed.congr_cls hcl)
  have hf : ∀ c : Chunk, c.page = page → t.chunks c ≠ .slabbed ∧
      (Slabs.formatted hdr page id c).clsid = id := by
    intro c hc
    rw [hst.2.2.1]
    exact ⟨(he c hc).1, by simp [Slabs.formatted, hc]⟩
  obtain ⟨hl', hr, hch⟩ :=
    hli.splitSlabPageIntoFreelist cfg hid hl hf
  have hsta : ∀ c : Chunk, s'.chunks c =
      if c.page = page ∧ c.idx < cfg.perslab id then .slabbed else s.chunks c := by
    intro c
    rw [hsp.2.2.1, hch, hst.2.2.1]
  have ho : ∀ c : Chunk, c.page ≠ page → s'.chunks c = s.chunks c := by
    intro c hn
    simp [hsta, hn]
  rw [hk]
  refine ⟨⟨hsp.listed hl', fun c hc => ?_, fun c hc => ?_, h.chain, h.part⟩,
    hsp.2.2.2.trans (hr.trans hst.2.2.2), ho⟩
  · by_cases heq : c.page = page
    · have hs : s'.chunks c = .slabbed := by
        obtain hc | hc := hc
        · exact hc
        · exact absurd (he c heq).2 hc
      have hi : c.idx < cfg.perslab id := by
        by_contra hg
        rw [hsta, if_neg (fun ha => hg ha.2)] at hs
        exact (he c heq).1 hs
      simp only [Slabs.formatted, heq, if_true]
      exact ⟨hid, hl, by rw [heq]; exact hnew, hi⟩
    · rw [ho c heq] at hc
      obtain ⟨hsm, hle, hm, hi⟩ := h.home c hc
      simp only [Slabs.formatted, heq, if_false]
      exact ⟨hsm, hle, hp c heq _ (ne_globalPagePool hsm) hm, hi⟩
  · have hn : c.page ≠ page := fun heq => hc (he c heq).2
    rw [ho c hn]
    exact h.used c hc

/-! ## Allocation -/

/-- Cleared chunks of pages that a class holds stay cleared. -/
def KeepsCleared (cfg : Config) (s s' : SlabState) : Prop :=
  ∀ c : Chunk, (∃ i ≠ globalPagePool, i ≤ cfg.powerLargest ∧ c.page ∈ (s.slabclass i).pages) →
    s.chunks c = .cleared → s'.chunks c = .cleared

theorem KeepsCleared.progress (h : KeepsCleared cfg s s') (hm : Mover cfg s)
    (hp : Progress cfg s) (hr : s'.rebal = s.rebal) : Progress cfg s' := by
  refine hp.congr hr fun page hpa hs i hi => h ⟨page, i⟩ ?_ hi
  exact ⟨_, hs, (hm.classes (by simp [hpa])).1, hm.mem_pages hpa⟩

theorem PageInv.newslab (h : PageInv cfg m) {lib : LibC} (hf : lib.Fresh m.slabs)
    (hid : powerSmallest ≤ id) (hl : id ≤ cfg.powerLargest) :
    let r := doSlabsNewslab cfg m.slabs id lib
    let hdr := newslabHdr m.hdr r.2 id
    Shape cfg r.1 (fun c => (hdr c).clsid) (fun c => (hdr c).kind) ∧
      r.1.rebal = m.slabs.rebal ∧ KeepsCleared cfg m.slabs r.1 ∧ ∀ c, (hdr c).Counted := by
  intro r hdr
  rcases doSlabsNewslab_free h.own id hf with ⟨hn, hs, hp⟩ |
    ⟨ptr, t, hso, hst, hsp, hno, hp⟩
  · have hhd : hdr = m.hdr := by simp only [hdr, r, hn, newslabHdr]
    rw [hhd]
    refine ⟨h.shape.of_sameFree hs fun i _ => hp i, hs.2.2.2, fun c _ hc => ?_, h.counted⟩
    rw [hs.2.2.1]
    exact hc
  have hhd : hdr = formatted m.hdr ptr id := by simp only [hdr, r, hso, newslabHdr]
  rw [hhd]
  have he := h.shape.page_empty hno
  obtain ⟨hsh, hr, ho⟩ := Shape.formatted m.hdr h.shape he hid hl
    hst hsp (by rw [hp id (ne_globalPagePool hid)]; simp) fun c _ i hi hm => by
      rw [hp i hi]
      split_ifs
      · exact List.mem_append_left _ hm
      · exact hm
  refine ⟨hsh, hr, fun c hh hc => ?_, fun c => ?_⟩
  · obtain ⟨i, hi, hle, hm⟩ := hh
    have hne : c.page ≠ ptr := by
      rintro rfl
      exact hno i hi hle hm
    rw [ho c hne]
    exact hc
  · exact Counted.formatted (h.counted c) fun heq => (he c heq).2

theorem Shape.take (h : Shape cfg s cls kind) {slots : List Chunk}
    (hs : (s.slabclass id).slots = c :: slots) :
    Shape cfg { s.setClass id { s.slabclass id with
        slots := slots, slCurr := (s.slabclass id).slCurr - 1 } with
      chunks := update s.chunks c .inUse } cls (update kind c .taken) := by
  obtain ⟨hf, -⟩ := (h.listed.mem_iff id c).mp (by rw [hs]; exact .head _)
  have hk := h.kind_free (c := c) (by simp [hf])
  have hpa : ∀ i, (({ s.setClass id { s.slabclass id with
        slots := slots, slCurr := (s.slabclass id).slCurr - 1 } with
      chunks := update s.chunks c .inUse } : SlabState).slabclass i).pages =
      (s.slabclass i).pages := by
    intro i
    obtain rfl | hi := eq_or_ne i id
    · exact pages_congr (by simp [SlabState.setClass]) (by simp [SlabState.setClass])
    · simp [SlabState.setClass, hi]
  refine ⟨h.listed.pop hs .inUse (by simp), fun p hp => (h.home p ?_).congr (hpa _),
    fun p hp => ?_, ?_, ?_⟩
  · obtain rfl | hne := eq_or_ne p c
    · exact .inl hf
    · simpa [hne] using hp
  · obtain rfl | hne := eq_or_ne p c
    · simp
    · simpa [hne] using h.used p (by simpa [hne] using hp)
  · intro p linked chain hp
    obtain rfl | hne := eq_or_ne p c
    · simp at hp
    rw [update_of_ne hne] at hp
    obtain ⟨hn, hpar⟩ := h.chain hp
    refine ⟨hn, fun q hq => ?_⟩
    have hqp := hpar q hq
    have hqc : q ≠ c := ne_of_kind hqp hk (by simp)
    simpa [hqc] using hqp
  · intro p head hp
    obtain rfl | hne := eq_or_ne p c
    · simp at hp
    rw [update_of_ne hne] at hp
    obtain ⟨linked, chain, hh, hm⟩ := h.part hp
    have hhc : head ≠ c := ne_of_kind hh hk (by simp)
    exact ⟨linked, chain, by simpa [hhc] using hh, hm⟩

theorem kind_update (hdr : Chunk → Header) (c : Chunk) (h : Header) :
    (fun p => (update hdr c h p).kind) =
      update (fun p => (hdr p).kind) c h.kind := by
  funext p
  obtain rfl | hn := eq_or_ne p c
  · simp
  · simp [hn]

theorem clsid_update (hdr : Chunk → Header) (hc : h.clsid = (hdr c).clsid) :
    (fun p => (update hdr c h p).clsid) = fun p => (hdr p).clsid := by
  funext p
  obtain rfl | hn := eq_or_ne p c
  · simp [hc]
  · simp [hn]

theorem kind_setHdr (m : PageState) (c : Chunk) (f : Header → Header) :
    (m.setHdr c f).kind = update m.kind c (f (m.hdr c)).kind :=
  kind_update m.hdr c _

theorem clsid_setHdr (m : PageState) (c : Chunk) (f : Header → Header)
    (hf : (f (m.hdr c)).clsid = (m.hdr c).clsid) : (m.setHdr c f).clsid = m.clsid :=
  clsid_update m.hdr hf

theorem counted_update (hr : ∀ p ≠ c, (hdr p).Counted) (hc : h.Counted) (p : Chunk) :
    (update hdr c h p).Counted := by
  obtain rfl | hn := eq_or_ne p c
  · simpa using hc
  · simpa [hn] using hr p hn

theorem PageInv.allocChunk (h : PageInv cfg m) {lib : LibC}
    (hf : lib.Fresh m.slabs) (hsa : MoveSafe cfg m.slabs (.alloc id false lib)) :
    PageInv cfg (allocChunk cfg m id lib) := by
  have hst : step cfg m.slabs (.alloc id false lib) =
      some ((doSlabsAlloc cfg m.slabs id false lib).1,
        { handed := (doSlabsAlloc cfg m.slabs id false lib).2.2 }) := if_pos hf
  have ho := step_owned h.own h.mover hst
  have hm := step_mover h.mover hsa hst
  by_cases hi : id < powerSmallest ∨ id > cfg.powerLargest
  · have he : doSlabsAlloc cfg m.slabs id false lib = (m.slabs, none, none) := if_pos hi
    have hsam : Slabs.allocChunk cfg m id lib = m := by
      simp only [Slabs.allocChunk, he, newslabHdr]
    rw [hsam]
    exact h
  -- the state after a new page was asked for, if one was
  obtain ⟨n, hn, hs, hr, hk, hco⟩ : ∃ n : SlabState × Option Page,
      n = (if (m.slabs.slabclass id).slCurr = 0 ∧ false = false then
        doSlabsNewslab cfg m.slabs id lib else (m.slabs, none)) ∧
      Shape cfg n.1 (fun c => (newslabHdr m.hdr n.2 id c).clsid)
        (fun c => (newslabHdr m.hdr n.2 id c).kind) ∧
      n.1.rebal = m.slabs.rebal ∧ KeepsCleared cfg m.slabs n.1 ∧
      ∀ c, (newslabHdr m.hdr n.2 id c).Counted := by
    by_cases hz : (m.slabs.slabclass id).slCurr = 0 ∧ false = false
    · exact ⟨_, (if_pos hz).symm, h.newslab hf (by omega) (by omega)⟩
    · exact ⟨_, (if_neg hz).symm, h.shape, rfl, fun _ _ hc => hc, h.counted⟩
  have hpo := doSlabsAlloc_of_valid hi hn
  rcases hsl : (n.1.slabclass id).slots with _ | ⟨c, slots⟩
  · have he : doSlabsAlloc cfg m.slabs id false lib = (n.1, none, n.2) := by
      rw [hpo, hsl]
    have hres : Slabs.allocChunk cfg m id lib = ⟨n.1, newslabHdr m.hdr n.2 id⟩ := by
      simp only [Slabs.allocChunk, he]
    rw [he] at ho hm
    rw [hres]
    exact ⟨ho, hm, hs, hk.progress h.mover h.progress hr, hco⟩
  have he : doSlabsAlloc cfg m.slabs id false lib =
      ({ n.1.setClass id { n.1.slabclass id with
          slots := slots, slCurr := (n.1.slabclass id).slCurr - 1 } with
        chunks := update n.1.chunks c .inUse }, some c, n.2) := by
    simp only [hpo, hsl, if_pos (hs.listed.slCurr_ne_zero hsl)]
  have hfr : n.1.chunks c = .slabbed :=
    ((hs.listed.mem_iff id c).mp (by rw [hsl]; exact .head _)).1
  have hkin := hs.kind_free (c := c) (by simp [hfr])
  have hre := (hco c).free hkin
  have ht := hs.take hsl
  rw [he] at ho hm
  simp only [Slabs.allocChunk, he]
  refine ⟨ho, hm, ?_, ?_, ?_⟩
  · have hcls := clsid_update (newslabHdr m.hdr n.2 id) (c := c)
      (h := (newslabHdr m.hdr n.2 id c).take) rfl
    have hki := kind_update (newslabHdr m.hdr n.2 id) c (newslabHdr m.hdr n.2 id c).take
    rw [← hcls, show update (fun p => (newslabHdr m.hdr n.2 id p).kind) c .taken = _ from
      hki.symm] at ht
    exact ht
  · refine KeepsCleared.progress (fun p hh hp => ?_) h.mover h.progress hr
    have hpc : p ≠ c := by
      rintro rfl
      have hcl := hk p hh hp
      rw [hfr] at hcl
      cases hcl
    simpa [hpc] using hk p hh hp
  · exact counted_update (fun p _ => hco p) ⟨rfl, by simp [Header.take, hre]⟩

/-! ## References -/

theorem Shape.setLinked (h : Shape cfg s cls kind) {linked : Bool}
    (hc : kind c = .item linked chain) (linked' : Bool) :
    Shape cfg s cls (update kind c (.item linked' chain)) := by
  refine h.setKind (.inr ⟨_, _, hc⟩) (.inr ⟨_, _, rfl⟩) (fun _ l hl => ?_) fun _ l hl => ?_
  · rw [hc] at hl
    obtain ⟨-, rfl⟩ := Kind.item.inj hl
    exact ⟨linked', rfl⟩
  · obtain ⟨-, rfl⟩ := Kind.item.inj hl
    exact .inr ⟨linked, hc⟩

theorem PageInv.write (h : PageInv cfg m) (hcl : (fun p => (hdr p).clsid) = m.clsid)
    (hs : Shape cfg m.slabs m.clsid fun p => (hdr p).kind) (hc : ∀ c, (hdr c).Counted) :
    PageInv cfg { m with hdr := hdr } := by
  refine ⟨h.own, h.mover, ?_, h.progress, hc⟩
  show Shape cfg m.slabs (fun p => (hdr p).clsid) fun p => (hdr p).kind
  rw [hcl]
  exact hs

theorem Shape.not_mem_footprint (h : Shape cfg s cls kind) (hh : IsHead (kind c)) {p : Chunk}
    (hp : s.chunks p = .cleared) : p ∉ footprint kind c := by
  intro hm
  have hn : kind p ≠ .free := by
    obtain rfl | hpa := h.mem_footprint hm
    · exact hh.ne_free
    · simp [hpa]
  have hu := h.used p hn
  rw [hp] at hu
  cases hu

theorem itemFree_eq (hs : Shape cfg m.slabs m.clsid m.kind) (hc : IsHead (m.kind c)) :
    itemFree cfg m c =
      { slabs := doSlabsFreeChunked m.slabs (m.parts (footprint m.kind c))
        hdr := freed m.hdr (footprint m.kind c) } := by
  obtain ⟨hsm, hl, -⟩ := hs.home c (.inr hc.ne_free)
  have ho : ¬(m.clsid c < powerSmallest ∨ m.clsid c > cfg.powerLargest) := by omega
  rcases hk : m.kind c with _ | _ | ⟨linked, _ | chain⟩ | head
  · exact absurd hk hc.ne_free
  · simp only [itemFree, footprint, hk, doSlabsFree, if_neg ho]
    rfl
  · simp only [itemFree, footprint, hk, doSlabsFree, if_neg ho]
    rfl
  · simp only [itemFree, footprint, hk]
  · exact absurd hk (hc.ne_part head)

theorem kind_freed (hdr : Chunk → Header) (l : List Chunk) :
    (fun p => (freed hdr l p).kind) = without (fun p => (hdr p).kind) l := by
  funext p
  unfold freed without
  split_ifs <;> rfl

theorem clsid_freed (hdr : Chunk → Header) (l : List Chunk) :
    (fun p => (freed hdr l p).clsid) = fun p => (hdr p).clsid := by
  funext p
  unfold freed
  split_ifs <;> rfl

/-- The references of an item about to be given up by one: the reference is no longer
counted in `refs`, or the item is no longer linked. -/
def GivesUp (h : Header) : Prop :=
  0 < h.refcount ∧ h.refcount < 65536 ∧
    (h.kind = .taken ∧ h.refcount = 1 ∧ h.refs = 0 ∨
      ∃ linked chain, h.kind = .item linked chain ∧ h.refcount = h.refs + linked.toNat + 1)

theorem GivesUp.isHead (hg : GivesUp h) : IsHead h.kind := by
  obtain ⟨-, -, ⟨ht, -⟩ | ⟨linked, chain, hi, -⟩⟩ := hg
  · exact .inl ht
  · exact .inr ⟨linked, chain, hi⟩

theorem GivesUp.refs_eq_zero (hg : GivesUp h) (hl : h.refcount = 1) : h.refs = 0 := by
  obtain ⟨-, -, ⟨-, -, hr⟩ | ⟨linked, chain, -, hc⟩⟩ := hg
  · exact hr
  · omega

theorem PageInv.doItemRemove (ho : Owned cfg m.slabs none)
    (hm : Mover cfg m.slabs) (hsh : Shape cfg m.slabs m.clsid m.kind)
    (hpr : Progress cfg m.slabs) (hr : ∀ p ≠ c, (m.hdr p).Counted)
    (hc : GivesUp (m.hdr c)) : PageInv cfg (doItemRemove cfg m c) := by
  obtain ⟨hpo, hlt, hk⟩ := hc
  have hd : ((m.hdr c).refcount + 65535) % 65536 = (m.hdr c).refcount - 1 := by omega
  -- the state with the counter decremented
  obtain ⟨m1, hm1⟩ : ∃ m1, m1 = m.setHdr c fun h =>
      { h with refcount := (m.hdr c).refcount - 1 } := ⟨_, rfl⟩
  have hki : m1.kind = m.kind := by
    rw [hm1]
    refine (kind_update m.hdr c _).trans ?_
    exact update_eq_self c _
  have hcl : m1.clsid = m.clsid := by
    rw [hm1]
    exact clsid_update m.hdr rfl
  have hs : m1.slabs = m.slabs := by
    rw [hm1]
    rfl
  have hs1 : Shape cfg m1.slabs m1.clsid m1.kind := by
    rw [hs, hcl, hki]
    exact hsh
  have hhd : ∀ p ≠ c, m1.hdr p = m.hdr p := by
    intro p hp
    rw [hm1]
    exact update_of_ne hp _ _
  simp only [Slabs.doItemRemove, hd, ← hm1]
  by_cases hl : (m.hdr c).refcount = 1
  · rw [if_pos (by omega)]
    have hh : IsHead (m1.kind c) := by
      rw [hki]
      exact GivesUp.isHead ⟨hpo, hlt, hk⟩
    have href := GivesUp.refs_eq_zero ⟨hpo, hlt, hk⟩ hl
    rw [itemFree_eq hs1 hh]
    obtain ⟨hf, hre, hch⟩ := hs1.free hh
    have hv : (doSlabsFreeChunked m1.slabs (m1.parts (footprint m1.kind c))).view =
        m.slabs.view := by rw [view_doSlabsFreeChunked, hs]
    refine ⟨ho.of_view hv,
      hm.congr (mover_eq_of_view hv) fun _ => .of_view hv _, ?_, ?_, fun p => ?_⟩
    · show Shape cfg _ (fun p => (freed m1.hdr _ p).clsid) fun p => (freed m1.hdr _ p).kind
      rw [clsid_freed, kind_freed]
      exact hf
    · refine hpr.congr (hre.trans (by rw [hs])) fun page _ _ i hi => ?_
      show (doSlabsFreeChunked m1.slabs (m1.parts (footprint m1.kind c))).chunks _ = _
      rw [PageState.parts, hch]
      have hno := hs1.not_mem_footprint hh (by rw [hs]; exact hi)
      simp only [hno, if_false, hs]
      exact hi
    by_cases hme : p ∈ footprint m1.kind c
    · have hz : (m1.hdr p).refs = 0 := by
        obtain rfl | hn := eq_or_ne p c
        · rw [hm1]
          simpa [PageState.setHdr] using href
        obtain he | hpa := hs1.mem_footprint hme
        · exact absurd he hn
        rw [hki] at hpa
        rw [hhd p hn]
        exact (hr p hn).part hpa
      simpa [freed, hme, Header.Counted] using hz
    · have hn : p ≠ c := by
        rintro rfl
        exact hme (mem_footprint_self _ p)
      simpa [freed, hme, hhd p hn] using hr p hn
  · rw [if_neg (by omega)]
    obtain ⟨-, hon, -⟩ | ⟨linked, chain, hite, hco⟩ := hk
    · exact absurd hon hl
    refine ⟨by rw [hs]; exact ho, by rw [hs]; exact hm, hs1,
      by rw [hs]; exact hpr, ?_⟩
    rw [hm1]
    refine counted_update hr ?_
    simp only [Header.Counted, hite]
    omega

theorem PageInv.unlink (h : PageInv cfg m) (hc : m.kind c = .item true chain) :
    PageInv cfg (Slabs.doItemRemove cfg
      (m.setHdr c fun h => { h with kind := .item false chain }) c) := by
  obtain ⟨hl, hpo, hco⟩ := (h.counted c).item hc
  refine PageInv.doItemRemove h.own h.mover ?_ h.progress (fun p hp => ?_) ?_
  · rw [kind_setHdr, clsid_setHdr]
    on_goal 2 => rfl
    exact h.shape.setLinked hc false
  · simpa [PageState.setHdr, hp] using h.counted p
  · refine ⟨by simpa [PageState.setHdr] using hpo, by simpa [PageState.setHdr] using hl,
      .inr ⟨false, chain, by simp [PageState.setHdr], ?_⟩⟩
    simpa [PageState.setHdr] using hco

theorem PageInv.release (h : PageInv cfg m) (hc : 0 < (m.hdr c).refs) :
    PageInv cfg (Slabs.doItemRemove cfg (m.setHdr c fun h => { h with refs := h.refs - 1 }) c) := by
  have hco := h.counted c
  refine PageInv.doItemRemove h.own h.mover ?_ h.progress (fun p hp => ?_) ?_
  · rw [kind_setHdr, clsid_setHdr]
    on_goal 2 => rfl
    rw [show update m.kind c (m.hdr c).kind = m.kind from update_eq_self c m.kind]
    exact h.shape
  · simpa [PageState.setHdr, hp] using h.counted p
  unfold Header.Counted at hco
  rcases hk : (m.hdr c).kind with _ | _ | ⟨linked, chain⟩ | head <;>
    simp only [hk] at hco
  · omega
  · refine ⟨by simp [PageState.setHdr, hco.1], by simp [PageState.setHdr, hco.1],
      .inl ⟨by simp [PageState.setHdr, hk], by simp [PageState.setHdr, hco.1],
        by simp [PageState.setHdr, hco.2]⟩⟩
  · refine ⟨by simpa [PageState.setHdr] using hco.2.1,
      by simpa [PageState.setHdr] using hco.1,
      .inr ⟨linked, chain, by simp [PageState.setHdr, hk], ?_⟩⟩
    simp only [PageState.setHdr, update_self]
    omega
  · omega

/-! ## The mover looks at a chunk -/

theorem itemOf_of_head (h : IsHead (m.kind c)) : m.itemOf c = c := by
  unfold PageState.itemOf
  split
  · rename_i head hp
    exact absurd hp (h.ne_part head)
  · rfl

theorem moveStatus_cases (hs : Shape cfg m.slabs m.clsid m.kind) (c : Chunk) (g : Glance) :
    moveStatus m c g = .busy ∨
    (m.kind c = .item true none ∧ m.Idle c ∧
      (moveStatus m c g = .expired ∨ moveStatus m c g = .save)) ∨
    ∃ chain, m.kind (m.itemOf c) = .item true (some chain) ∧ m.Idle (m.itemOf c) ∧
      moveStatus m c g = .chunked (m.parts (m.itemOf c :: chain)) g.expired := by
  unfold moveStatus
  split
  · rename_i chain hk
    by_cases hb : g.locked = true ∨ ¬m.Idle (m.itemOf c)
    · rw [if_pos hb]
      exact .inl rfl
    rw [if_neg hb]
    have hi : m.Idle (m.itemOf c) := by
      by_contra hn
      exact hb (.inr hn)
    cases chain with
    | some chain => exact .inr (.inr ⟨chain, hk, hi, rfl⟩)
    | none =>
      have hse : m.itemOf c = c := by
        unfold PageState.itemOf at hk ⊢
        split at hk
        · rename_i head hp
          obtain ⟨linked, chain, hite, -⟩ := hs.part hp
          rw [hite] at hk
          cases hk
        · rfl
      rw [hse] at hk hi
      refine .inr (.inl ⟨hk, hi, ?_⟩)
      cases g.expired with
      | true => exact .inl rfl
      | false => exact .inr rfl
  · exact .inl rfl

theorem PageInv.idle (h : PageInv cfg m) (hk : m.kind c = .item true chain) (hi : m.Idle c) :
    (m.hdr c).refcount = 1 ∧ (m.hdr c).refs = 0 := by
  obtain ⟨hl, hp, hc⟩ := (h.counted c).item hk
  simp only [PageState.Idle, Bool.toNat_true] at hi hc
  omega

/-- What looking at a chunk leaves: cleared chunks stay cleared, and the chunk is busy
or cleared. -/
def Looked (s : SlabState) (c : Chunk) (s' : SlabState) : Prop :=
  (∀ p, s.chunks p = .cleared → s'.chunks p = .cleared) ∧
  (s'.rebal = { s.rebal with busyItems := s.rebal.busyItems + 1 } ∨
    s'.chunks c = .cleared ∧ (s'.rebal = s.rebal ∨
      s'.rebal = { s.rebal with completed := update s.rebal.completed c.idx true }))

/-- The state and the headers after the look. -/
def LookOk (cfg : Config) (s : SlabState) (c : Chunk) (s' : SlabState) (hdr : Chunk → Header) :
    Prop :=
  Shape cfg s' (fun p => (hdr p).clsid) (fun p => (hdr p).kind) ∧ (∀ p, (hdr p).Counted) ∧
    Looked s c s'

theorem kind_clearHdr (hdr : Chunk → Header) (c : Chunk) :
    (fun p => (clearHdr hdr c p).kind) = without (fun p => (hdr p).kind) [c] := by
  refine (kind_update hdr c _).trans (funext fun p => ?_)
  obtain rfl | hn := eq_or_ne p c
  · simp [without]
  · simp [without, hn]

theorem clsid_clearHdr (hdr : Chunk → Header) (c : Chunk) :
    (fun p => (clearHdr hdr c p).clsid) = fun p => (hdr p).clsid :=
  clsid_update hdr rfl

variable {s1 : SlabState}

theorem looked_markCompleted (hk : ∀ p, s.chunks p = .cleared → s1.chunks p = .cleared)
    (hr : s1.rebal = s.rebal) : Looked s c (markCompleted s1 c) := by
  refine ⟨fun p hp => ?_, .inr ⟨by simp [markCompleted], .inr (by simp [markCompleted, hr])⟩⟩
  obtain rfl | hn := eq_or_ne p c
  · simp [markCompleted]
  · simpa [markCompleted, hn] using hk p hp

theorem PageInv.evict_plain (h : PageInv cfg m)
    (hs : Shape cfg s1 m.clsid m.kind) (hr : s1.rebal = m.slabs.rebal)
    (hke : ∀ p, m.slabs.chunks p = .cleared → s1.chunks p = .cleared)
    (hk : m.kind c = .item true none) (hi : m.Idle c) :
    LookOk cfg m.slabs c (markCompleted s1 c) (evictHdr m c) := by
  have hh : IsHead (m.kind c) := .inr ⟨_, _, hk⟩
  have he : evictHdr m c = clearHdr m.hdr c := by
    simp only [evictHdr, itemOf_of_head hh, hk]
  have hc := hs.clear hh (by simp [footprint, hk])
  refine ⟨?_, ?_, looked_markCompleted hke hr⟩ <;> rw [he]
  · rw [clsid_clearHdr, kind_clearHdr]
    exact hc
  · exact counted_update (fun p _ => h.counted p) (h.idle hk hi).2

theorem PageInv.evict_chunked (h : PageInv cfg m)
    {chain : List Chunk} (hs : Shape cfg s1 m.clsid m.kind) (hr : s1.rebal = m.slabs.rebal)
    (hke : ∀ p, m.slabs.chunks p = .cleared → s1.chunks p = .cleared)
    (hk : m.kind (m.itemOf c) = .item true (some chain)) (hi : m.Idle (m.itemOf c)) :
    LookOk cfg m.slabs c (markBusy (doSlabsFreeChunked s1 (m.parts (m.itemOf c :: chain))))
      (evictHdr m c) := by
  have hh : IsHead (m.kind (m.itemOf c)) := .inr ⟨_, _, hk⟩
  have hf : footprint m.kind (m.itemOf c) = m.itemOf c :: chain := by simp [footprint, hk]
  have he : evictHdr m c = freed m.hdr (m.itemOf c :: chain) := by
    simp only [evictHdr, hk]
  have hfr := hs.free hh
  rw [hf] at hfr
  obtain ⟨hfre, hr', hc⟩ := hfr
  refine ⟨?_, fun p => ?_, fun p hp => ?_, .inl ?_⟩
  · rw [he, clsid_freed, kind_freed]
    exact hfre.congr rfl rfl
  · rw [he]
    by_cases hm : p ∈ m.itemOf c :: chain
    · have hz : (m.hdr p).refs = 0 := by
        obtain rfl | hin := List.mem_cons.mp hm
        · exact (h.idle hk hi).2
        · have hpa := (h.shape.chain hk).2 p hin
          exact (h.counted p).part hpa
      simpa [freed, hm, Header.Counted] using hz
    · simpa [freed, hm] using h.counted p
  · show (doSlabsFreeChunked s1 _).chunks p = .cleared
    rw [PageState.parts, hc]
    have hn := h.shape.not_mem_footprint hh hp
    rw [hf] at hn
    simpa [hn] using hke p hp
  · simp only [markBusy, PageState.parts, hr', hr]

theorem PageInv.rescue (h : PageInv cfg m) {c new : Chunk}
    (hp : m.slabs.rebal.slabStart = some c.page)
    (hs : Shape cfg s1 m.clsid m.kind) (hre : s1.rebal = m.slabs.rebal)
    (hke : ∀ p, m.slabs.chunks p = .cleared → s1.chunks p = .cleared)
    (hsl : m.slabs.chunks new = .slabbed) (hn : s1.chunks new = .inUse)
    (hcls : m.clsid new = m.slabs.rebal.sClsid) (hho : Home cfg s1 (m.clsid new) new)
    (hk : (∃ chain, m.kind c = .item true chain ∧ m.Idle c) ∨
      ∃ head linked chain, m.kind c = .part head ∧ m.kind head = .item linked (some chain)) :
    LookOk cfg m.slabs c (markCompleted s1 c) (rescueHdr m c new) := by
  have hf : m.kind new = .free := h.shape.kind_free (by simp [hsl])
  have hr : (m.hdr new).refs = 0 := (h.counted new).free hf
  have hne : m.kind c ≠ .free := by
    obtain ⟨_, hc, -⟩ | ⟨_, _, _, hc, -⟩ := hk <;> simp [hc]
  have hcl : (m.hdr c).clsid = (m.hdr new).clsid :=
    (h.clsid_eq hp (.inr hne)).trans hcls.symm
  have hc' : (fun p => (rescueHdr m c new p).clsid) = m.clsid := by
    funext p
    unfold PageState.clsid
    obtain ⟨chain, hc, -⟩ | ⟨head, linked, chain, hc, hh⟩ := hk
    · simp only [rescueHdr, hc]
      split_ifs <;> simp_all
    · simp only [rescueHdr, hc, hh]
      split_ifs <;> simp_all
  refine ⟨?_, ?_, looked_markCompleted hke hre⟩
  · obtain ⟨chain, hc, -⟩ | ⟨head, linked, chain, hc, hh⟩ := hk
    · have hk' : (fun p => (rescueHdr m c new p).kind) =
          rescuedItem m.kind (chain.getD []) c new := by
        funext p
        simp only [rescueHdr, hc, rescuedItem]
        split_ifs <;> rfl
      rw [hc', hk']
      exact hs.rescueItem hc hf hn hho
    have hk' : (fun p => (rescueHdr m c new p).kind) =
        rescuedPart m.kind linked chain head c new := by
      funext p
      simp only [rescueHdr, hc, hh, rescuedPart]
      split_ifs
      · rfl
      · exact hc
      · rfl
      · rfl
    rw [hc', hk']
    exact hs.rescuePart hc hh hf hn hho
  · intro p
    obtain ⟨chain, hc, hi⟩ | ⟨head, linked, chain, hc, hh⟩ := hk
    · simp only [rescueHdr, hc]
      split_ifs with hpc hpn hm
      · exact (h.idle hc hi).2
      · simp [Header.Counted, hr]
      · have hpa : m.kind p = .part c := by
          cases chain with
          | none => simp at hm
          | some l => exact (h.shape.chain hc).2 p hm
        exact (h.counted p).part hpa
      · exact h.counted p
    · have hco := (h.counted c).part hc
      simp only [rescueHdr, hc, hh]
      split_ifs with hpc hpn hph
      · exact hco
      · simpa [Header.Counted, show (m.hdr c).kind = .part head from hc] using hr
      · exact (h.counted head).item hh
      · exact h.counted p

theorem PageInv.busy (h : PageInv cfg m) (c it : Chunk) (g : Glance) :
    LookOk cfg m.slabs c (markBusy m.slabs) (busyHdr m it g) := by
  have hl : Looked m.slabs c (markBusy m.slabs) := ⟨fun _ hp => hp, .inl rfl⟩
  have hmark : ∀ {kind}, Shape cfg m.slabs m.clsid kind →
      Shape cfg (markBusy m.slabs) m.clsid kind := fun hs => hs.congr rfl rfl
  unfold busyHdr
  split
  · rename_i chain hk
    split_ifs with ho
    · obtain ⟨hlt, hpo, hc⟩ := (h.counted it).item hk
      simp only [Bool.toNat_true] at hc
      refine ⟨?_, counted_update (fun p _ => h.counted p) ?_, hl⟩
      · rw [clsid_update, kind_update]
        on_goal 2 => rfl
        exact hmark (h.shape.setLinked hk false)
      · simp only [Header.Counted, Bool.toNat_false]
        omega
    · exact ⟨hmark h.shape, h.counted, hl⟩
  · exact ⟨hmark h.shape, h.counted, hl⟩

theorem PageInv.reclaim (h : PageInv cfg m) (lib : LibC) :
    let r := slabRebalanceAlloc cfg m.slabs.rebal.sClsid m.slabs.rebal.slabStart lib
      (cfg.perslab m.slabs.rebal.sClsid) m.slabs
    Shape cfg r.1 m.clsid m.kind ∧ r.1.rebal = m.slabs.rebal ∧
      (∀ p, m.slabs.chunks p = .cleared → r.1.chunks p = .cleared) ∧
      ∀ new, r.2 = some new → m.slabs.chunks new = .slabbed ∧ r.1.chunks new = .inUse ∧
        m.clsid new = m.slabs.rebal.sClsid ∧ Home cfg r.1 (m.clsid new) new := by
  intro r
  obtain ⟨hl, hr, hst⟩ := h.shape.listed.slabRebalanceAlloc cfg
    m.slabs.rebal.sClsid m.slabs.rebal.slabStart lib (cfg.perslab m.slabs.rebal.sClsid)
  have hpa := pages_eq_of_view (view_slabRebalanceAlloc cfg m.slabs.rebal.sClsid
    m.slabs.rebal.slabStart lib (cfg.perslab m.slabs.rebal.sClsid) m.slabs)
  refine ⟨hst.shape h.shape hl hpa, hr, fun p hp => ?_, fun new hn => ?_⟩
  · obtain hsa | ⟨hs, -⟩ := hst.1 p
    · exact hsa.trans hp
    · rw [hp] at hs
      cases hs
  · obtain ⟨hs, hu, hc⟩ := hst.2 new hn
    exact ⟨hs, hu, hc, (h.shape.home new (.inl hs)).congr (hpa _)⟩

theorem rescuable_of_chunked (hs : Shape cfg m.slabs m.clsid m.kind)
    {chain : List Chunk} (hk : m.kind (m.itemOf c) = .item true (some chain))
    (hi : m.Idle (m.itemOf c)) :
    (∃ chain, m.kind c = .item true chain ∧ m.Idle c) ∨
      ∃ head linked chain, m.kind c = .part head ∧ m.kind head = .item linked (some chain) := by
  rcases hc : m.kind c with _ | _ | ⟨linked, l⟩ | head
  · simp [PageState.itemOf, hc] at hk
  · simp [PageState.itemOf, hc] at hk
  · have hse : m.itemOf c = c := itemOf_of_head (.inr ⟨_, _, hc⟩)
    rw [hse] at hk hi
    exact .inl ⟨some chain, hc ▸ hk, hi⟩
  · obtain ⟨linked, l, hh, -⟩ := hs.part hc
    exact .inr ⟨head, linked, l, rfl, hh⟩

/-- **Look.** Whatever the chunk under `slab_pos` holds, the look keeps the free lists
and the chunks in order, and leaves the chunk cleared unless it was busy. -/
theorem PageInv.look (h : PageInv cfg m)
    (hpa : m.slabs.rebal.slabStart = some c.page) (g : Glance) (lib : LibC) :
    LookOk cfg m.slabs c (slabRebalanceMoveChunk cfg m.slabs c (moveStatus m c g) lib)
      (lookHdr cfg m c g lib) := by
  obtain ⟨hs1, hr1, hk1, hn⟩ := h.reclaim lib
  rcases hc : m.slabs.chunks c with _ | _ | _
  · -- free: it is taken off its list
    have hcl := h.clsid_eq hpa (.inl hc)
    have hf := h.shape.kind_free (c := c) (by simp [hc])
    have hw : without m.kind [c] = m.kind := by
      funext p
      obtain rfl | hne := eq_or_ne p c
      · simp [without, hf]
      · simp [without, hne]
    have hr : (m.hdr c).refs = 0 := (h.counted c).free hf
    simp only [slabRebalanceMoveChunk, lookHdr, hc]
    refine ⟨?_, counted_update (fun p _ => h.counted p) hr, looked_markCompleted ?_ rfl⟩
    · rw [clsid_clearHdr, kind_clearHdr]
      exact hw.symm ▸ h.shape.cutFree hc hcl
    · exact fun p hp => hp
  · simp only [slabRebalanceMoveChunk, lookHdr, hc]
    exact ⟨h.shape, h.counted, fun _ hp => hp, .inr ⟨hc, .inl rfl⟩⟩
  rcases moveStatus_cases h.shape c g with hb | ⟨hk, hi, he | hsa⟩ |
    ⟨chain, hk, hi, hs⟩
  · simp only [slabRebalanceMoveChunk, lookHdr, hc, hb]
    exact h.busy c _ g
  · simp only [slabRebalanceMoveChunk, lookHdr, hc, he, slabRebalanceEvict]
    exact h.evict_plain h.shape rfl (fun _ hp => hp) hk hi
  · simp only [slabRebalanceMoveChunk, lookHdr, hc, hsa, slabRebalanceSave]
    generalize slabRebalanceAlloc cfg m.slabs.rebal.sClsid m.slabs.rebal.slabStart lib
      (cfg.perslab m.slabs.rebal.sClsid) m.slabs = r at *
    obtain ⟨s1, new⟩ := r
    cases new with
    | none => exact h.evict_plain hs1 hr1 hk1 hk hi
    | some new =>
      obtain ⟨hsl, hu, hcl, hh⟩ := hn new rfl
      exact h.rescue hpa hs1 hr1 hk1 hsl hu hcl hh
        (.inl ⟨none, hk, hi⟩)
  rcases hexp : g.expired with _ | _
  · rw [hexp] at hs
    simp only [slabRebalanceMoveChunk, lookHdr, hc, hs, slabRebalanceSave]
    generalize slabRebalanceAlloc cfg m.slabs.rebal.sClsid m.slabs.rebal.slabStart lib
      (cfg.perslab m.slabs.rebal.sClsid) m.slabs = r at *
    obtain ⟨s1, new⟩ := r
    cases new with
    | none => exact h.evict_chunked hs1 hr1 hk1 hk hi
    | some new =>
      obtain ⟨hsl, hu, hcl, hh⟩ := hn new rfl
      exact h.rescue hpa hs1 hr1 hk1 hsl hu hcl hh
        (rescuable_of_chunked h.shape hk hi)
  · rw [hexp] at hs
    simp only [slabRebalanceMoveChunk, lookHdr, hc, hs, slabRebalanceEvict]
    exact h.evict_chunked h.shape rfl (fun _ hp => hp) hk hi

/-! ## A pass of the mover -/

theorem Progress.advance (h : Progress cfg s)
    (hp : s.rebal.slabStart = some page) (hdo : s.rebal.done = 0)
    (hl : Looked s ⟨page, s.rebal.slabPos⟩ s') : Progress cfg (advanceSlabPos cfg s') := by
  obtain ⟨hk, hr⟩ := hl
  have hsr : s'.rebal.sClsid = s.rebal.sClsid ∧ s'.rebal.slabStart = s.rebal.slabStart ∧
      s'.rebal.slabPos = s.rebal.slabPos ∧ s'.rebal.done = s.rebal.done := by
    obtain he | ⟨-, he | he⟩ := hr <;> rw [he] <;> exact ⟨rfl, rfl, rfl, rfl⟩
  obtain ⟨hcl, hs, hpos, hd'⟩ := hsr
  have hpo : s.rebal.sClsid ≠ globalPagePool := fun he => h.pool (by simp [hp]) he hdo
  have hco : ∀ i, s'.rebal.completed i = true → s'.chunks ⟨page, i⟩ = .cleared := by
    intro i hi
    obtain he | ⟨hc, he | he⟩ := hr <;> rw [he] at hi
    · exact hk _ (h.completed page hp hpo i hi)
    · exact hk _ (h.completed page hp hpo i hi)
    obtain rfl | hip := eq_or_ne i s.rebal.slabPos
    · exact hc
    · exact hk _ (h.completed page hp hpo i (by simpa [hip] using hi))
  have hpa : s'.rebal.busyItems = 0 →
      ∀ i < s'.rebal.slabPos + 1, s'.chunks ⟨page, i⟩ = .cleared := by
    intro hb i hi
    rw [hpos] at hi
    have ho : s.rebal.busyItems = 0 ∧ s'.chunks ⟨page, s.rebal.slabPos⟩ = .cleared := by
      obtain he | ⟨hc, he | he⟩ := hr <;> rw [he] at hb
      · simp at hb
      · exact ⟨hb, hc⟩
      · exact ⟨hb, hc⟩
    obtain rfl | hip := eq_or_ne i s.rebal.slabPos
    · exact ho.2
    · exact hk _ (h.passed page hp hpo ho.1 i (by omega))
  have hn : ∀ {p : Prop}, s'.rebal.done ≠ 0 → p := fun hd => absurd (hd'.trans hdo) hd
  rw [← hcl] at hpo
  rw [← hs] at hp
  unfold advanceSlabPos
  split_ifs with hen hb
  · exact .of_page hp hpo hco (fun _ i hi => absurd hi (by simp)) hn
  · exact .of_page hp hpo hco hpa fun _ i hi =>
      hpa (by simpa using hb) i (lt_of_lt_of_le hi hen)
  · exact .of_page hp hpo hco hpa hn

theorem Shape.advanceSlabPos (h : Shape cfg s cls kind) :
    Shape cfg (advanceSlabPos cfg s) cls kind := by
  unfold Slabs.advanceSlabPos
  split_ifs <;> exact h.congr rfl rfl

theorem PageInv.movePass (h : PageInv cfg m) (g : Glance) (lib : LibC)
    (hs : m.slabs.slabRebalanceSignal = 2) (hd : m.slabs.rebal.done = 0) :
    PageInv cfg (movePass cfg m g lib) := by
  obtain ⟨page, hpa⟩ := Option.ne_none_iff_exists'.mp (h.mover.started.mp hs)
  simp only [Slabs.movePass, hpa]
  have ho := owned_slabRebalanceMove h.own (moveStatus m ⟨page, m.slabs.rebal.slabPos⟩ g) lib
  have hmo := h.mover.slabRebalanceMove hs
    (moveStatus m ⟨page, m.slabs.rebal.slabPos⟩ g) lib
  by_cases hc : m.slabs.rebal.completed m.slabs.rebal.slabPos = true
  · -- the chunk was completed in an earlier round
    have hm : ∀ found, slabRebalanceMove cfg m.slabs found lib = advanceSlabPos cfg m.slabs := by
      intro found
      simp only [slabRebalanceMove, slabRebalanceLook, hpa, hc, if_true]
    have hpo : m.slabs.rebal.sClsid ≠ globalPagePool := fun he =>
      h.progress.pool (by simp [hpa]) he hd
    rw [hm] at ho hmo
    simp only [hm, hc, if_true]
    refine ⟨ho, hmo, h.shape.advanceSlabPos,
      h.progress.advance hpa hd ⟨fun _ hp => hp, ?_⟩, h.counted⟩
    exact .inr ⟨h.progress.completed page hpa hpo _ hc, .inl rfl⟩
  · obtain ⟨hsh, hco, hl⟩ := h.look (c := ⟨page, m.slabs.rebal.slabPos⟩) hpa g lib
    have hm : ∀ found, slabRebalanceMove cfg m.slabs found lib = advanceSlabPos cfg
        (slabRebalanceMoveChunk cfg m.slabs ⟨page, m.slabs.rebal.slabPos⟩ found lib) := by
      intro found
      simp only [slabRebalanceMove, slabRebalanceLook, hpa, hc]
      rfl
    rw [hm] at ho hmo
    simp only [hm, hc, Bool.false_eq_true, if_false]
    exact ⟨ho, hmo, hsh.advanceSlabPos, h.progress.advance hpa hd hl, hco⟩

/-! ## The end of a move -/

theorem PageInv.moved_empty (h : PageInv cfg m)
    (hp : m.slabs.rebal.slabStart = some page) (hd : m.slabs.rebal.done ≠ 0) (c : Chunk)
    (hc : c.page = page) : m.slabs.chunks c ≠ .slabbed ∧ m.kind c = .free := by
  have hn : ¬(m.slabs.chunks c = .slabbed ∨ m.kind c ≠ .free) := by
    intro hh
    have hcls := h.clsid_eq (c := c) (by rw [hp, hc]) hh
    obtain ⟨hsm, -, -, hi⟩ := h.shape.home c hh
    rw [hcls] at hsm hi
    have hcl := h.progress.done page hp (ne_globalPagePool hsm) hd c.idx hi
    rw [← hc] at hcl
    obtain hs | hk := hh
    · rw [hcl] at hs
      cases hs
    · have hu := h.shape.used c hk
      rw [hcl] at hu
      cases hu
  exact ⟨fun hs => hn (.inl hs), by_contra fun hne => hn (.inr hne)⟩

/-- The page goes from the front of its source to the end of its destination. -/
def movedPage (s : SlabState) (page : Page) : SlabState :=
  let t := s.setClass s.rebal.sClsid (s.slabclass s.rebal.sClsid).shift
  t.setClass s.rebal.dClsid ((t.slabclass s.rebal.dClsid).append page)

theorem sameFree_movedPage (s : SlabState) (page : Page) : SameFree s (movedPage s page) := by
  have hs : SameFree s (s.setClass s.rebal.sClsid (s.slabclass s.rebal.sClsid).shift) :=
    .setClass rfl rfl
  exact hs.trans (.setClass rfl rfl)

theorem mem_pages_movedPage {page p : Page} (hm : Mover cfg s)
    (hpa : s.rebal.slabStart = some page) (hn : p ≠ page)
    (hp : p ∈ (s.slabclass id).pages) : p ∈ ((movedPage s page).slabclass id).pages := by
  obtain ⟨hpo, hf⟩ := hm.first page hpa
  have hs : p ∈ ((s.setClass s.rebal.sClsid (s.slabclass s.rebal.sClsid).shift).slabclass
      id).pages := by
    obtain rfl | hi := eq_or_ne id s.rebal.sClsid
    · rw [pages_shift _ hpo, hf] at hp
      rw [setClass_self]
      exact (List.mem_cons.mp hp).resolve_left hn
    · rw [setClass_of_ne _ _ hi]
      exact hp
  unfold movedPage
  obtain rfl | hi := eq_or_ne id s.rebal.dClsid
  · rw [setClass_self, pages_append]
    exact List.mem_append_left _ hs
  · rw [setClass_of_ne _ _ hi]
    exact hs

theorem page_mem_movedPage (s : SlabState) (page : Page) :
    page ∈ ((movedPage s page).slabclass s.rebal.dClsid).pages := by
  unfold movedPage
  rw [setClass_self, pages_append]
  simp

theorem slabRebalanceFinish_eq (cfg : Config) (hp : s.rebal.slabStart = some page) :
    ∃ t, (s.rebal.dClsid > globalPagePool ∧
        t = splitSlabPageIntoFreelist cfg (movedPage s page) page s.rebal.dClsid ∨
      ¬s.rebal.dClsid > globalPagePool ∧
        t = (memoryRelease cfg { movedPage s page with memLimitReached := false }).1) ∧
    (slabRebalanceFinish cfg s).1.rebal.slabStart = none ∧
    (slabRebalanceFinish cfg s).1.slabclass = t.slabclass ∧
    (slabRebalanceFinish cfg s).1.chunks = t.chunks := by
  by_cases hd : s.rebal.dClsid > globalPagePool
  · refine ⟨_, .inl ⟨hd, rfl⟩, rfl, ?_, ?_⟩ <;>
      simp only [slabRebalanceFinish, hp, Option.getD_some, if_pos hd, movedPage]
  · refine ⟨_, .inr ⟨hd, rfl⟩, rfl, ?_, ?_⟩ <;>
      simp only [slabRebalanceFinish, hp, Option.getD_some, if_neg hd, movedPage]

theorem PageInv.finishMove (h : PageInv cfg m) (hd : m.slabs.rebal.done ≠ 0) :
    PageInv cfg (finishMove cfg m) := by
  obtain ⟨page, hp⟩ := Option.ne_none_iff_exists'.mp (h.mover.done hd)
  have he := h.moved_empty hp hd
  have ho := owned_slabRebalanceFinish h.own h.mover hd
  have hmo := mover_slabRebalanceFinish cfg m.slabs
  obtain ⟨t, ht, hid, hcl, hch⟩ := slabRebalanceFinish_eq cfg hp
  have hm : ∀ c : Chunk, c.page ≠ page → ∀ i, c.page ∈ (m.slabs.slabclass i).pages →
      c.page ∈ ((movedPage m.slabs page).slabclass i).pages := fun c hn i hi =>
    mem_pages_movedPage h.mover hp hn hi
  unfold Slabs.finishMove
  obtain ⟨hds, rfl⟩ | ⟨hds, rfl⟩ := ht
  · simp only [if_pos hds, hp, Option.getD_some]
    obtain ⟨hsh, -, -⟩ := Shape.formatted m.hdr h.shape he hds
      (h.mover.classes (by simp [hp])).2.1 (sameFree_movedPage m.slabs page)
      (.refl (splitSlabPageIntoFreelist cfg (movedPage m.slabs page) page m.slabs.rebal.dClsid))
      (by rw [pages_eq_of_view (view_splitSlabPageIntoFreelist cfg _ page _)]
          exact page_mem_movedPage m.slabs page)
      (fun c hn i _ hi => by
        rw [pages_eq_of_view (view_splitSlabPageIntoFreelist cfg _ page _)]
        exact hm c hn i hi)
    exact ⟨ho, hmo, hsh.congr hcl hch, .of_idle hid,
      fun c => Counted.formatted (h.counted c) fun heq => (he c heq).2⟩
  simp only [if_neg hds]
  have hs : SameFree m.slabs
      (memoryRelease cfg { movedPage m.slabs page with memLimitReached := false }).1 :=
    (sameFree_movedPage m.slabs page).trans (sameFree_memoryRelease cfg
      { movedPage m.slabs page with memLimitReached := false })
  refine ⟨ho, hmo, Shape.congr ?_ hcl hch, .of_idle hid, h.counted⟩
  refine ⟨hs.listed h.shape.listed, fun c hc => ?_, fun c hc => ?_, h.shape.chain, h.shape.part⟩
  · rw [hs.2.2.1] at hc
    obtain ⟨hsm, hl, hme, hidx⟩ := h.shape.home c hc
    have hn : c.page ≠ page := by
      intro heq
      obtain ⟨hsl, hki⟩ := he c heq
      exact hc.elim hsl fun hk => hk hki
    refine ⟨hsm, hl, ?_, hidx⟩
    show _ ∈ ((memoryRelease cfg _).1.slabclass (m.clsid c)).pages
    rw [pages_memoryRelease cfg _ (ne_globalPagePool hsm)]
    exact hm c hn _ hme
  · rw [hs.2.2.1]
    exact h.shape.used c hc

/-! ## Runs -/

theorem moveSafe_of_other {a : Act} (hn : newslabOf cfg s a = none)
    (hl : ∀ n, a ≠ .adjustMemLimit n) : MoveSafe cfg s a := by
  intro _ _
  refine ⟨fun id lib h => ?_, fun n h => absurd h (hl n)⟩
  rw [hn] at h
  cases h

theorem PageInv.adjustMemLimit (h : PageInv cfg m) {n : ℕ}
    (hsa : MoveSafe cfg m.slabs (.adjustMemLimit n)) :
    PageInv cfg { m with slabs := (doSlabsAdjustMemLimit cfg m.slabs n).1 } := by
  have hst : step cfg m.slabs (.adjustMemLimit n) =
      some ((doSlabsAdjustMemLimit cfg m.slabs n).1,
        { released := (doSlabsAdjustMemLimit cfg m.slabs n).2 }) := rfl
  have ho := step_owned h.own h.mover hst
  have hm := step_mover h.mover hsa hst
  have hs : SameFree m.slabs (doSlabsAdjustMemLimit cfg m.slabs n).1 ∧
      ∀ id ≠ globalPagePool, ((doSlabsAdjustMemLimit cfg m.slabs n).1.slabclass id).pages =
        (m.slabs.slabclass id).pages := by
    unfold doSlabsAdjustMemLimit
    split_ifs
    · exact ⟨.refl _, fun _ _ => rfl⟩
    · exact ⟨sameFree_memoryRelease cfg _, fun id hid => pages_memoryRelease cfg _ hid⟩
  refine ⟨ho, hm, h.shape.of_sameFree hs.1 hs.2, ?_, h.counted⟩
  refine h.progress.congr hs.1.2.2.2 fun page _ _ i hi => ?_
  show (doSlabsAdjustMemLimit cfg m.slabs n).1.chunks _ = _
  rw [hs.1.2.2.1]
  exact hi

theorem PageInv.reassign (h : PageInv cfg m) (src dst : ℕ) :
    PageInv cfg { m with slabs := doSlabsReassign cfg m.slabs src dst } := by
  have hst : step cfg m.slabs (.reassign src dst) =
      some (doSlabsReassign cfg m.slabs src dst, {}) := rfl
  have ho := step_owned h.own h.mover hst
  have hm := step_mover h.mover (moveSafe_of_other rfl (by simp)) hst
  have hsa : (doSlabsReassign cfg m.slabs src dst).slabclass = m.slabs.slabclass ∧
      (doSlabsReassign cfg m.slabs src dst).chunks = m.slabs.chunks ∧
      (doSlabsReassign cfg m.slabs src dst = m.slabs ∨
        (doSlabsReassign cfg m.slabs src dst).rebal.slabStart = none) := by
    unfold doSlabsReassign
    by_cases hs : m.slabs.slabRebalanceSignal ≠ 0
    · rw [if_pos hs]
      exact ⟨rfl, rfl, .inl rfl⟩
    have hi := h.mover.idle (by omega)
    rw [if_neg hs]
    split_ifs
    · exact ⟨rfl, rfl, .inl rfl⟩
    · exact ⟨rfl, rfl, .inl rfl⟩
    · exact ⟨rfl, rfl, .inl rfl⟩
    · exact ⟨rfl, rfl, .inr hi⟩
  obtain ⟨hcl, hc, hr⟩ := hsa
  refine ⟨ho, hm, h.shape.congr hcl hc, ?_, h.counted⟩
  obtain he | hi := hr
  · show Progress cfg (doSlabsReassign cfg m.slabs src dst)
    rw [he]
    exact h.progress
  · exact .of_idle hi

theorem PageInv.rebalanceStart (h : PageInv cfg m) (lib : LibC)
    (hsi : m.slabs.slabRebalanceSignal = 1) :
    PageInv cfg { m with slabs := slabRebalanceStart cfg m.slabs lib } := by
  have ho := owned_slabRebalanceStart h.own lib
  have hm := h.mover.slabRebalanceStart hsi lib
  have hid := h.mover.idle (by omega)
  have hg := sameFree_growSlabList m.slabs m.slabs.rebal.dClsid lib.reallocOk
  have hs : Shape cfg (growSlabList m.slabs m.slabs.rebal.dClsid lib.reallocOk).1 m.clsid
      m.kind := h.shape.of_sameFree hg fun id _ =>
    pages_congr (growSlabList_slabs m.slabs _ _ id) (growSlabList_slabList m.slabs _ _ id)
  obtain he | ⟨-, -, -, -, -, he⟩ := slabRebalanceStart_cases cfg m.slabs lib
  · refine ⟨ho, hm, ?_, ?_, h.counted⟩
    · show Shape cfg (slabRebalanceStart cfg m.slabs lib) m.clsid m.kind
      rw [he]
      exact hs.congr rfl rfl
    · show Progress cfg (slabRebalanceStart cfg m.slabs lib)
      rw [he]
      exact .of_idle (by simpa [hg.2.2.2] using hid)
  refine ⟨ho, hm, ?_, ?_, h.counted⟩
  · show Shape cfg (slabRebalanceStart cfg m.slabs lib) m.clsid m.kind
    rw [he]
    exact hs.congr rfl rfl
  show Progress cfg (slabRebalanceStart cfg m.slabs lib)
  rw [he]
  refine ⟨?_, ?_, ?_, ?_⟩
  · intro page _ _ i hi
    simp [pickPage] at hi
  · intro page _ _ _ i hi
    simp [pickPage] at hi
  · intro page _ hsr hd
    simp only [pickPage] at hsr hd
    simp [hsr] at hd
  · intro _ hsr
    simp only [pickPage] at hsr ⊢
    simp [hsr]

theorem pageInv_pageInit (cfg : Config) (limit memCurrent : ℕ) :
    PageInv cfg (pageInit limit memCurrent) where
  own := owned_slabsInit cfg limit memCurrent
  mover := mover_slabsInit cfg limit memCurrent
  shape := by
    refine ⟨⟨?_, ?_, ?_⟩, ?_, ?_, ?_, ?_⟩ <;>
      simp [pageInit, slabsInit, PageState.kind, PageState.clsid]
  progress := .of_idle rfl
  counted := fun _ => rfl

theorem moveSafe_alloc {lib : LibC} (h : CountsFit cfg m (.alloc id lib)) :
    MoveSafe cfg m.slabs (.alloc id false lib) := by
  intro hm hp
  refine ⟨fun id' lib' hn hr => ?_, by simp⟩
  simp only [newslabOf] at hn
  split_ifs at hn with he
  cases hn
  exact h hm hp he hr

theorem moveSafe_adjustMemLimit {n : ℕ} (h : CountsFit cfg m (.adjustMemLimit n)) :
    MoveSafe cfg m.slabs (.adjustMemLimit n) := by
  intro hm hp
  refine ⟨by simp [newslabOf], fun n' he hb hr => ?_⟩
  obtain rfl := Act.adjustMemLimit.inj he
  exact h hm hp hb hr

theorem PageInv.header (h : PageInv cfg m) (chunked : Bool) (hc : m.kind c = .taken) :
    PageInv cfg (m.setHdr c fun h =>
      { h with kind := .item false (if chunked then some [] else none) }) := by
  have hco := (h.counted c).taken hc
  refine h.write (clsid_update m.hdr rfl) ?_ (counted_update (fun p _ => h.counted p) ?_)
  · rw [kind_update]
    refine h.shape.setKind (.inl hc) (.inr ⟨_, _, rfl⟩) (fun linked l hl => ?_)
      (fun linked l hl => ?_)
    · rw [hc] at hl
      cases hl
    · cases chunked with
      | true => exact .inl (by simpa using (Kind.item.inj hl).2.symm)
      | false => simp at hl
  · simp [Header.Counted, hco.1, hco.2]

theorem PageInv.attachChunk (h : PageInv cfg m) {head c : Chunk} {chain : List Chunk}
    (hh : m.kind head = .item false (some chain)) (hc : m.kind c = .taken) :
    PageInv cfg (attachChunk m head c chain) := by
  have hn : head ≠ c := ne_of_kind hh hc (by simp)
  have hco := (h.counted c).taken hc
  have hi := (h.counted head).item hh
  refine h.write ?_ ?_ (counted_update (fun p _ => ?_) ?_)
  · refine (clsid_update _ ?_).trans (clsid_update _ ?_)
    · rfl
    · rfl
  · rw [kind_update]
    refine (congrArg (Shape cfg m.slabs m.clsid) ?_).mpr (h.shape.attach hh hc)
    exact congrArg (fun k => update k head (Kind.item false (some (chain ++ [c]))))
      (kind_update m.hdr c _)
  · exact counted_update (fun q _ => h.counted q) (by simp [Header.Counted, hco.2]) p
  · simpa [PageState.setHdr, hn, Header.Counted] using hi

theorem PageInv.link (h : PageInv cfg m)
    (hc : m.kind c = .item false chain) (hl : (m.hdr c).refcount < 65535) :
    PageInv cfg (m.setHdr c fun h =>
      { h with refcount := (h.refcount + 1) % 65536, kind := .item true chain }) := by
  obtain ⟨hlt, hp, hco⟩ := (h.counted c).item hc
  refine h.write (clsid_update m.hdr rfl) ?_ (counted_update (fun p _ => h.counted p) ?_)
  · rw [kind_update]
    exact h.shape.setLinked hc true
  · simp only [Header.Counted, Bool.toNat_true, Bool.toNat_false] at hco ⊢
    omega

theorem PageInv.get (h : PageInv cfg m)
    (hc : m.kind c = .item true chain) (hl : (m.hdr c).refcount < 65535) :
    PageInv cfg (m.setHdr c fun h =>
      { h with refcount := (h.refcount + 1) % 65536, refs := h.refs + 1 }) := by
  obtain ⟨hlt, hp, hco⟩ := (h.counted c).item hc
  refine h.write (clsid_update m.hdr rfl) ?_ (counted_update (fun p _ => h.counted p) ?_)
  · rw [kind_update]
    exact (congrArg (Shape cfg m.slabs m.clsid) (update_eq_self c m.kind)).mpr h.shape
  · simp only [Header.Counted, show (m.hdr c).kind = .item true chain from hc]
    omega

theorem PageInv.step (h : PageInv cfg m) {op : PageOp} {u : Unit} (ho : CountsFit cfg m op)
    (hs : pageStep cfg m op = some (m', u)) : PageInv cfg m' := by
  cases op with
  | alloc id lib =>
    obtain ⟨hf, rfl, -⟩ := System.guarded_eq_some hs
    exact h.allocChunk hf (moveSafe_alloc ho)
  | header c chunked =>
    by_cases hc : m.kind c = .taken
    · rw [pageStep, if_pos hc] at hs
      cases hs
      exact h.header chunked hc
    · rw [pageStep, if_neg hc] at hs
      cases hs
  | uploadChunk head c =>
    simp only [pageStep] at hs
    split at hs
    · rename_i chain hh hc
      cases hs
      exact h.attachChunk hh hc
    · cases hs
  | link c =>
    simp only [pageStep] at hs
    split at hs
    · rename_i chain hc
      split_ifs at hs
      cases hs
      exact h.link hc ho
    · cases hs
  | unlink c =>
    simp only [pageStep] at hs
    split at hs
    · rename_i chain hc
      obtain ⟨rfl, -⟩ := Prod.mk.inj (Option.some.inj hs)
      exact h.unlink hc
    · cases hs
  | get c =>
    simp only [pageStep] at hs
    split at hs
    · rename_i chain hc
      cases hs
      exact h.get hc ho
    · cases hs
  | release c =>
    obtain ⟨hc, rfl, -⟩ := System.guarded_eq_some hs
    exact h.release hc
  | adjustMemLimit n =>
    cases hs
    exact h.adjustMemLimit (moveSafe_adjustMemLimit ho)
  | reassign src dst =>
    cases hs
    exact h.reassign src dst
  | rebalanceStart lib =>
    obtain ⟨hsi, rfl, -⟩ := System.guarded_eq_some hs
    exact h.rebalanceStart lib hsi
  | rebalanceMove g lib =>
    obtain ⟨hm, rfl, -⟩ := System.guarded_eq_some hs
    exact h.movePass g lib hm.1 hm.2
  | rebalanceFinish =>
    obtain ⟨hd, rfl, -⟩ := System.guarded_eq_some hs
    exact h.finishMove hd

/-- No chunk of the page is on the free list of the source class, holds a linked item, or
is part of an allocated or chunked item, and `sl_curr` is the length of the list. -/
def PageEmpty (cfg : Config) (m : PageState) (page : Page) : Prop :=
  let p := m.slabs.slabclass m.slabs.rebal.sClsid
  (∀ i < cfg.perslab m.slabs.rebal.sClsid, ⟨page, i⟩ ∉ p.slots ∧
    (∀ chain, m.kind ⟨page, i⟩ ≠ .item true chain) ∧ m.kind ⟨page, i⟩ = .free ∧
    ∀ head linked chain, m.kind head = .item linked (some chain) → ⟨page, i⟩ ∉ chain) ∧
  p.slCurr = p.slots.length

/-- **A moved page is empty.** In every run that takes no reference to an item whose
counter is at its limit, and leaves a page of the pool that is being moved in the
pool: when `slab_rebalance_finish` can run, whatever the source class, the page is
empty and `sl_curr` is the length of the free list. -/
theorem moved_page_empty (hr : (pageSystem cfg).Reachable (CountsFit cfg) m) {page : Page}
    (hpage : m.slabs.rebal.slabStart = some page) (hdone : m.slabs.rebal.done ≠ 0) :
    PageEmpty cfg m page := by
  have h : PageInv cfg m := by
    refine hr.induct (P := fun m => PageInv cfg m) ?_ ?_
    · rintro m ⟨limit, memCurrent, rfl⟩
      exact pageInv_pageInit cfg limit memCurrent
    · intro m op m' u h ho hst
      exact h.step ho hst
  refine ⟨fun i hi => ?_, h.shape.listed.curr _⟩
  obtain ⟨hs, hk⟩ := h.moved_empty hpage hdone ⟨page, i⟩ rfl
  refine ⟨fun hm => ?_, by simp [hk], hk, fun head linked chain hh hm => ?_⟩
  · exact hs ((h.shape.listed.mem_iff _ _).mp hm).1
  have hp := (h.shape.chain hh).2 _ hm
  rw [hk] at hp
  cases hp

/-- Two pages come into class 1; an item is stored in the first and the second is
freed, and a move of the first page to class 2 is started. -/
def moveTrace : List PageOp :=
  [.alloc 1 ⟨some 10, true⟩, .alloc 1 ⟨some 20, true⟩, .header ⟨10, 0⟩ false, .link ⟨10, 0⟩,
   .release ⟨10, 0⟩, .release ⟨20, 0⟩, .reassign 1 2, .rebalanceStart ⟨none, true⟩]

/-- One pass of the mover, which gets the item lock of an item that has not expired. -/
def passTrace : List PageOp := [.rebalanceMove ⟨false, false, false⟩ ⟨none, true⟩]

theorem moved_page_empty_moveTrace :
    ∃ m : PageState, m.slabs.rebal.slabStart = some 10 ∧ m.slabs.rebal.done ≠ 0 ∧
      m.slabs.rebal.sClsid ≠ globalPagePool ∧ m.kind ⟨20, 0⟩ = .item true none ∧
      PageEmpty twoClasses m 10 := by
  have hi : (pageSystem twoClasses).Reachable (CountsFit twoClasses) (pageInit 100 0) :=
    .of_init ⟨100, 0, rfl⟩
  obtain ⟨m, he, hp, hd, hs, hk⟩ := hi.exists_of_exec (moveTrace ++ passTrace)
    (p := fun m => m.slabs.rebal.slabStart = some 10 ∧ m.slabs.rebal.done ≠ 0 ∧
      m.slabs.rebal.sClsid ≠ globalPagePool ∧ m.kind ⟨20, 0⟩ = .item true none) (by decide +kernel)
  exact ⟨m, hp, hd, hs, hk, moved_page_empty he hp hd⟩

/-- The counter and the references of a chunk. -/
def withCount (m : PageState) (c : Chunk) (refcount refs : ℕ) : PageState :=
  m.setHdr c fun h => { h with refcount := refcount, refs := refs }

theorem withCount_self {a b : ℕ} (ha : (m.hdr c).refcount = a)
    (hb : (m.hdr c).refs = b) : withCount m c a b = m := by
  have hs : ({ m.hdr c with refcount := a, refs := b } : Header) = m.hdr c := by
    rw [← ha, ← hb]
  simp only [withCount, PageState.setHdr, hs, update_eq_self]

theorem kind_withCount (m : PageState) (c : Chunk) (a b : ℕ) :
    (withCount m c a b).kind = m.kind := by
  rw [withCount, kind_setHdr]
  exact update_eq_self c m.kind

theorem reachable_gets {ok : PageState → PageOp → Prop} (ho : ∀ m op, ok m op)
    (hr : (pageSystem cfg).Reachable ok m)
    (hk : m.kind c = .item true chain) (hc : (m.hdr c).refcount = 1)
    (hre : (m.hdr c).refs = 0) (n : ℕ) :
    (pageSystem cfg).Reachable ok (withCount m c ((1 + n) % 65536) n) := by
  induction n with
  | zero =>
    rw [withCount_self hc hre]
    exact hr
  | succ n ih =>
    refine ih.tail (a := .get c) (r := ()) (ho _ _) ?_
    have hi : (withCount m c ((1 + n) % 65536) n).kind c = .item true chain := by
      rw [kind_withCount, hk]
    show pageStep cfg _ (.get c) = _
    simp only [pageStep, hi]
    have hn : ((1 + n) % 65536 + 1) % 65536 = (1 + (n + 1)) % 65536 := by omega
    simp only [withCount, PageState.setHdr, update_self, update_idem, hn]

theorem reachable_releases {ok : PageState → PageOp → Prop} (ho : ∀ m op, ok m op)
    (hr : (pageSystem cfg).Reachable ok m) (hc : (m.hdr c).refcount = 0)
    (hre : (m.hdr c).refs = 65536) (n : ℕ) (hn : n ≤ 65535) :
    (pageSystem cfg).Reachable ok
      (withCount m c ((65536 - n) % 65536) (65536 - n)) := by
  induction n with
  | zero =>
    rw [withCount_self hc hre]
    exact hr
  | succ n ih =>
    refine (ih (by omega)).tail (a := .release c) (r := ()) (ho _ _) ?_
    show pageStep cfg _ (.release c) = _
    have hp : 0 < 65536 - n := by omega
    have hr' : 65536 - n - 1 = 65536 - (n + 1) := by omega
    have hd : ((65536 - n) % 65536 + 65535) % 65536 = (65536 - (n + 1)) % 65536 := by omega
    have hne : (65536 - (n + 1)) % 65536 ≠ 0 := by omega
    simp only [pageStep, withCount, PageState.setHdr, update_self, hp, if_true,
      doItemRemove, update_idem, hd, hne, if_false, hr']

/-- 65536 gets of the item while its page is being moved: the counter is back at 1, the
mover rescues the item and clears the chunk, and the last of the readers' releases
puts the chunk on the free list. The move is done. -/
theorem chunk_freed_after_move :
    ∃ m, (pageSystem twoClasses).Reachable (fun _ _ => True) m ∧
      m.slabs.rebal.slabStart = some 10 ∧ m.slabs.rebal.done ≠ 0 ∧
      m.slabs.rebal.sClsid ≠ globalPagePool ∧ ¬PageEmpty twoClasses m 10 := by
  have hi : (pageSystem twoClasses).Reachable (fun _ _ => True) (pageInit 100 0) :=
    .of_init ⟨100, 0, rfl⟩
  obtain ⟨m, hex, hk, hc, href, hm⟩ := hi.exists_of_exec moveTrace
    (p := fun m => m.kind ⟨10, 0⟩ = .item true none ∧ (m.hdr ⟨10, 0⟩).refcount = 1 ∧
      (m.hdr ⟨10, 0⟩).refs = 0 ∧
      (((pageSystem twoClasses).exec (fun _ _ => True) (withCount m ⟨10, 0⟩ 1 65536)
          passTrace).any fun t => decide ((t.hdr ⟨10, 0⟩).refcount = 0 ∧
        (t.hdr ⟨10, 0⟩).refs = 65536 ∧
        (((pageSystem twoClasses).exec (fun _ _ => True) (withCount t ⟨10, 0⟩ 1 1)
            [.release ⟨10, 0⟩]).any fun u => decide (u.slabs.rebal.slabStart = some 10 ∧
          u.slabs.rebal.done ≠ 0 ∧ u.slabs.rebal.sClsid ≠ globalPagePool ∧
          0 < twoClasses.perslab u.slabs.rebal.sClsid ∧
          ⟨10, 0⟩ ∈ (u.slabs.slabclass u.slabs.rebal.sClsid).slots)) = true)) = true)
    (by decide +kernel)
  have hg := reachable_gets (fun _ _ => trivial) hex hk hc href 65536
  obtain ⟨t, hpas, ht⟩ := (Option.any_eq_true _ _).mp hm
  obtain ⟨hz, hh, hf⟩ := of_decide_eq_true ht
  have hr := reachable_releases (fun _ _ => trivial) (hg.of_exec _ hpas) hz hh
    65535 (by omega)
  obtain ⟨u, hre, hu⟩ := (Option.any_eq_true _ _).mp hf
  obtain ⟨hpa, hd, hs, hp, hme⟩ := of_decide_eq_true hu
  exact ⟨u, hr.of_exec _ hre, hpa, hd, hs,
    fun he => (he.1 0 hp).1 hme⟩

end Memcached.Slabs
