import Memcached.Slabs.ChunkUse
import Memcached.Slabs.FreeLists

/-!
# Chunks, items and chains

`Shape` ties the free lists, the pages of the classes and what the chunks hold
together. Each operation on chunks keeps it: freeing an item with its chain, writing
a header, attaching a chunk to an item, and the mover's clearing and copying.

Results:
* `Shape.clear`, `Shape.cutFree`, `Shape.rescueItem`, `Shape.rescuePart`: the mover
* `Shape.free`, `Shape.setKind`, `Shape.attach`: the workers
-/

namespace Memcached.Slabs

open Lib
open Function (update update_self update_of_ne)

variable {cfg : Config} {s s' : SlabState} {cls cls' : Chunk → ℕ} {kind : Chunk → Kind}

/-! ## Chunks and what they hold -/

/-- The chunk lies in a page of class `id`. -/
def Home (cfg : Config) (s : SlabState) (id : ℕ) (c : Chunk) : Prop :=
  powerSmallest ≤ id ∧ id ≤ cfg.powerLargest ∧ c.page ∈ (s.slabclass id).pages ∧
    c.idx < cfg.perslab id

/-- Chunks that hold different things are different chunks. -/
theorem ne_of_kind {p q : Chunk} {k k' : Kind} (hp : kind p = k) (hq : kind q = k')
    (hn : k ≠ k') : p ≠ q := by
  rintro rfl
  exact hn (hp.symm.trans hq)

/-- The free lists are in order, every chunk that is free or holds something lies in a
page of its class, what holds something is in use, and a chunked item and the
chunks of its chain know each other. -/
structure Shape (cfg : Config) (s : SlabState) (cls : Chunk → ℕ) (kind : Chunk → Kind) :
    Prop where
  listed : Listed s cls
  home : ∀ c, s.chunks c = .slabbed ∨ kind c ≠ .free → Home cfg s (cls c) c
  used : ∀ c, kind c ≠ .free → s.chunks c = .inUse
  chain : ∀ {h linked chain}, kind h = .item linked (some chain) →
    chain.Nodup ∧ ∀ p ∈ chain, kind p = .part h
  part : ∀ {p h}, kind p = .part h →
    ∃ linked chain, kind h = .item linked (some chain) ∧ p ∈ chain

variable {c : Chunk}

theorem Shape.kind_free (h : Shape cfg s cls kind) (hc : s.chunks c ≠ .inUse) : kind c = .free := by
  by_contra hn
  exact hc (h.used c hn)

theorem Home.congr {id : ℕ} (h : Home cfg s id c)
    (hp : (s'.slabclass id).pages = (s.slabclass id).pages) : Home cfg s' id c := by
  obtain ⟨hs, hl, hpa, hi⟩ := h
  exact ⟨hs, hl, by rw [hp]; exact hpa, hi⟩

theorem Shape.of_sameFree (h : Shape cfg s cls kind) (hs : SameFree s s')
    (hp : ∀ id ≠ globalPagePool, (s'.slabclass id).pages = (s.slabclass id).pages) :
    Shape cfg s' cls kind := by
  refine ⟨hs.listed h.listed, fun c hc => ?_, fun c hc => ?_, h.chain, h.part⟩
  · rw [hs.2.2.1] at hc
    have hh := h.home c hc
    refine hh.congr (hp _ ?_)
    have hsm := hh.1
    simp only [powerSmallest, globalPagePool] at hsm ⊢
    omega
  · rw [hs.2.2.1]
    exact h.used c hc

/-- The chunk `c` and, for a chunked item, its chain. -/
def footprint (kind : Chunk → Kind) (c : Chunk) : List Chunk :=
  match kind c with
  | .item _ (some chain) => c :: chain
  | _ => [c]

/-- What is left when the chunks `l` are free. -/
def without (kind : Chunk → Kind) (l : List Chunk) : Chunk → Kind := fun c =>
  if c ∈ l then .free else kind c

variable {k : Kind}

theorem without_of_ne {l : List Chunk} (h : without kind l c = k)
    (hk : k ≠ .free) : c ∉ l ∧ kind c = k := by
  unfold without at h
  split_ifs at h with hm
  · exact absurd h.symm hk
  · exact ⟨hm, h⟩

/-- Memory that is not a chained chunk. -/
def IsHead (k : Kind) : Prop := k = .taken ∨ ∃ linked chain, k = .item linked chain

theorem IsHead.ne_free (h : IsHead k) : k ≠ .free := by
  obtain rfl | ⟨linked, chain, rfl⟩ := h <;> simp

theorem IsHead.ne_part (h : IsHead k) (p : Chunk) : k ≠ .part p := by
  obtain rfl | ⟨linked, chain, rfl⟩ := h <;> simp

theorem Shape.mem_footprint (h : Shape cfg s cls kind) {c p : Chunk}
    (hp : p ∈ footprint kind c) : p = c ∨ kind p = .part c := by
  unfold footprint at hp
  split at hp
  · rename_i linked chain hk
    obtain rfl | hm := List.mem_cons.mp hp
    · exact .inl rfl
    · exact .inr ((h.chain hk).2 p hm)
  · exact .inl (List.mem_singleton.mp hp)

theorem mem_footprint_self (kind : Chunk → Kind) (c : Chunk) : c ∈ footprint kind c := by
  unfold footprint
  split <;> simp

section

variable (h : Shape cfg s cls kind) (hc : IsHead (kind c))
include h hc

theorem Shape.nodup_footprint : (footprint kind c).Nodup := by
  unfold footprint
  split
  · rename_i linked chain hk
    obtain ⟨hn, hp⟩ := h.chain hk
    exact List.nodup_cons.mpr ⟨fun hm => hc.ne_part c (hp c hm), hn⟩
  · exact List.nodup_singleton c

theorem Shape.without_links :
    (∀ {p linked chain}, without kind (footprint kind c) p = .item linked (some chain) →
      chain.Nodup ∧ ∀ q ∈ chain, without kind (footprint kind c) q = .part p) ∧
    ∀ {p head}, without kind (footprint kind c) p = .part head → ∃ linked chain,
      without kind (footprint kind c) head = .item linked (some chain) ∧ p ∈ chain := by
  constructor
  · intro p linked chain hp
    obtain ⟨hno, hk⟩ := without_of_ne hp (by simp)
    obtain ⟨hn, hpa⟩ := h.chain hk
    refine ⟨hn, fun q hq => ?_⟩
    have hq' := hpa q hq
    have hqn : q ∉ footprint kind c := by
      intro hm
      obtain rfl | hpc := h.mem_footprint hm
      · exact hc.ne_part p hq'
      rw [hq'] at hpc
      obtain rfl : p = c := by simpa using hpc
      exact hno (mem_footprint_self kind p)
    simpa [without, hqn] using hq'
  · intro p head hp
    obtain ⟨hno, hk⟩ := without_of_ne hp (by simp)
    obtain ⟨linked, chain, hh, hm⟩ := h.part hk
    refine ⟨linked, chain, ?_, hm⟩
    have hhn : head ∉ footprint kind c := by
      intro hi
      obtain rfl | hpc := h.mem_footprint hi
      · exact hno (by simp [footprint, hh, hm])
      · rw [hh] at hpc
        cases hpc
    simpa [without, hhn] using hh

/-- **Free.** The chunks of an item go to the free lists of their classes. -/
theorem Shape.free :
    let s' := doSlabsFreeChunked s ((footprint kind c).map fun p => (p, cls p))
    Shape cfg s' cls (without kind (footprint kind c)) ∧ s'.rebal = s.rebal ∧
      s'.chunks = fun p => if p ∈ footprint kind c then .slabbed else s.chunks p := by
  have hk : ∀ p ∈ footprint kind c, kind p ≠ .free := by
    intro p hp
    obtain rfl | hpa := h.mem_footprint hp
    · exact hc.ne_free
    · simp [hpa]
  have hu : ∀ p ∈ footprint kind c, s.chunks p ≠ .slabbed := by
    intro p hp
    simp [h.used p (hk p hp)]
  obtain ⟨hl, hr, hch⟩ :=
    h.listed.doSlabsFreeChunked (h.nodup_footprint hc) hu
  have hpag := pages_eq_of_view
    (view_doSlabsFreeChunked s ((footprint kind c).map fun p => (p, cls p)))
  obtain ⟨hcha, hpa⟩ := h.without_links hc
  refine ⟨⟨hl, fun p hp => ?_, fun p hp => ?_, hcha, hpa⟩, hr, hch⟩
  · refine (h.home p ?_).congr (hpag _)
    by_cases hm : p ∈ footprint kind c
    · exact .inr (hk p hm)
    · simpa [hch, without, hm] using hp
  · obtain ⟨hn, -⟩ := without_of_ne rfl hp
    have ho : kind p ≠ .free := by simpa [without, hn] using hp
    rw [hch]
    simpa [hn] using h.used p ho

end

/-! ## The workers keep the shape -/

theorem Shape.setKind (h : Shape cfg s cls kind) (hc : IsHead (kind c)) (hk : IsHead k)
    (ho : ∀ linked chain, kind c = .item linked (some chain) →
      ∃ linked', k = .item linked' (some chain))
    (hnew : ∀ linked chain, k = .item linked (some chain) →
      chain = [] ∨ ∃ linked', kind c = .item linked' (some chain)) :
    Shape cfg s cls (update kind c k) := by
  refine ⟨h.listed, fun p hp => h.home p ?_, fun p hp => h.used p ?_, ?_, ?_⟩
  · obtain rfl | hne := eq_or_ne p c
    · exact .inr hc.ne_free
    · simpa [hne] using hp
  · obtain rfl | hne := eq_or_ne p c
    · exact hc.ne_free
    · simpa [hne] using hp
  · intro p linked chain hp
    have hpa : ∀ {p linked}, kind p = .item linked (some chain) →
        chain.Nodup ∧ ∀ q ∈ chain, update kind c k q = .part p := by
      intro p linked hki
      obtain ⟨hn, hpar⟩ := h.chain hki
      refine ⟨hn, fun q hq => ?_⟩
      obtain rfl | hne := eq_or_ne q c
      · exact absurd (hpar q hq) (hc.ne_part p)
      · simpa [hne] using hpar q hq
    obtain rfl | hne := eq_or_ne p c
    · rw [update_self] at hp
      obtain rfl | ⟨linked', hki⟩ := hnew linked chain hp
      · simp
      · exact hpa hki
    · rw [update_of_ne hne] at hp
      exact hpa hp
  · intro p head hp
    obtain rfl | hne := eq_or_ne p c
    · rw [update_self] at hp
      exact absurd hp (hk.ne_part head)
    rw [update_of_ne hne] at hp
    obtain ⟨linked, chain, hh, hm⟩ := h.part hp
    obtain rfl | hn' := eq_or_ne head c
    · obtain ⟨linked', hk'⟩ := ho linked chain hh
      exact ⟨linked', chain, by simpa using hk', hm⟩
    · exact ⟨linked, chain, by simpa [hn'] using hh, hm⟩

theorem Shape.attach (h : Shape cfg s cls kind) {head c : Chunk} {chain : List Chunk}
    (hhe : kind head = .item false (some chain)) (hc : kind c = .taken) :
    Shape cfg s cls (update (update kind c (.part head)) head
      (.item false (some (chain ++ [c])))) := by
  have hne : c ≠ head := ne_of_kind hc hhe (by simp)
  have hf : ∀ p, update (update kind c (.part head)) head
      (.item false (some (chain ++ [c]))) p ≠ .free → kind p ≠ .free := by
    intro p hp
    obtain rfl | hph := eq_or_ne p head
    · simp [hhe]
    obtain rfl | hpc := eq_or_ne p c
    · simp [hc]
    · simpa [hph, hpc] using hp
  obtain ⟨hn, hpar⟩ := h.chain hhe
  have hcn : c ∉ chain := by
    intro hm
    have hpa := hpar c hm
    rw [hc] at hpa
    cases hpa
  refine ⟨h.listed, fun p hp => h.home p (hp.imp_right (hf p)),
    fun p hp => h.used p (hf p hp), ?_, ?_⟩
  · intro p linked l hp
    obtain rfl | hph := eq_or_ne p head
    · simp only [update_self, Kind.item.injEq, Option.some.injEq] at hp
      obtain ⟨-, rfl⟩ := hp
      refine ⟨List.nodup_append.mpr ⟨hn, List.nodup_singleton c, ?_⟩, fun q hq => ?_⟩
      · rintro x hx y hy rfl
        exact hcn (by simpa using (List.mem_singleton.mp hy) ▸ hx)
      obtain ho | hnew := List.mem_append.mp hq
      · have hpa := hpar q ho
        have hqp : q ≠ p := ne_of_kind hpa hhe (by simp)
        have hqc : q ≠ c := ne_of_mem_of_not_mem ho hcn
        simpa [hqp, hqc] using hpa
      · obtain rfl := List.mem_singleton.mp hnew
        simp [hne]
    · have hpc : p ≠ c := by
        rintro rfl
        simp [hph] at hp
      simp only [update_of_ne hph, update_of_ne hpc] at hp
      obtain ⟨hl, hpa⟩ := h.chain hp
      refine ⟨hl, fun q hq => ?_⟩
      have hqpa := hpa q hq
      have hqh : q ≠ head := ne_of_kind hqpa hhe (by simp)
      have hqc : q ≠ c := ne_of_kind hqpa hc (by simp)
      simpa [hqh, hqc] using hqpa
  · intro p h' hp
    have hph : p ≠ head := by
      rintro rfl
      simp at hp
    rw [update_of_ne hph] at hp
    obtain rfl | hpc := eq_or_ne p c
    · simp only [update_self, Kind.part.injEq] at hp
      subst hp
      exact ⟨false, chain ++ [p], by simp, by simp⟩
    rw [update_of_ne hpc] at hp
    obtain ⟨linked, l, hi, hm⟩ := h.part hp
    obtain rfl | hh := eq_or_ne h' head
    · rw [hhe] at hi
      simp only [Kind.item.injEq, Option.some.injEq] at hi
      obtain ⟨-, rfl⟩ := hi
      exact ⟨false, chain ++ [c], by simp, List.mem_append_left _ hm⟩
    · have hhc : h' ≠ c := ne_of_kind hi hc (by simp)
      exact ⟨linked, l, by simpa [hh, hhc] using hi, hm⟩

/-! ## The mover keeps the shape -/

theorem Reclaims.shape {id : ℕ} {new : Option Chunk} (h : Shape cfg s cls kind)
    (hl : Listed s' cls) (hr : Reclaims cls id s s' new)
    (hpa : ∀ i, (s'.slabclass i).pages = (s.slabclass i).pages) : Shape cfg s' cls kind := by
  refine ⟨hl, fun p hp => ?_, fun p hp => ?_, h.chain, h.part⟩
  · refine (h.home p (hp.imp_left fun hsl => ?_)).congr (hpa _)
    obtain hs | ⟨ho, -⟩ := hr.1 p
    · exact hs.symm.trans hsl
    · exact ho
  · obtain hs | ⟨ho, -⟩ := hr.1 p
    · exact hs.trans (h.used p hp)
    · rw [h.used p hp] at ho
      cases ho

theorem Shape.clear (h : Shape cfg s cls kind) (hc : IsHead (kind c))
    (hpl : footprint kind c = [c]) : Shape cfg (markCompleted s c) cls (without kind [c]) := by
  have hu := h.used c hc.ne_free
  obtain ⟨hch, hpa⟩ := h.without_links hc
  rw [hpl] at hch hpa
  refine ⟨h.listed.markCompleted (by simp [hu]), fun p hp => h.home p ?_, fun p hp => ?_,
    hch, hpa⟩
  · obtain rfl | hn := eq_or_ne p c
    · exact .inr hc.ne_free
    · simpa [markCompleted, without, hn] using hp
  · have hn : p ≠ c := by
      rintro rfl
      simp [without] at hp
    simpa [markCompleted, hn] using h.used p (by simpa [without, hn] using hp)

theorem Shape.cutFree (h : Shape cfg s cls kind) (hc : s.chunks c = .slabbed)
    {id : ℕ} (hcl : cls c = id) :
    Shape cfg (markCompleted (slabRebalanceCutFree s id c) c) cls kind := by
  have hpa : ∀ i, ((slabRebalanceCutFree s id c).slabclass i).pages =
      (s.slabclass i).pages := pages_eq_of_view (view_slabRebalanceCutFree s id c)
  have hf := h.kind_free (c := c) (by simp [hc])
  refine ⟨h.listed.slabRebalanceCutFree hc hcl, fun p hp => (h.home p ?_).congr (hpa _),
    fun p hp => ?_, h.chain, h.part⟩
  · obtain rfl | hn := eq_or_ne p c
    · exact .inl hc
    · simpa [markCompleted, slabRebalanceCutFree, SlabState.setClass, hn] using hp
  · have hn : p ≠ c := by
      rintro rfl
      exact hp hf
    simpa [markCompleted, slabRebalanceCutFree, SlabState.setClass, hn] using h.used p hp

/-- What the chunks hold when the item at `c` was copied to `new`. -/
def rescuedItem (kind : Chunk → Kind) (chain : List Chunk) (c new : Chunk) : Chunk → Kind :=
  fun p => if p = c then .free else if p = new then kind c
    else if p ∈ chain then .part new else kind p

/-- What the chunks hold when the chained chunk `c` was copied to `new`. -/
def rescuedPart (kind : Chunk → Kind) (linked : Bool) (chain : List Chunk) (head c new : Chunk) :
    Chunk → Kind :=
  fun p => if p = c then .free else if p = new then .part head
    else if p = head then .item linked (some (chain.map fun q => if q = c then new else q))
    else kind p

/-- The same with other names for the chunks that it refers to. -/
def Kind.rename (σ : Chunk → Chunk) : Kind → Kind
  | .item linked chain => .item linked (chain.map (List.map σ))
  | .part head => .part (σ head)
  | k => k

/-- What the chunks hold when `c` and `new` change places. -/
def swapped (kind : Chunk → Kind) (c new p : Chunk) : Kind :=
  (kind (Equiv.swap c new p)).rename (Equiv.swap c new)

variable (h : Shape cfg s cls kind)
include h

theorem Shape.swap_links (c new : Chunk) :
    (∀ {p linked chain}, swapped kind c new p = .item linked (some chain) →
      chain.Nodup ∧ ∀ q ∈ chain, swapped kind c new q = .part p) ∧
    ∀ {p head}, swapped kind c new p = .part head →
      ∃ linked chain, swapped kind c new head = .item linked (some chain) ∧ p ∈ chain := by
  unfold swapped
  constructor
  · intro p linked chain hp
    rcases hk : kind (Equiv.swap c new p) with _ | _ | ⟨linked', _ | l⟩ | head <;>
      rw [hk] at hp <;> cases hp
    obtain ⟨hn, hpa⟩ := h.chain hk
    refine ⟨hn.map (Equiv.injective _), fun q hq => ?_⟩
    obtain ⟨x, hx, rfl⟩ := List.mem_map.mp hq
    simp [hpa x hx, Kind.rename]
  · intro p head hp
    rcases hk : kind (Equiv.swap c new p) with _ | _ | ⟨linked', l⟩ | he' <;>
      rw [hk] at hp <;> cases hp
    obtain ⟨linked, l, hi, hm⟩ := h.part hk
    exact ⟨linked, l.map (Equiv.swap c new), by simp [hi, Kind.rename],
      List.mem_map.mpr ⟨_, hm, by simp⟩⟩

/-- **Copy.** A chunk in use changes places with a free one. -/
theorem Shape.swap {c new : Chunk} (hc : kind c ≠ .free)
    (hf : kind new = .free) (hn : s.chunks new = .inUse) (hh : Home cfg s (cls new) new) :
    Shape cfg (markCompleted s c) cls (swapped kind c new) := by
  have hu := h.used c hc
  have ho : ∀ p ≠ c, p ≠ new → swapped kind c new p ≠ .free → kind p ≠ .free := by
    intro p hpc hpn hp hk
    simp [swapped, Equiv.swap_apply_of_ne_of_ne hpc hpn, hk, Kind.rename] at hp
  obtain ⟨hch, hpa⟩ := h.swap_links c new
  refine ⟨h.listed.markCompleted (by simp [hu]), fun p hp => ?_, fun p hp => ?_, hch, hpa⟩
  · obtain rfl | hpn := eq_or_ne p new
    · exact hh
    refine h.home p ?_
    obtain rfl | hpc := eq_or_ne p c
    · exact .inr hc
    · refine hp.imp (fun hs => ?_) (ho p hpc hpn)
      simpa [markCompleted, hpc] using hs
  · have hpc : p ≠ c := by
      rintro rfl
      simp [swapped, hf, Kind.rename] at hp
    obtain rfl | hpn := eq_or_ne p new
    · simpa [markCompleted, hpc] using hn
    · simpa [markCompleted, hpc] using h.used p (ho p hpc hpn hp)

theorem Shape.swapped_eq {c new p : Chunk} (hf : kind new = .free)
    (hpc : p ≠ c) (hpn : p ≠ new) (hp : kind p ≠ .part c) (hc : kind c ≠ .part p) :
    swapped kind c new p = kind p := by
  rw [swapped, Equiv.swap_apply_of_ne_of_ne hpc hpn]
  rcases hk : kind p with _ | _ | ⟨linked, _ | l⟩ | head
  · rfl
  · rfl
  · rfl
  · have hfi : ∀ q ∈ l, Equiv.swap c new q = q := by
      intro q hq
      have hqp := (h.chain hk).2 q hq
      refine Equiv.swap_apply_of_ne_of_ne ?_ (ne_of_kind hqp hf (by simp))
      rintro rfl
      exact hc hqp
    simp [Kind.rename, List.map_congr_left hfi]
  · obtain ⟨linked, l, hi, -⟩ := h.part hk
    have hh : head ≠ new := ne_of_kind hi hf (by simp)
    rw [Kind.rename, Equiv.swap_apply_of_ne_of_ne ?_ hh]
    rintro rfl
    exact hp hk

theorem Shape.rescueItem {c new : Chunk} {linked : Bool}
    {chain : Option (List Chunk)} (hc : kind c = .item linked chain) (hf : kind new = .free)
    (hn : s.chunks new = .inUse) (hh : Home cfg s (cls new) new) :
    Shape cfg (markCompleted s c) cls (rescuedItem kind (chain.getD []) c new) := by
  have hp : ∀ q, q ∈ chain.getD [] ↔ kind q = .part c := by
    intro q
    constructor
    · intro hq
      cases chain with
      | none => simp at hq
      | some l => exact (h.chain hc).2 q hq
    · intro hq
      obtain ⟨linked', l, hi, hm⟩ := h.part hq
      rw [hc] at hi
      obtain ⟨-, rfl⟩ := Kind.item.inj hi
      exact hm
  suffices heq : rescuedItem kind (chain.getD []) c new = swapped kind c new by
    rw [heq]
    exact h.swap (by simp [hc]) hf hn hh
  funext p
  unfold rescuedItem
  split_ifs with hpc hpn hm
  · simp [hpc, swapped, hf, Kind.rename]
  · have hfi : ∀ q ∈ chain.getD [], Equiv.swap c new q = q := by
      intro q hq
      have hpa := (hp q).mp hq
      exact Equiv.swap_apply_of_ne_of_ne (ne_of_kind hpa hc (by simp))
        (ne_of_kind hpa hf (by simp))
    cases chain with
    | none => simp [hpn, swapped, hc, Kind.rename]
    | some l =>
      rw [Option.getD_some] at hfi
      simp [hpn, swapped, hc, Kind.rename, List.map_congr_left hfi]
  · simp [swapped, Equiv.swap_apply_of_ne_of_ne hpc hpn, (hp p).mp hm, Kind.rename]
  · exact (h.swapped_eq hf hpc hpn (mt (hp p).mpr hm) (by simp [hc])).symm

theorem Shape.rescuePart {head c new : Chunk} {linked : Bool}
    {chain : List Chunk} (hc : kind c = .part head) (hh : kind head = .item linked (some chain))
    (hf : kind new = .free) (hn : s.chunks new = .inUse) (hho : Home cfg s (cls new) new) :
    Shape cfg (markCompleted s c) cls (rescuedPart kind linked chain head c new) := by
  have hhc : head ≠ c := ne_of_kind hh hc (by simp)
  have hhn : head ≠ new := ne_of_kind hh hf (by simp)
  suffices he : rescuedPart kind linked chain head c new = swapped kind c new by
    rw [he]
    exact h.swap (by simp [hc]) hf hn hho
  funext p
  unfold rescuedPart
  split_ifs with hpc hpn hph
  · simp [hpc, swapped, hf, Kind.rename]
  · simp [hpn, swapped, hc, Kind.rename, Equiv.swap_apply_of_ne_of_ne hhc hhn]
  · rw [hph, swapped, Equiv.swap_apply_of_ne_of_ne hhc hhn, hh, Kind.rename, Option.map_some]
    congr 2
    refine List.map_congr_left fun q hq => ?_
    have hqn : q ≠ new := ne_of_kind ((h.chain hh).2 q hq) hf (by simp)
    simp [Equiv.swap_apply_def, hqn]
  · refine (h.swapped_eq hf hpc hpn (fun hp => ?_) ?_).symm
    · obtain ⟨linked', l, hi, -⟩ := h.part hp
      rw [hc] at hi
      cases hi
    · rw [hc]
      exact fun he => hph (Kind.part.inj he).symm

end Memcached.Slabs
