import Mathlib.Data.Set.Card
import Memcached.Lib.DList
import Memcached.Lib.Run
import Memcached.Slabs.Model

/-!
# Conservation of slab chunks

The words of memory that `slabs.c` and the allocating half of `items.c` use for chunks: the
free list of each class runs through the words `next` and `prev` of free chunks, and the
chain of a large item through those of its chunks. The LRU lists write the same words of
an item in between. `owner` is not in the source: it is what the threads use a chunk for.

Results:
* `chunks_conserved`: free lists and chains partition the chunks of the pages
-/

namespace Memcached.Slabs

open Lib
open Function (update update_self update_of_ne)

/-! ## Memory -/

/-- A pointer to an `item` or an `item_chunk`: the start of a chunk of a page, or the
`item_chunk` within the header of a large item (`ITEM_schunk`). -/
abbrev Ptr := Chunk ⊕ Chunk

/-- What the functions read of the memory of a chunk: `ITEM_SLABBED`, `ITEM_CHUNKED` and
`ITEM_CHUNK` of `it_flags`, `slabs_clsid` without its LRU bits, and `orig_clsid` of its
`ITEM_schunk`. -/
structure Cell where
  slabbed : Bool
  chunked : Bool
  chunk : Bool
  clsid : ℕ
  origClsid : ℕ
deriving DecidableEq

/-- What a chunk is used for: it is not of a page of a class; on a free list; taken by a
thread for class `id` and not yet initialised; an item; the header of a large item; one
of the chunks of the large item `h`; about to be put on a free list. -/
inductive Owner where
  | outside
  | free
  | taken (id : ℕ)
  | item
  | header
  | chunkOf (h : Chunk)
  | loose
deriving DecidableEq

/-- The memory of the allocator. List `.inl id` is the free list of class `id`, whose head is
`slots`; list `.inr h` is the chain of the large item `h`. The source keeps no tail of a
free list and no ends of a chain: it starts at `ITEM_schunk`, and the thread that
uploads the item knows its last chunk. -/
structure Memory where
  lists : DMem (ℕ ⊕ Chunk) Ptr
  cells : Chunk → Cell
  slCurr : ℕ → ℕ
  slabList : ℕ → List Page
  owner : Chunk → Owner

/-! ## Operations -/

/-- Puts a chunk on the free list of a class (lines 509-517, and the same lines in
`do_slabs_free_chunked`). -/
def Memory.pushFree (m : Memory) (c : Chunk) (id : ℕ) : Memory where
  lists := m.lists.pushHead (.inl id) (.inl c)
  cells := update m.cells c
    { m.cells c with slabbed := true, chunked := false, chunk := false, clsid := id }
  slCurr := update m.slCurr id (m.slCurr id + 1)
  slabList := m.slabList
  owner := update m.owner c .free

def Memory.classChunks (cfg : Config) (m : Memory) (id : ℕ) : Finset Chunk :=
  (m.slabList id).toFinset.biUnion fun p => (Finset.range (cfg.perslab id)).image (Chunk.mk p)

/-- The chunks of all pages, which bound the length of a chain. -/
def Memory.allChunks (cfg : Config) (m : Memory) : Finset Chunk :=
  (Finset.range (cfg.powerLargest + 1)).biUnion (m.classChunks cfg)

/-- The loop of `do_slabs_free_chunked` over the chunks of the chain (lines 479-492), at most
`fuel` rounds. -/
def freeChain : ℕ → Memory → Option Ptr → Memory
  | fuel + 1, m, some (.inl chunk) =>
    let nextChunk := m.lists.next (.inl chunk)
    freeChain fuel (m.pushFree chunk (m.cells chunk).clsid) nextChunk
  | _, m, _ => m

/-- The chain of a large item stops being one. -/
def Memory.dropChain (m : Memory) (h : Chunk) : Memory :=
  { m with
    lists := m.lists.drop (.inr h)
    owner := fun c => if c = h ∨ m.owner c = .chunkOf h then .loose else m.owner c }

/-- `do_slabs_free_chunked` (lines 450-495). -/
def freeChunked (cfg : Config) (m : Memory) (it : Chunk) : Memory :=
  let chunk := m.lists.next (.inr it)
  let m := m.dropChain it
  freeChain (m.allChunks cfg).card (m.pushFree it (m.cells it).origClsid) chunk

/-- `do_slabs_free` (lines 498-523). -/
def slabsFree (cfg : Config) (m : Memory) (it : Chunk) (id : ℕ) : Memory :=
  if id < powerSmallest ∨ id > cfg.powerLargest then m
  else if (m.cells it).chunked = false then m.pushFree it id
  else freeChunked cfg m it

/-- `memset(ptr, 0, len)` of a page, whose chunks are those of class `id` from now on. -/
def Memory.memset (cfg : Config) (m : Memory) (ptr : Page) (id : ℕ) : Memory :=
  { m with
    owner := fun c => if c.page = ptr ∧ c.idx < cfg.perslab id then .loose else m.owner c
    lists := { m.lists with
      next := fun p => if (p.elim (fun c => c) fun c => c).page = ptr then none else m.lists.next p
      prev := fun p =>
        if (p.elim (fun c => c) fun c => c).page = ptr then none else m.lists.prev p }
    cells := fun c =>
      if c.page = ptr then
        { slabbed := false, chunked := false, chunk := false, clsid := 0, origClsid := 0 }
      else m.cells c }

/-- `do_slabs_newslab` (lines 369-403) with the page that the pool, `malloc` and the limit
leave it. -/
def newslab (cfg : Config) (m : Memory) (id : ℕ) : Option Page → Memory
  | none => m
  | some ptr =>
    let m := (List.range (cfg.perslab id)).foldl (fun m x => slabsFree cfg m ⟨ptr, x⟩ id)
      (m.memset cfg ptr id)
    { m with slabList := update m.slabList id (m.slabList id ++ [ptr]) }

/-- Takes the first chunk off the free list of a class (lines 428-435). -/
def Memory.popFree (m : Memory) (it : Chunk) (id : ℕ) : Memory where
  lists := m.lists.popHead (.inl id) (.inl it)
  cells := update m.cells it { m.cells it with slabbed := false }
  slCurr := update m.slCurr id (m.slCurr id - 1)
  slabList := m.slabList
  owner := update m.owner it (.taken id)

/-- The free list of a class gives its first chunk (lines 426-439). -/
def takeSlot (m : Memory) (id : ℕ) : Memory × Option Chunk :=
  if m.slCurr id ≠ 0 then
    match m.lists.head (.inl id) with
    | some (.inl it) => (m.popFree it id, some it)
    | _ => (m, none)
  else (m, none)

/-- `do_slabs_alloc` (lines 406-448). -/
def slabsAlloc (cfg : Config) (m : Memory) (id : ℕ) (page : Option Page) :
    Memory × Option Chunk :=
  if id < powerSmallest ∨ id > cfg.powerLargest then (m, none)
  else takeSlot (if m.slCurr id = 0 then newslab cfg m id page else m) id

/-- The words `next` and `prev` of an item are written. -/
def setLinks (m : Memory) (it : Chunk) (next prev : Option Ptr) : Memory :=
  { m with lists := { m.lists with
      next := update m.lists.next (.inl it) next
      prev := update m.lists.prev (.inl it) prev } }

/-- `do_item_alloc` initialises an item (`items.c`, lines 322-338). -/
def initItem (m : Memory) (it : Chunk) (id : ℕ) : Memory :=
  { setLinks m it none none with
    cells := update m.cells it { m.cells it with clsid := id }
    owner := update m.owner it .item }

/-- `do_item_alloc` initialises the header of a large item (`items.c`, lines 295-358): it gets
the class of large items, and its own one is kept in `orig_clsid`. -/
def initHeader (m : Memory) (it : Chunk) (hdrId id : ℕ) : Memory :=
  { m with
    lists := (setLinks m it none none).lists.pushHead (.inr it) (.inr it)
    cells := update m.cells it
      { m.cells it with chunked := true, clsid := id, origClsid := hdrId }
    owner := update m.owner it .header }

/-- `do_item_alloc_chunk` links a chunk behind the last one of an item (`items.c`, lines
248-258). -/
def linkChunk (m : Memory) (it nch : Chunk) (id : ℕ) : Memory :=
  { m with
    lists := m.lists.pushTail (.inr it) (.inl nch)
    cells := update m.cells nch { m.cells nch with clsid := id, chunk := true }
    owner := update m.owner nch (.chunkOf it) }

inductive MemOp where
  | alloc (id : ℕ) (page : Option Page)
  | newslab (id : ℕ) (page : Option Page)
  | initItem (it : Chunk) (id : ℕ)
  | initHeader (it : Chunk) (hdrId id : ℕ)
  | linkChunk (it nch : Chunk) (id : ℕ)
  | lru (it : Chunk) (next prev : Option Ptr)
  | free (it : Chunk)
deriving DecidableEq

/-- The page is not one of a class. -/
def Memory.Fresh (cfg : Config) (m : Memory) (page : Option Page) : Prop :=
  ∀ p ∈ page, ∀ id ∈ Finset.range (cfg.powerLargest + 1), p ∉ m.slabList id

instance (cfg : Config) (m : Memory) (page : Option Page) : Decidable (m.Fresh cfg page) :=
  inferInstanceAs (Decidable (∀ p ∈ page, _))

/-- What the callers see to: the operating system and the pool give pages that no class has,
memory is initialised by the thread that took it, for the class it asked for, and only
items are freed, by their holder. -/
def MemOp.Guard (cfg : Config) (m : Memory) : MemOp → Prop
  | .alloc _ page => m.Fresh cfg page
  | .newslab id page => (powerSmallest ≤ id ∧ id ≤ cfg.powerLargest) ∧ m.Fresh cfg page
  | .initItem it id => m.owner it = .taken id
  | .initHeader it hdrId id =>
    m.owner it = .taken hdrId ∧ powerSmallest ≤ id ∧ id ≤ cfg.powerLargest
  | .linkChunk it nch id => m.owner it = .header ∧ m.owner nch = .taken id
  | .lru it _ _ => m.owner it = .item ∨ m.owner it = .header
  | .free it => m.owner it = .item ∨ m.owner it = .header

/-- One step; `item_free` passes the class of the item to `slabs_free`. -/
def memStep (cfg : Config) (m : Memory) : MemOp → Memory × Option Chunk
  | .alloc id page => slabsAlloc cfg m id page
  | .newslab id page => (newslab cfg m id page, none)
  | .initItem it id => (initItem m it id, none)
  | .initHeader it hdrId id => (initHeader m it hdrId id, none)
  | .linkChunk it nch id => (linkChunk m it nch id, none)
  | .lru it next prev => (setLinks m it next prev, none)
  | .free it => (slabsFree cfg m it (m.cells it).clsid, none)

instance (cfg : Config) (m : Memory) (op : MemOp) : Decidable (op.Guard cfg m) := by
  cases op <;> unfold MemOp.Guard <;> infer_instance

/-- Before `slabs_init` gives any class a page. -/
def emptyMemory : Memory where
  lists := ⟨fun _ => none, fun _ => none, fun _ => none, fun _ => none⟩
  cells := fun _ =>
    { slabbed := false, chunked := false, chunk := false, clsid := 0, origClsid := 0 }
  slCurr := fun _ => 0
  slabList := fun _ => []
  owner := fun _ => .outside

/-- The steps of any number of threads, each under its lock. -/
def memory (cfg : Config) : System Memory MemOp (Option Chunk) where
  init := fun m => m = emptyMemory
  step := fun m op => if op.Guard cfg m then some (memStep cfg m op) else none

/-! ## The invariant -/

/-- The flags of a chunk say what it is used for. -/
def Owner.Flags : Owner → Cell → Prop
  | .outside, _ => True
  | .free, c => c.slabbed = true ∧ c.chunked = false ∧ c.chunk = false
  | .taken _, c => c.slabbed = false ∧ c.chunked = false ∧ c.chunk = false
  | .item, c => c.slabbed = false ∧ c.chunked = false ∧ c.chunk = false
  | .header, c => c.slabbed = false ∧ c.chunked = true ∧ c.chunk = false
  | .chunkOf _, c => c.slabbed = false ∧ c.chunked = false ∧ c.chunk = true
  | .loose, c => c.slabbed = false

/-- The chunk is one of the pages of class `id`. -/
def Memory.InClass (cfg : Config) (m : Memory) (id : ℕ) (c : Chunk) : Prop :=
  c.page ∈ m.slabList id ∧ c.idx < cfg.perslab id

/-- The class that a chunk's memory belongs to, as the functions find it. -/
def Memory.memClass (m : Memory) (c : Chunk) : ℕ :=
  if m.owner c = .header then (m.cells c).origClsid else (m.cells c).clsid

/-- The list that the words `next` and `prev` of a chunk belong to. -/
def Owner.list (cell : Cell) : Owner → Option (ℕ ⊕ Chunk)
  | .free => some (.inl cell.clsid)
  | .chunkOf h => some (.inr h)
  | _ => none

/-- The list that a pointer is in. -/
def Memory.place (m : Memory) : Ptr → Option (ℕ ⊕ Chunk)
  | .inl c => (m.owner c).list (m.cells c)
  | .inr c => if m.owner c = .header then some (.inr c) else none

def Memory.freeSet (m : Memory) (id : ℕ) : Set Chunk :=
  {c | m.owner c = .free ∧ (m.cells c).clsid = id}

structure MemInv (cfg : Config) (m : Memory) : Prop where
  range : ∀ id, m.slabList id ≠ [] → powerSmallest ≤ id ∧ id ≤ cfg.powerLargest
  pages : ∀ id, (m.slabList id).Nodup
  disjoint : ∀ {id id' p}, p ∈ m.slabList id → p ∈ m.slabList id' → id = id'
  owned : ∀ c, m.owner c ≠ .outside → m.owner c ≠ .loose → m.InClass cfg (m.memClass c) c
  covers : ∀ {id c}, m.InClass cfg id c → m.owner c ≠ .outside
  flags : ∀ c, (m.owner c).Flags (m.cells c)
  taken : ∀ {c id}, m.owner c = .taken id → (m.cells c).clsid = id
  heads : ∀ {c h}, m.owner c = .chunkOf h → m.owner h = .header
  lists : m.lists.Placed m.place
  first : ∀ {h}, m.owner h = .header → m.lists.head (.inr h) = some (.inr h)
  curr : ∀ id, m.slCurr id = (m.freeSet id).ncard
  largest : ∀ {h}, m.owner h = .header →
    powerSmallest ≤ (m.cells h).clsid ∧ (m.cells h).clsid ≤ cfg.powerLargest

variable {cfg : Config} {m : Memory} {c it : Chunk} {id : ℕ}

theorem memInv_emptyMemory (cfg : Config) : MemInv cfg emptyMemory where
  range := fun id h => absurd rfl h
  pages := fun _ => List.nodup_nil
  disjoint := fun h => absurd h List.not_mem_nil
  owned := fun _ h => absurd rfl h
  covers := fun h => absurd h.1 List.not_mem_nil
  flags := fun _ => trivial
  taken := fun h => by cases h
  heads := fun h => by cases h
  lists := fun i => by
    refine ⟨[], rfl, rfl, fun p => ?_⟩
    cases p <;> simp [Memory.place, emptyMemory, Owner.list]
  first := fun h => by cases h
  curr := fun id => by
    have he : emptyMemory.freeSet id = ∅ := by
      ext c
      simp [Memory.freeSet, emptyMemory]
    rw [he, Set.ncard_empty]
    rfl
  largest := fun h => by cases h

/-! ## Changes of one chunk -/

theorem MemInv.inClass (h : MemInv cfg m) {o : Owner} (ho : m.owner c = o) (h1 : o ≠ .outside)
    (h2 : o ≠ .loose) (h3 : o ≠ .header) : m.InClass cfg (m.cells c).clsid c := by
  subst ho
  have hi := h.owned c h1 h2
  rwa [Memory.memClass, if_neg h3] at hi

theorem MemInv.finite_freeSet (h : MemInv cfg m) (id : ℕ) : (m.freeSet id).Finite := by
  obtain ⟨l, -, -, hm⟩ := h.lists (.inl id)
  refine Set.Finite.of_finite_image (f := Sum.inl (β := Chunk)) (l.finite_toSet.subset ?_)
    Sum.inl_injective.injOn
  rintro _ ⟨c, ⟨hf, hc⟩, rfl⟩
  refine (hm _).mpr ?_
  simp [Memory.place, Owner.list, hf, hc]

/-- The chunk `c` is now used for `o`, and has the fields `cell`. -/
structure Turns (m m' : Memory) (c : Chunk) (o : Owner) (cell : Cell) : Prop where
  owner : m'.owner = update m.owner c o
  cells : m'.cells = update m.cells c cell
  slabList : m'.slabList = m.slabList

section Turns

variable {m' : Memory} {o : Owner} {cell : Cell}

section

variable (ht : Turns m m' c o cell)
include ht

theorem Turns.place_inl (b : Chunk) :
    m'.place (.inl b) = update m.place (.inl c) (o.list cell) (.inl b) := by
  by_cases hb : b = c
  · subst hb
    simp [Memory.place, ht.owner, ht.cells]
  · simp [Memory.place, ht.owner, ht.cells, hb]

theorem Turns.place (hol : m.owner c ≠ .header) (ho : o ≠ .header) :
    m'.place = update m.place (.inl c) (o.list cell) := by
  funext p
  cases p with
  | inl b => exact ht.place_inl b
  | inr b =>
    by_cases hb : b = c
    · subst hb
      simp [Memory.place, ht.owner, hol, ho]
    · simp [Memory.place, ht.owner, hb]

theorem Turns.freeSet_of_ne (hol : m.owner c ≠ .free)
    (ho : o ≠ .free) (id : ℕ) : m'.freeSet id = m.freeSet id := by
  ext b
  by_cases hb : b = c
  · subst hb
    simp [Memory.freeSet, ht.owner, hol, ho]
  · simp [Memory.freeSet, ht.owner, ht.cells, hb]

end

theorem MemInv.turns (h : MemInv cfg m) (ht : Turns m m' c o cell) (hol : m.owner c ≠ .header)
    (ho : o ≠ .outside) (hfl : o.Flags cell)
    (hi : m.InClass cfg (if o = .header then cell.origClsid else cell.clsid) c)
    (hta : ∀ id, o = .taken id → cell.clsid = id)
    (hh : ∀ h, o = .chunkOf h → m.owner h = .header)
    (hla : o = .header → powerSmallest ≤ cell.clsid ∧ cell.clsid ≤ cfg.powerLargest)
    (hli : m'.lists.Placed m'.place)
    (hs : o = .header → m'.lists.head (.inr c) = some (.inr c))
    (hf : ∀ x, m.owner x = .header → m'.lists.head (.inr x) = m.lists.head (.inr x))
    (hc : ∀ id, m'.slCurr id = (m'.freeSet id).ncard) : MemInv cfg m' where
  range := by
    rw [ht.slabList]
    exact h.range
  pages := by
    rw [ht.slabList]
    exact h.pages
  disjoint := by
    rw [ht.slabList]
    exact h.disjoint
  owned := fun b hb hl => by
    unfold Memory.InClass Memory.memClass
    rw [ht.slabList, ht.owner, ht.cells]
    rw [ht.owner] at hb hl
    by_cases hbc : b = c
    · rw [hbc, update_self, update_self]
      exact hi
    · rw [update_of_ne hbc] at hb hl
      rw [update_of_ne hbc, update_of_ne hbc]
      exact h.owned b hb hl
  covers := fun {id b} hb => by
    unfold Memory.InClass at hb
    rw [ht.slabList] at hb
    rw [ht.owner]
    by_cases hbc : b = c
    · rwa [hbc, update_self]
    · rw [update_of_ne hbc]
      exact h.covers hb
  flags := fun b => by
    rw [ht.owner, ht.cells]
    by_cases hbc : b = c
    · rwa [hbc, update_self, update_self]
    · rw [update_of_ne hbc, update_of_ne hbc]
      exact h.flags b
  taken := fun {b id} hb => by
    rw [ht.owner] at hb
    rw [ht.cells]
    by_cases hbc : b = c
    · rw [hbc, update_self] at hb
      rw [hbc, update_self]
      exact hta id hb
    · rw [update_of_ne hbc] at hb
      rw [update_of_ne hbc]
      exact h.taken hb
  heads := fun {b x} hb => by
    rw [ht.owner] at hb ⊢
    have hx : m.owner x = .header := by
      by_cases hbc : b = c
      · rw [hbc, update_self] at hb
        exact hh x hb
      · rw [update_of_ne hbc] at hb
        exact h.heads hb
    have hxc : x ≠ c := fun he => hol (he ▸ hx)
    rwa [update_of_ne hxc]
  lists := hli
  first := fun {x} hx => by
    rw [ht.owner] at hx
    by_cases hxc : x = c
    · rw [hxc, update_self] at hx
      rw [hxc]
      exact hs hx
    · rw [update_of_ne hxc] at hx
      exact (hf x hx).trans (h.first hx)
  curr := hc
  largest := fun {x} hx => by
    rw [ht.owner] at hx
    rw [ht.cells]
    by_cases hxc : x = c
    · rw [hxc, update_self] at hx
      rw [hxc, update_self]
      exact hla hx
    · rw [update_of_ne hxc] at hx
      rw [update_of_ne hxc]
      exact h.largest hx

end Turns

/-! ## Free lists -/

/-- What a thread may put on a free list. -/
def Owner.Freeable (o : Owner) : Prop := o = .item ∨ o = .loose

theorem Owner.Freeable.ne {o o' : Owner} (hf : o.Freeable) (h1 : o' ≠ .item) (h2 : o' ≠ .loose) :
    o ≠ o' := by
  obtain rfl | rfl := hf
  · exact h1.symm
  · exact h2.symm

theorem pushFree_turns (m : Memory) (c : Chunk) (id : ℕ) :
    Turns m (m.pushFree c id) c .free
      { m.cells c with slabbed := true, chunked := false, chunk := false, clsid := id } :=
  ⟨rfl, rfl, rfl⟩

section

variable (h : MemInv cfg m)
include h

theorem MemInv.pushFree (hf : (m.owner c).Freeable)
    (hi : m.InClass cfg id c) : MemInv cfg (m.pushFree c id) := by
  have ht := pushFree_turns m c id
  have hh : m.owner c ≠ .header := hf.ne (by decide) (by decide)
  have hfr : m.owner c ≠ .free := hf.ne (by decide) (by decide)
  have hp : m.place (.inl c) = none := by
    obtain hf | hf := hf <;> simp [Memory.place, Owner.list, hf]
  refine h.turns ht hh (by decide) ⟨rfl, rfl, rfl⟩ ?_ (fun _ he => by cases he)
    (fun _ he => by cases he) (fun he => by cases he) ?_ (fun he => by cases he)
    (fun x _ => by simp [Memory.pushFree, DMem.pushHead]) fun j => ?_
  · rw [if_neg (by decide)]
    exact hi
  · rw [ht.place hh (by decide)]
    exact h.lists.pushHead hp
  show update m.slCurr id (m.slCurr id + 1) j = _
  by_cases hj : j = id
  · have hs : (m.pushFree c id).freeSet j = insert c (m.freeSet id) := by
      ext b
      by_cases hb : b = c
      · subst hb
        simp [Memory.freeSet, Memory.pushFree, hj]
      · simp [Memory.freeSet, Memory.pushFree, hb, hj]
    rw [hs, hj, update_self, h.curr id,
      Set.ncard_insert_of_notMem (fun hm => hfr hm.1) (h.finite_freeSet id)]
  · have hs : (m.pushFree c id).freeSet j = m.freeSet j := by
      ext b
      by_cases hb : b = c
      · subst hb
        simp [Memory.freeSet, Memory.pushFree, hfr, Ne.symm hj]
      · simp [Memory.freeSet, Memory.pushFree, hb]
    rw [hs, update_of_ne hj, h.curr j]

theorem MemInv.head_free {p : Ptr} (hp : m.lists.head (.inl id) = some p) :
    ∃ c, p = .inl c ∧ m.owner c = .free ∧ (m.cells c).clsid = id := by
  have hpl := h.lists.place_of_head hp
  cases p with
  | inl c =>
    refine ⟨c, rfl, ?_⟩
    simp only [Memory.place] at hpl
    cases ho : m.owner c <;> rw [ho] at hpl <;> simp [Owner.list] at hpl
    exact ⟨rfl, hpl⟩
  | inr c =>
    simp only [Memory.place] at hpl
    split_ifs at hpl
    cases hpl

theorem takeSlot_cases (id : ℕ) :
    takeSlot m id = (m, none) ∨
    ∃ it, m.owner it = .free ∧ (m.cells it).clsid = id ∧
      m.lists.head (.inl id) = some (.inl it) ∧
      takeSlot m id = (m.popFree it id, some it) := by
  unfold takeSlot
  split_ifs with hc
  · cases hh : m.lists.head (.inl id) with
    | none => exact .inl rfl
    | some p =>
      obtain ⟨it, rfl, hf, hcl⟩ := h.head_free hh
      exact .inr ⟨it, hf, hcl, rfl, rfl⟩
  · exact .inl rfl

theorem MemInv.takeSlot (id : ℕ) : MemInv cfg (takeSlot m id).1 := by
  obtain he | ⟨it, hf, hc, hhe, he⟩ := takeSlot_cases h id
  · rw [he]
    exact h
  rw [he]
  have hh : m.owner it ≠ .header := by rw [hf]; decide
  have ht : Turns m (m.popFree it id) it (.taken id) { m.cells it with slabbed := false } :=
    ⟨rfl, rfl, rfl⟩
  have hfl := h.flags it
  rw [hf] at hfl
  have hi := h.inClass hf (by decide) (by decide) (by decide)
  refine h.turns ht hh (by simp) ⟨rfl, hfl.2.1, hfl.2.2⟩ ?_ (fun j hj => ?_)
    (fun _ he => by cases he) (fun he => by cases he) ?_ (fun he => by cases he)
    (fun x _ => by simp [Memory.popFree, DMem.popHead]) fun j => ?_
  · rw [if_neg (by simp)]
    exact hi
  · cases hj
    exact hc
  · rw [ht.place hh (by simp)]
    exact h.lists.popHead hhe
  show update m.slCurr id (m.slCurr id - 1) j = _
  have hs : (m.popFree it id).freeSet j = m.freeSet j \ {it} := by
    ext b
    by_cases hb : b = it
    · subst hb
      simp [Memory.freeSet, Memory.popFree]
    · simp [Memory.freeSet, Memory.popFree, hb]
  rw [hs]
  by_cases hj : j = id
  · rw [hj, update_self, h.curr id,
      Set.ncard_sdiff_singleton_of_mem (show it ∈ m.freeSet id from ⟨hf, hc⟩)]
  · rw [update_of_ne hj, h.curr j, Set.sdiff_singleton_eq_self]
    exact fun hm => hj (hm.2.symm.trans hc)

end

/-! ## Items, headers and chunks of large items -/

section

variable (h : MemInv cfg m)
include h

theorem MemInv.setLinks (hpl : m.place (.inl it) = none)
    (next prev : Option Ptr) : MemInv cfg (setLinks m it next prev) := by
  have hn : ∀ p, m.place p ≠ none → p ≠ .inl it := by
    rintro _ hp rfl
    exact hp hpl
  have hl : (Slabs.setLinks m it next prev).lists.Placed m.place :=
    h.lists.congr_ptrs rfl rfl (fun p hp => update_of_ne (hn p hp) _ _)
      fun p hp => update_of_ne (hn p hp) _ _
  exact { h with lists := hl }

theorem MemInv.of_taken (ho : m.owner it = .taken id) :
    m.place (.inl it) = none ∧ m.InClass cfg id it ∧ (m.cells it).slabbed = false ∧
      (m.cells it).chunked = false ∧ (m.cells it).chunk = false := by
  have hf := h.flags it
  have hi := h.inClass ho (by simp) (by simp) (by simp)
  rw [ho] at hf
  rw [h.taken ho] at hi
  exact ⟨by simp [Memory.place, Owner.list, ho], hi, hf⟩

theorem MemInv.initItem (ho : m.owner it = .taken id) : MemInv cfg (initItem m it id) := by
  obtain ⟨hpl, hi, hf⟩ := h.of_taken ho
  have hl := h.setLinks hpl none none
  have ht : Turns (Slabs.setLinks m it none none) (Slabs.initItem m it id) it .item
      { m.cells it with clsid := id } := ⟨rfl, rfl, rfl⟩
  have ho' : (Slabs.setLinks m it none none).owner it = .taken id := ho
  refine hl.turns ht (by rw [ho']; simp) (by decide) hf ?_ (fun _ he => by cases he)
    (fun _ he => by cases he) (fun he => by cases he) ?_ (fun he => by cases he)
    (fun x _ => rfl) fun j => ?_
  · rw [if_neg (by decide)]
    exact hi
  · rw [ht.place (by rw [ho']; simp) (by decide)]
    refine hl.lists.congr_place fun p i => ?_
    by_cases hp : p = .inl it
    · have hp' : (Slabs.setLinks m it none none).place (.inl it) = none := hpl
      rw [hp, update_self, hp']
      rfl
    · rw [update_of_ne hp]
  · rw [ht.freeSet_of_ne (by rw [ho']; simp) (by decide)]
    exact hl.curr j

theorem MemInv.initHeader {hd : ℕ} (ho : m.owner it = .taken hd)
    (hi : powerSmallest ≤ id ∧ id ≤ cfg.powerLargest) : MemInv cfg (initHeader m it hd id) := by
  obtain ⟨hp, hin, hs, -, hc⟩ := h.of_taken ho
  have hl := h.setLinks hp none none
  have ht : Turns (Slabs.setLinks m it none none) (Slabs.initHeader m it hd id) it .header
      { m.cells it with chunked := true, clsid := id, origClsid := hd } := ⟨rfl, rfl, rfl⟩
  have ho' : (Slabs.setLinks m it none none).owner it = .taken hd := ho
  have hn : (Slabs.setLinks m it none none).place (.inr it) = none := by
    simp [Memory.place, ho']
  refine hl.turns ht (by rw [ho']; simp) (by decide) ⟨hs, rfl, hc⟩ ?_
    (fun _ he => by cases he) (fun _ he => by cases he) (fun _ => hi) ?_
    (fun _ => update_self _ _ _) (fun x hx => ?_) fun j => ?_
  · rw [if_pos rfl]
    exact hin
  · refine (hl.lists.pushHead (i := .inr it) hn).congr_place fun p i => ?_
    cases p with
    | inl b =>
      rw [ht.place_inl]
      have hb' : (Sum.inl b : Ptr) ≠ .inr it := Sum.inl_ne_inr
      rw [update_of_ne hb']
      by_cases hb : b = it
      · have hp' : (Slabs.setLinks m it none none).place (.inl it) = none := hp
        rw [hb, update_self, hp']
        rfl
      · rw [update_of_ne (fun he => hb (Sum.inl.inj he))]
    | inr b =>
      by_cases hb : b = it
      · subst hb
        simp [Memory.place, ht.owner]
      · rw [update_of_ne (fun he => hb (Sum.inr.inj he))]
        simp [Memory.place, ht.owner, hb]
  · refine update_of_ne (fun he => ?_) _ _
    rw [Sum.inr.inj he, ho'] at hx
    cases hx
  · rw [ht.freeSet_of_ne (by rw [ho']; simp) (by decide)]
    exact hl.curr j

theorem MemInv.linkChunk {nch : Chunk} (hit : m.owner it = .header)
    (ho : m.owner nch = .taken id) : MemInv cfg (linkChunk m it nch id) := by
  obtain ⟨hp, hi, hs, hc, -⟩ := h.of_taken ho
  have ht : Turns m (Slabs.linkChunk m it nch id) nch (.chunkOf it)
      { m.cells nch with clsid := id, chunk := true } := ⟨rfl, rfl, rfl⟩
  have hh : m.owner nch ≠ .header := by rw [ho]; simp
  refine h.turns ht hh (by simp) ⟨hs, hc, rfl⟩ ?_ (fun _ he => by cases he)
    (fun x he => ?_) (fun he => by cases he) ?_ (fun he => by cases he) (fun x hx => ?_)
    fun j => ?_
  · rw [if_neg (by simp)]
    exact hi
  · cases he
    exact hit
  · rw [ht.place hh (by simp)]
    exact h.lists.pushTail hp
  · by_cases hxi : x = it
    · simp [hxi, Slabs.linkChunk, DMem.pushTail, h.first hit]
    · simp [hxi, Slabs.linkChunk, DMem.pushTail]
  · rw [ht.freeSet_of_ne (by rw [ho]; simp) (by simp)]
    exact h.curr j

end

/-! ## Freeing a large item -/

theorem list_eq_inr {o : Owner} {cell : Cell} {x : Chunk} :
    o.list cell = some (.inr x) ↔ o = .chunkOf x := by
  cases o <;> simp [Owner.list]

theorem place_dropChain (hit : m.owner it = .header) (p : Ptr) :
    (m.dropChain it).place p = if m.place p = some (.inr it) then none else m.place p := by
  cases p with
  | inl b =>
    have hl : (m.dropChain it).place (.inl b) =
        (if b = it ∨ m.owner b = .chunkOf it then Owner.loose else m.owner b).list (m.cells b) :=
      rfl
    rw [hl]
    by_cases ho : m.owner b = .chunkOf it
    · have hp : m.place (.inl b) = some (.inr it) := list_eq_inr.mpr ho
      rw [if_pos (.inr ho), if_pos hp]
      rfl
    have hp : m.place (.inl b) ≠ some (.inr it) := fun he => ho (list_eq_inr.mp he)
    rw [if_neg hp]
    by_cases hb : b = it
    · rw [if_pos (.inl hb), Memory.place, hb, hit]
      rfl
    · rw [if_neg (by simp [hb, ho])]
      rfl
  | inr b =>
    simp only [Memory.place, Memory.dropChain]
    by_cases hb : b = it
    · subst hb
      simp [hit]
    by_cases ho : m.owner b = .header
    · simp [ho, hb]
    have hn : ¬(if b = it ∨ m.owner b = .chunkOf it then Owner.loose else m.owner b) =
        .header := by
      split_ifs
      · simp
      · exact ho
    simp [ho, hn]

theorem MemInv.dropChain (h : MemInv cfg m) (hit : m.owner it = .header) :
    MemInv cfg (m.dropChain it) := by
  have hk : ∀ {b o}, (m.dropChain it).owner b = o → o ≠ .loose →
      m.owner b = o ∧ b ≠ it ∧ m.owner b ≠ .chunkOf it := by
    intro b o hb ho
    simp only [Memory.dropChain] at hb
    split_ifs at hb with hc
    · exact absurd hb.symm ho
    · exact ⟨hb, fun he => hc (.inl he), fun he => hc (.inr he)⟩
  have hba : ∀ {b}, b ≠ it → m.owner b ≠ .chunkOf it → (m.dropChain it).owner b = m.owner b :=
    fun h1 h2 => if_neg (by simp [h1, h2])
  constructor
  · exact h.range
  · exact h.pages
  · exact h.disjoint
  · intro b hb hl
    obtain ⟨ho, -⟩ := hk rfl hl
    have hi := h.owned b (by rwa [ho]) (by rwa [ho])
    rw [Memory.memClass, ho] at hi
    exact hi
  · intro id b hi
    simp only [Memory.dropChain]
    split_ifs
    · simp
    · exact h.covers hi
  · intro b
    have hf := h.flags b
    show Owner.Flags (if _ then _ else _) (m.cells b)
    split_ifs with hc
    · obtain rfl | ho := hc
      · rw [hit] at hf
        exact hf.1
      · rw [ho] at hf
        exact hf.1
    · exact hf
  · intro b id hb
    exact h.taken (hk hb (by simp)).1
  · intro b x hb
    obtain ⟨ho, -, hn⟩ := hk hb (by simp)
    have hx := h.heads ho
    rw [hba (fun he => hn (he ▸ ho)) (by rw [hx]; simp)]
    exact hx
  · exact (h.lists.drop (.inr it)).congr_place fun p i => by rw [place_dropChain hit]
  · intro x hx
    obtain ⟨ho, hn, -⟩ := hk hx (by simp)
    exact (update_of_ne (fun he => hn (Sum.inr.inj he)) _ _).trans (h.first ho)
  · intro id
    have hs : (m.dropChain it).freeSet id = m.freeSet id := by
      ext b
      constructor
      · rintro ⟨hb, hcl⟩
        exact ⟨(hk hb (by simp)).1, hcl⟩
      rintro ⟨hb, hcl⟩
      refine ⟨(hba ?_ ?_).trans hb, hcl⟩
      · rintro rfl
        rw [hit] at hb
        cases hb
      · rw [hb]
        simp
    rw [hs]
    exact h.curr id
  · intro x hx
    exact h.largest (hk hx (by simp)).1

theorem freeChain_spec {l : List Chunk} (fuel : ℕ) (hf : l.length ≤ fuel) {p : Option Ptr}
    (h : MemInv cfg m) (hl : Linked m.lists.next p (l.map .inl))
    (hlo : ∀ c ∈ l, m.owner c = .loose ∧ m.InClass cfg (m.cells c).clsid c) :
    MemInv cfg (freeChain fuel m p) ∧
      ∀ c, (freeChain fuel m p).owner c = if c ∈ l then .free else m.owner c := by
  have hn : l.Nodup := (List.nodup_map_iff Sum.inl_injective).mp hl.nodup
  induction l generalizing m fuel p with
  | nil =>
    obtain rfl := linked_nil.mp hl
    cases fuel <;> exact ⟨h, fun c => by simp [freeChain]⟩
  | cons x l ih =>
    obtain ⟨rfl, hr⟩ := hl
    obtain ⟨hx, hn'⟩ := List.nodup_cons.mp hn
    obtain ⟨ho, hin⟩ := hlo x (.head _)
    cases fuel with
    | zero => simp at hf
    | succ fuel =>
      have hpu := h.pushFree (.inr ho) hin
      have hne : ∀ c ∈ l, c ≠ x := fun c hc he => hx (he ▸ hc)
      have hl' : Linked (m.pushFree x (m.cells x).clsid).lists.next (m.lists.next (.inl x))
          (l.map .inl) := by
        refine hr.congr fun p hp => update_of_ne ?_ _ _
        obtain ⟨c, hc, rfl⟩ := List.mem_map.mp hp
        exact fun he => hne c hc (Sum.inl.inj he)
      have hlo' : ∀ c ∈ l, (m.pushFree x (m.cells x).clsid).owner c = .loose ∧
          (m.pushFree x (m.cells x).clsid).InClass cfg
            ((m.pushFree x (m.cells x).clsid).cells c).clsid c := by
        intro c hc
        have hcx := hne c hc
        have := hlo c (.tail _ hc)
        simpa [Memory.pushFree, hcx, Memory.InClass] using this
      obtain ⟨hi, how⟩ := ih fuel (by simpa using hf) hpu hl' hlo' hn'
      refine ⟨hi, fun c => ?_⟩
      show (freeChain fuel _ _).owner c = _
      rw [how]
      by_cases hc : c ∈ l
      · simp [hc]
      by_cases hcx : c = x
      · subst hcx
        simp [Memory.pushFree, hc]
      · simp [Memory.pushFree, hc, hcx]

theorem exists_map_inl {l : List Ptr} (h : ∀ p ∈ l, ∃ c, p = .inl c) :
    ∃ l' : List Chunk, l = l'.map .inl := by
  induction l with
  | nil => exact ⟨[], rfl⟩
  | cons p l ih =>
    obtain ⟨c, rfl⟩ := h p (.head _)
    obtain ⟨l', rfl⟩ := ih fun q hq => h q (.tail _ hq)
    exact ⟨c :: l', rfl⟩

theorem MemInv.chain (h : MemInv cfg m) (hit : m.owner it = .header) :
    ∃ l : List Chunk, Linked m.lists.next (some (.inr it)) (.inr it :: l.map .inl) ∧
      Linked m.lists.prev (m.lists.tail (.inr it)) (.inr it :: l.map .inl).reverse ∧
      l.Nodup ∧ ∀ c, c ∈ l ↔ m.owner c = .chunkOf it := by
  obtain ⟨l, hn, hpr, hm⟩ := h.lists (.inr it)
  rw [h.first hit] at hn
  cases l with
  | nil => cases linked_nil.mp hn
  | cons a l =>
    obtain rfl : .inr it = a := Option.some.inj hn.1
    obtain ⟨hnot, hno⟩ := List.nodup_cons.mp hn.nodup
    -- every later node is a chunk: the only header in the list is its first node
    have hch : ∀ p ∈ l, ∃ c, p = .inl c ∧ m.owner c = .chunkOf it := by
      intro p hp
      have hpl := (hm p).mp (.tail _ hp)
      cases p with
      | inl c => exact ⟨c, rfl, list_eq_inr.mp hpl⟩
      | inr c =>
        simp only [Memory.place] at hpl
        split_ifs at hpl
        obtain rfl : c = it := Sum.inr.inj (Option.some.inj hpl)
        exact absurd hp hnot
    obtain ⟨l', rfl⟩ := exists_map_inl fun p hp => (hch p hp).imp fun _ hc => hc.1
    refine ⟨l', hn, hpr, (List.nodup_map_iff Sum.inl_injective).mp hno, fun c => ?_⟩
    constructor
    · intro hc
      obtain ⟨c', he, ho⟩ := hch (.inl c) (List.mem_map_of_mem hc)
      rwa [Sum.inl.inj he]
    intro ho
    have hpl : m.place (.inl c) = some (.inr it) := list_eq_inr.mpr ho
    have hi := (hm _).mpr hpl
    rw [List.mem_cons] at hi
    obtain he | hi := hi
    · cases he
    · obtain ⟨c', hc', he⟩ := List.mem_map.mp hi
      rwa [← Sum.inl.inj he]

theorem mem_classChunks : c ∈ m.classChunks cfg id ↔ m.InClass cfg id c := by
  simp only [Memory.classChunks, Finset.mem_biUnion, List.mem_toFinset, Finset.mem_image,
    Finset.mem_range, Memory.InClass]
  constructor
  · rintro ⟨p, hp, x, hx, rfl⟩
    exact ⟨hp, hx⟩
  · rintro ⟨hp, hx⟩
    exact ⟨c.page, hp, c.idx, hx, rfl⟩

theorem MemInv.mem_allChunks (h : MemInv cfg m) (hi : m.InClass cfg id c) :
    c ∈ m.allChunks cfg := by
  rw [Memory.allChunks, Finset.mem_biUnion]
  refine ⟨id, ?_, mem_classChunks.mpr hi⟩
  have hr := h.range id (List.ne_nil_of_mem hi.1)
  rw [Finset.mem_range]
  omega

theorem freeChunked_spec (h : MemInv cfg m) (hit : m.owner it = .header) :
    MemInv cfg (freeChunked cfg m it) ∧
      ∀ c, (freeChunked cfg m it).owner c =
        if c = it ∨ m.owner c = .chunkOf it then .free else m.owner c := by
  obtain ⟨l, hne, -, hn, hm⟩ := h.chain hit
  have hi := h.owned it (by rw [hit]; simp) (by rw [hit]; simp)
  rw [Memory.memClass, if_pos hit] at hi
  have hd := h.dropChain hit
  have hlo : (m.dropChain it).owner it = .loose := if_pos (.inl rfl)
  have hpu := hd.pushFree (.inr hlo) hi
  have hno : ∀ c ∈ l, c ≠ it := by
    rintro c hc rfl
    have := (hm c).mp hc
    rw [hit] at this
    cases this
  have hcl : ∀ c ∈ l, m.InClass cfg (m.cells c).clsid c := fun c hc =>
    h.inClass ((hm c).mp hc) (by simp) (by simp) (by simp)
  have hle : l.length ≤ ((m.dropChain it).allChunks cfg).card := by
    rw [← List.toFinset_card_of_nodup hn]
    refine Finset.card_le_card fun c hc => ?_
    exact hd.mem_allChunks (hcl c (List.mem_toFinset.mp hc))
  have hl : Linked ((m.dropChain it).pushFree it (m.cells it).origClsid).lists.next
      (m.lists.next (.inr it)) (l.map .inl) := by
    refine hne.2.congr fun p hp => ?_
    obtain ⟨c, hc, rfl⟩ := List.mem_map.mp hp
    exact update_of_ne (fun he => hno c hc (Sum.inl.inj he)) _ _
  obtain ⟨hin, how⟩ := freeChain_spec _ hle hpu hl fun c hc => by
    have hci := hno c hc
    refine ⟨?_, ?_⟩
    · show update _ _ _ _ = _
      rw [update_of_ne hci]
      exact if_pos (.inr ((hm c).mp hc))
    · have hce : ((m.dropChain it).pushFree it (m.cells it).origClsid).cells c =
          m.cells c := update_of_ne hci _ _
      rw [hce]
      exact hcl c hc
  refine ⟨hin, fun c => (how c).trans ?_⟩
  by_cases hc : c ∈ l
  · rw [if_pos hc, if_pos (.inr ((hm c).mp hc))]
  rw [if_neg hc]
  have hnc : m.owner c ≠ .chunkOf it := fun ho => hc ((hm c).mpr ho)
  by_cases hci : c = it
  · rw [if_pos (.inl hci), hci]
    exact update_self _ _ _
  rw [if_neg (by simp [hci, hnc])]
  have hk : ((m.dropChain it).pushFree it (m.cells it).origClsid).owner c =
      (m.dropChain it).owner c := update_of_ne hci _ _
  rw [hk]
  exact if_neg (by simp [hci, hnc])

theorem slabsFree_spec (h : MemInv cfg m) (ho : m.owner it = .item ∨ m.owner it = .header) :
    MemInv cfg (slabsFree cfg m it (m.cells it).clsid) ∧
      ∀ c, (slabsFree cfg m it (m.cells it).clsid).owner c =
        if c = it ∨ m.owner c = .chunkOf it then .free else m.owner c := by
  have hf := h.flags it
  obtain ho | ho := ho
  · rw [ho] at hf
    have hi := h.inClass ho (by simp) (by simp) (by simp)
    have hr := h.range _ (List.ne_nil_of_mem hi.1)
    unfold slabsFree
    rw [if_neg (by omega), if_pos hf.2.1]
    refine ⟨h.pushFree (.inl ho) hi, fun c => ?_⟩
    have hn : m.owner c ≠ .chunkOf it := by
      intro hc
      have := h.heads hc
      rw [ho] at this
      cases this
    by_cases hci : c = it
    · rw [if_pos (.inl hci), hci]
      exact update_self _ _ _
    · rw [if_neg (by simp [hci, hn])]
      exact update_of_ne hci _ _
  · rw [ho] at hf
    have hr := h.largest ho
    unfold slabsFree
    rw [if_neg (by omega), if_neg (by simp [hf.2.1])]
    exact freeChunked_spec h ho

/-! ## New pages -/

variable {ptr : Page}

theorem foldl_slabsFree (hi : powerSmallest ≤ id ∧ id ≤ cfg.powerLargest)
    (l : List ℕ) (hc : ∀ x ∈ l, (m.cells ⟨ptr, x⟩).chunked = false) :
    l.foldl (fun m x => slabsFree cfg m ⟨ptr, x⟩ id) m =
      l.foldl (fun m x => m.pushFree ⟨ptr, x⟩ id) m := by
  induction l generalizing m with
  | nil => rfl
  | cons x l ih =>
    have hf : slabsFree cfg m ⟨ptr, x⟩ id = m.pushFree ⟨ptr, x⟩ id := by
      unfold slabsFree
      rw [if_neg (by omega), if_pos (hc x (.head _))]
    rw [List.foldl_cons, List.foldl_cons, hf]
    refine ih fun y hy => ?_
    by_cases hx : y = x
    · simp [Memory.pushFree, hx]
    · have := hc y (.tail _ hy)
      simpa [Memory.pushFree, hx] using this

theorem foldl_pushFree_slabList (l : List ℕ) (f : ℕ → List Page) :
    { l.foldl (fun m x => m.pushFree ⟨ptr, x⟩ id) m with slabList := f } =
      l.foldl (fun m x => m.pushFree ⟨ptr, x⟩ id) { m with slabList := f } := by
  induction l generalizing m with
  | nil => rfl
  | cons x l ih => exact ih

theorem slabList_foldl_pushFree (l : List ℕ) :
    (l.foldl (fun m x => m.pushFree ⟨ptr, x⟩ id) m).slabList = m.slabList := by
  induction l generalizing m with
  | nil => rfl
  | cons x l ih => exact ih.trans rfl

theorem foldl_pushFree_spec {l : List ℕ} (hl : l.Nodup) (h : MemInv cfg m)
    (hlo : ∀ x ∈ l, m.owner ⟨ptr, x⟩ = .loose ∧ m.InClass cfg id ⟨ptr, x⟩) :
    MemInv cfg (l.foldl (fun m x => m.pushFree ⟨ptr, x⟩ id) m) ∧
      ∀ c, (l.foldl (fun m x => m.pushFree ⟨ptr, x⟩ id) m).owner c =
        if c.page = ptr ∧ c.idx ∈ l then .free else m.owner c := by
  induction l generalizing m with
  | nil => exact ⟨h, fun c => by simp⟩
  | cons x l ih =>
    obtain ⟨hx, hl'⟩ := List.nodup_cons.mp hl
    obtain ⟨ho, hin⟩ := hlo x (.head _)
    obtain ⟨hinv, how⟩ := ih hl' (h.pushFree (.inr ho) hin) fun y hy => by
      have hyx : y ≠ x := fun he => hx (he ▸ hy)
      obtain ⟨ho', hi'⟩ := hlo y (.tail _ hy)
      refine ⟨?_, hi'⟩
      simpa [Memory.pushFree, hyx] using ho'
    refine ⟨hinv, fun c => (how c).trans ?_⟩
    obtain ⟨p, i⟩ := c
    by_cases hp : p = ptr
    · subst hp
      by_cases hi : i = x
      · subst hi
        simp [hx, Memory.pushFree]
      · simp [hi, Memory.pushFree]
    · simp [hp, Memory.pushFree]

/-- The memory with a page more for a class, whose chunks are on no list yet. -/
def Memory.withPage (cfg : Config) (m : Memory) (ptr : Page) (id : ℕ) : Memory :=
  { m.memset cfg ptr id with
    slabList := update m.slabList id (m.slabList id ++ [ptr]) }

theorem mem_slabList_withPage {ptr p : Page} {j : ℕ} :
    p ∈ (m.withPage cfg ptr id).slabList j ↔ p ∈ m.slabList j ∨ (j = id ∧ p = ptr) := by
  by_cases hj : j = id
  · subst hj
    simp [Memory.withPage]
  · simp [Memory.withPage, hj]

theorem MemInv.outside_of_fresh (h : MemInv cfg m) (hf : m.Fresh cfg (some ptr))
    (hl : ∀ c, m.owner c ≠ .loose) (hc : c.page = ptr) : m.owner c = .outside := by
  by_contra hn
  have hi := h.owned c hn (hl c)
  have hr := h.range _ (List.ne_nil_of_mem hi.1)
  refine hf ptr rfl (m.memClass c) ?_ (hc ▸ hi.1)
  rw [Finset.mem_range]
  omega

theorem MemInv.withPage (h : MemInv cfg m) (hf : m.Fresh cfg (some ptr))
    (hlo : ∀ c, m.owner c ≠ .loose)
    (hid : powerSmallest ≤ id ∧ id ≤ cfg.powerLargest) : MemInv cfg (m.withPage cfg ptr id) := by
  have hou : ∀ {c : Chunk}, c.page = ptr → m.owner c = .outside :=
    fun hc => h.outside_of_fresh hf hlo hc
  have hnew : ∀ j, ptr ∉ m.slabList j := by
    intro j hj
    have hr := h.range j (List.ne_nil_of_mem hj)
    exact hf ptr rfl j (Finset.mem_range.mpr (by omega)) hj
  have hca : ∀ b, (m.withPage cfg ptr id).owner b = m.owner b ∨ m.owner b = .outside ∧
      (m.withPage cfg ptr id).owner b = .loose ∧
      ((m.withPage cfg ptr id).cells b).slabbed = false := by
    intro b
    by_cases hb : b.page = ptr ∧ b.idx < cfg.perslab id
    · exact .inr ⟨hou hb.1, if_pos hb, by simp [Memory.withPage, Memory.memset, hb.1]⟩
    · exact .inl (if_neg hb)
  -- a chunk in use is as it was
  have hs : ∀ {b : Chunk} {o : Owner}, o ≠ .outside → o ≠ .loose →
      ((m.withPage cfg ptr id).owner b = o ↔ m.owner b = o) := by
    intro b o ho hl
    obtain he | ⟨hol, hno, -⟩ := hca b
    · rw [he]
    · rw [hol, hno]
      exact iff_of_false hl.symm ho.symm
  have hce : ∀ {b : Chunk}, m.owner b ≠ .outside →
      (m.withPage cfg ptr id).cells b = m.cells b :=
    fun hb => if_neg fun hpa => hb (hou hpa)
  constructor
  · intro j hj
    by_cases hji : j = id
    · rwa [hji]
    · refine h.range j fun hni => hj ?_
      simpa [Memory.withPage, hji] using hni
  · intro j
    by_cases hji : j = id
    · subst hji
      have hn : (m.slabList j ++ [ptr]).Nodup := by
        rw [List.nodup_append]
        refine ⟨h.pages j, List.nodup_singleton _, fun a ha b hb => ?_⟩
        rw [List.mem_singleton.mp hb]
        exact fun he => hnew j (he ▸ ha)
      simpa [Memory.withPage] using hn
    · simpa [Memory.withPage, hji] using h.pages j
  · intro j j' p hj hj'
    rw [mem_slabList_withPage] at hj hj'
    rcases hj with hj | ⟨rfl, rfl⟩ <;> rcases hj' with hj' | ⟨rfl, hp⟩
    · exact h.disjoint hj hj'
    · exact absurd (hp ▸ hj) (hnew _)
    · exact absurd hj' (hnew _)
    · rfl
  · intro b hb hl
    have how := (hs hb hl).mp rfl
    rw [← how] at hb hl
    obtain ⟨hpa, hi⟩ := h.owned b hb hl
    have hcl : (m.withPage cfg ptr id).memClass b = m.memClass b := by
      unfold Memory.memClass
      rw [how, hce hb]
    rw [hcl]
    exact ⟨mem_slabList_withPage.mpr (.inl hpa), hi⟩
  · rintro j b ⟨hpa, hi⟩
    obtain hol | ⟨rfl, hpt⟩ := mem_slabList_withPage.mp hpa
    · have hne := h.covers ⟨hol, hi⟩
      obtain he | ⟨ho, -⟩ := hca b
      · rwa [he]
      · exact absurd ho hne
    · have hl' : (m.withPage cfg ptr j).owner b = .loose := if_pos ⟨hpt, hi⟩
      rw [hl']
      simp
  · intro b
    obtain he | ⟨-, hno, hsl⟩ := hca b
    · by_cases ho : m.owner b = .outside
      · rw [he, ho]
        trivial
      · rw [he, hce ho]
        exact h.flags b
    · rw [hno]
      exact hsl
  · intro b j hb
    rw [hs (by simp) (by simp)] at hb
    rw [hce (by simp [hb])]
    exact h.taken hb
  · intro b x hb
    rw [hs (by simp) (by simp)] at hb ⊢
    exact h.heads hb
  · have hpl : ∀ p, (m.withPage cfg ptr id).place p = m.place p := by
      intro p
      cases p with
      | inl b =>
        obtain he | ⟨hol, hno, -⟩ := hca b
        · by_cases ho : m.owner b = .outside
          · simp [Memory.place, he, ho, Owner.list]
          · simp only [Memory.place, he, hce ho]
        · simp [Memory.place, hol, hno, Owner.list]
      | inr b => simp only [Memory.place, hs (o := .header) (by simp) (by simp)]
    have hpa : ∀ p, m.place p ≠ none → (p.elim (fun c => c) fun c => c).page ≠ ptr := by
      intro p hp he
      cases p with
      | inl b => exact hp (by simp [Memory.place, hou (c := b) he, Owner.list])
      | inr b => exact hp (by simp [Memory.place, hou (c := b) he])
    have hli : (m.withPage cfg ptr id).lists.Placed m.place :=
      h.lists.congr_ptrs rfl rfl (fun p hp => if_neg (hpa p hp)) fun p hp => if_neg (hpa p hp)
    exact hli.congr_place fun p i => by rw [hpl]
  · exact fun hx => h.first ((hs (by simp) (by simp)).mp hx)
  · intro j
    have hse : (m.withPage cfg ptr id).freeSet j = m.freeSet j := by
      ext b
      simp only [Memory.freeSet, Set.mem_ofPred_eq, hs (o := .free) (by simp) (by simp)]
      refine and_congr_right fun hb => ?_
      rw [hce (by simp [hb])]
    rw [hse]
    exact h.curr j
  · intro x hx
    rw [hs (by simp) (by simp)] at hx
    rw [hce (by simp [hx])]
    exact h.largest hx

variable {page : Option Page}

theorem newslab_spec (h : MemInv cfg m) (hl : ∀ c, m.owner c ≠ .loose)
    (hf : m.Fresh cfg page) (hi : powerSmallest ≤ id ∧ id ≤ cfg.powerLargest) :
    MemInv cfg (newslab cfg m id page) ∧ ∀ c, (newslab cfg m id page).owner c = m.owner c ∨
      m.owner c = .outside ∧ (newslab cfg m id page).owner c = .free := by
  cases page with
  | none => exact ⟨h, fun c => .inl rfl⟩
  | some ptr =>
    have hin := h.withPage hf hl hi
    have hz : ∀ x ∈ List.range (cfg.perslab id),
        ((m.memset cfg ptr id).cells ⟨ptr, x⟩).chunked = false := by
      intro x _
      simp [Memory.memset]
    have hs := foldl_slabsFree hi _ hz
    have he : newslab cfg m id (some ptr) =
        (List.range (cfg.perslab id)).foldl (fun m x => m.pushFree ⟨ptr, x⟩ id)
          (m.withPage cfg ptr id) := by
      simp only [newslab, hs]
      rw [foldl_pushFree_slabList, slabList_foldl_pushFree]
      rfl
    obtain ⟨hi', ho⟩ := foldl_pushFree_spec List.nodup_range hin fun x hx =>
      ⟨if_pos ⟨rfl, List.mem_range.mp hx⟩,
        mem_slabList_withPage.mpr (.inr ⟨rfl, rfl⟩), List.mem_range.mp hx⟩
    rw [he]
    refine ⟨hi', fun c => ?_⟩
    rw [ho]
    by_cases hc : c.page = ptr ∧ c.idx ∈ List.range (cfg.perslab id)
    · rw [if_pos hc]
      exact .inr ⟨h.outside_of_fresh hf hl hc.1, rfl⟩
    · rw [if_neg hc]
      refine .inl (if_neg fun hc' => hc ⟨hc'.1, List.mem_range.mpr hc'.2⟩)

/-! ## Runs -/

structure Settled (cfg : Config) (m : Memory) : Prop where
  inv : MemInv cfg m
  settled : ∀ c, m.owner c ≠ .loose

theorem settled_update {o : Owner} (h : ∀ c, m.owner c ≠ .loose) (ho : o ≠ .loose) (b : Chunk) :
    update m.owner it o b ≠ .loose := by
  by_cases hb : b = it
  · rwa [hb, update_self]
  · rw [update_of_ne hb]
    exact h b

theorem takeSlot_settled (h : Settled cfg m) (id : ℕ) : Settled cfg (takeSlot m id).1 := by
  refine ⟨h.inv.takeSlot id, ?_⟩
  obtain he | ⟨it, -, -, -, he⟩ := takeSlot_cases h.inv id
  · rw [he]
    exact h.settled
  · rw [he]
    exact settled_update h.settled (by simp)

theorem takeSlot_free (h : MemInv cfg m) (hc : (takeSlot m id).2 = some c) : m.owner c = .free := by
  obtain he | ⟨it, hf, -, -, he⟩ := takeSlot_cases h id <;> rw [he] at hc
  · cases hc
  · rwa [← Option.some.inj hc]

theorem newslab_settled (h : Settled cfg m) (hf : m.Fresh cfg page)
    (hid : powerSmallest ≤ id ∧ id ≤ cfg.powerLargest) : Settled cfg (newslab cfg m id page) := by
  obtain ⟨hi, how⟩ := newslab_spec h.inv h.settled hf hid
  refine ⟨hi, fun c => ?_⟩
  obtain ho | ⟨-, ho⟩ := how c
  · rw [ho]
    exact h.settled c
  · rw [ho]
    simp

theorem slabsAlloc_spec (h : Settled cfg m) (id : ℕ) (hf : m.Fresh cfg page) :
    Settled cfg (slabsAlloc cfg m id page).1 ∧
      ∀ c, (slabsAlloc cfg m id page).2 = some c → m.owner c = .free ∨ m.owner c = .outside := by
  unfold slabsAlloc
  split_ifs with hi hcu
  · exact ⟨h, fun c hc => by cases hc⟩
  · have hi' : powerSmallest ≤ id ∧ id ≤ cfg.powerLargest := by omega
    have hn := newslab_settled h hf hi'
    refine ⟨takeSlot_settled hn id, fun c hc => ?_⟩
    obtain ho | ⟨ho, -⟩ := (newslab_spec h.inv h.settled hf hi').2 c
    · exact .inl (ho.symm.trans (takeSlot_free hn.inv hc))
    · exact .inr ho
  · exact ⟨takeSlot_settled h id, fun c hc => .inl (takeSlot_free h.inv hc)⟩

theorem memStep_settled (h : Settled cfg m) {op : MemOp} (hg : op.Guard cfg m) :
    Settled cfg (memStep cfg m op).1 := by
  cases op with
  | alloc id page => exact (slabsAlloc_spec h id hg).1
  | newslab id page => exact newslab_settled h hg.2 hg.1
  | initItem it id => exact ⟨h.inv.initItem hg, settled_update h.settled (by simp)⟩
  | initHeader it hd id =>
    exact ⟨h.inv.initHeader hg.1 hg.2, settled_update h.settled (by simp)⟩
  | linkChunk it nch id =>
    exact ⟨h.inv.linkChunk hg.1 hg.2, settled_update h.settled (by simp)⟩
  | lru it next prev =>
    refine ⟨h.inv.setLinks ?_ next prev, h.settled⟩
    rcases hg with hg | hg <;> simp [Memory.place, Owner.list, hg]
  | free it =>
    obtain ⟨hi, ho⟩ := slabsFree_spec h.inv hg
    refine ⟨hi, fun c => ?_⟩
    show (slabsFree cfg m it (m.cells it).clsid).owner c ≠ .loose
    rw [ho]
    split_ifs
    · simp
    · exact h.settled c

theorem memory_step {m' : Memory} {op : MemOp} {r : Option Chunk}
    (h : (memory cfg).step m op = some (m', r)) : op.Guard cfg m ∧ memStep cfg m op = (m', r) := by
  simp only [memory] at h
  split_ifs at h with hg
  exact ⟨hg, Option.some.inj h⟩

theorem reachable_settled (h : (memory cfg).Reachable (fun _ _ => True) m) : Settled cfg m := by
  refine h.induct (fun m hm => ?_) fun {m op m' r} hs _ hst => ?_
  · rw [show m = emptyMemory from hm]
    exact ⟨memInv_emptyMemory cfg, fun _ => by simp [emptyMemory]⟩
  · obtain ⟨hg, he⟩ := memory_step hst
    have := memStep_settled hs hg
    rwa [he] at this

/-! ## Conservation -/

/-- The chunk is in use as an item or as the header of a large one, or a thread is about to
make it one, or a chunk of a large item. -/
def Memory.Allocated (m : Memory) (c : Chunk) : Prop :=
  (∃ id, m.owner c = .taken id) ∨ m.owner c = .item ∨ m.owner c = .header

/-- The list `l` runs from `first` on, through `next` and back through `prev`. -/
def Memory.DLinked (m : Memory) (first : Option Ptr) (l : List Ptr) : Prop :=
  Linked m.lists.next first l ∧ Linked m.lists.prev l.getLast? l.reverse

/-- Free lists and chains, and which chunk is in which of them. -/
structure Conserved (cfg : Config) (m : Memory) (free : ℕ → List Chunk)
    (chain : Chunk → List Chunk) : Prop where
  slots : ∀ id, m.DLinked (m.lists.head (.inl id)) ((free id).map .inl)
  slCurr : ∀ id, m.slCurr id = (free id).length
  slabbed : ∀ id, ∀ c ∈ free id, m.InClass cfg id c ∧ (m.cells c).slabbed = true
  chains : ∀ h, m.owner h = .header →
    m.DLinked (some (.inr h)) (.inr h :: (chain h).map .inl)
  partition : ∀ id c, m.InClass cfg id c →
    (c ∈ free id ∧ ¬m.Allocated c ∧ ∀ h, m.owner h = .header → c ∉ chain h) ∨
    (c ∉ free id ∧ m.Allocated c ∧ ∀ h, m.owner h = .header → c ∉ chain h) ∨
    (c ∉ free id ∧ ¬m.Allocated c ∧ ∃! h, m.owner h = .header ∧ c ∈ chain h)
  total : ∀ id, (m.classChunks cfg id).card = (m.slabList id).length * cfg.perslab id

theorem MemInv.freeList (h : MemInv cfg m) (id : ℕ) :
    ∃ l : List Chunk, m.DLinked (m.lists.head (.inl id)) (l.map .inl) ∧
      m.slCurr id = l.length ∧ ∀ c, c ∈ l ↔ m.owner c = .free ∧ (m.cells c).clsid = id := by
  obtain ⟨l, hn, hpr, hm⟩ := h.lists (.inl id)
  have hf : ∀ c, m.place (.inl c) = some (.inl id) ↔
      m.owner c = .free ∧ (m.cells c).clsid = id := by
    intro c
    simp only [Memory.place]
    cases ho : m.owner c <;> simp [Owner.list]
  obtain ⟨l, rfl⟩ := exists_map_inl (l := l) fun p hp => by
    have hpl := (hm p).mp hp
    cases p with
    | inl c => exact ⟨c, rfl⟩
    | inr c =>
      simp only [Memory.place] at hpl
      split_ifs at hpl
      cases hpl
  have hi : ∀ c, c ∈ l ↔ m.owner c = .free ∧ (m.cells c).clsid = id := by
    intro c
    rw [← hf, ← hm]
    simp
  have hs : m.freeSet id = ↑l.toFinset := by
    ext c
    rw [Finset.mem_coe, List.mem_toFinset]
    exact (hi c).symm
  have hno : l.Nodup := (List.nodup_map_iff Sum.inl_injective).mp hn.nodup
  refine ⟨l, ⟨hn, ?_⟩, ?_, hi⟩
  · rwa [← List.head?_reverse, hpr.head?_eq]
  · rw [h.curr id, hs, Set.ncard_coe_finset, List.toFinset_card_of_nodup hno]

theorem MemInv.card_classChunks (h : MemInv cfg m) (id : ℕ) :
    (m.classChunks cfg id).card = (m.slabList id).length * cfg.perslab id := by
  unfold Memory.classChunks
  rw [Finset.card_biUnion]
  · have hp : ∀ p ∈ (m.slabList id).toFinset,
        ((Finset.range (cfg.perslab id)).image (Chunk.mk p)).card = cfg.perslab id := by
      intro p _
      rw [Finset.card_image_of_injective _ fun x y hx => (Chunk.mk.inj hx).2, Finset.card_range]
    rw [Finset.sum_const_nat hp, List.toFinset_card_of_nodup (h.pages id)]
  · intro p _ q _ hpq
    refine Finset.disjoint_left.mpr fun c hc hc' => hpq ?_
    obtain ⟨x, -, rfl⟩ := Finset.mem_image.mp hc
    obtain ⟨y, -, hy⟩ := Finset.mem_image.mp hc'
    exact (Chunk.mk.inj hy).1.symm

theorem Settled.conserved (h : Settled cfg m) :
    ∃ free chain, Conserved cfg m free chain ∧
      (∀ c id, c ∈ free id → m.owner c = .free) ∧
      ∀ it, m.owner it = .header → ∀ c, c ∈ chain it ↔ m.owner c = .chunkOf it := by
  choose free hfr hcu hm using h.inv.freeList
  have hcha : ∀ it, ∃ l : List Chunk, m.owner it = .header →
      m.DLinked (some (.inr it)) (.inr it :: l.map .inl) ∧
        ∀ c, c ∈ l ↔ m.owner c = .chunkOf it := by
    intro it
    by_cases hit : m.owner it = .header
    · obtain ⟨l, hnex, hp, -, hl⟩ := h.inv.chain hit
      refine ⟨l, fun _ => ⟨⟨hnex, ?_⟩, hl⟩⟩
      rwa [← List.head?_reverse, hp.head?_eq]
    · exact ⟨[], fun ho => absurd ho hit⟩
  choose chain hch using hcha
  have hcl : ∀ {c}, m.owner c = .free → m.InClass cfg (m.cells c).clsid c := fun ho =>
    h.inv.inClass ho (by simp) (by simp) (by simp)
  refine ⟨free, chain, ⟨hfr, hcu, fun id c hc => ?_, fun x hx => (hch x hx).1,
    fun id c hi => ?_, h.inv.card_classChunks⟩, fun c id hc => ((hm id c).mp hc).1,
    fun it hit => (hch it hit).2⟩
  · obtain ⟨ho, hcls⟩ := (hm id c).mp hc
    have hf := h.inv.flags c
    rw [ho] at hf
    exact ⟨hcls ▸ hcl ho, hf.1⟩
  have hno : ∀ o, m.owner c = o → (∀ x, o ≠ .chunkOf x) →
      ∀ x, m.owner x = .header → c ∉ chain x := by
    intro o ho hne x hx hc
    exact hne x (ho.symm.trans (((hch x hx).2 c).mp hc))
  have hn : m.owner c ≠ .free → c ∉ free id := fun hne hc => hne ((hm id c).mp hc).1
  cases ho : m.owner c with
  | outside => exact absurd ho (h.inv.covers hi)
  | loose => exact absurd ho (h.settled c)
  | free =>
    refine .inl ⟨(hm id c).mpr ⟨ho, ?_⟩, by simp [Memory.Allocated, ho], hno _ ho (by simp)⟩
    exact h.inv.disjoint (hcl ho).1 hi.1
  | taken j =>
    exact .inr (.inl ⟨hn (by rw [ho]; simp), .inl ⟨j, ho⟩, hno _ ho (by simp)⟩)
  | item =>
    exact .inr (.inl ⟨hn (by rw [ho]; simp), .inr (.inl ho), hno _ ho (by simp)⟩)
  | header =>
    exact .inr (.inl ⟨hn (by rw [ho]; simp), .inr (.inr ho), hno _ ho (by simp)⟩)
  | chunkOf x =>
    have hx := h.inv.heads ho
    refine .inr (.inr ⟨hn (by rw [ho]; simp), by simp [Memory.Allocated, ho],
      x, ⟨hx, ((hch x hx).2 c).mpr ho⟩, ?_⟩)
    rintro y ⟨hy, hc⟩
    have := ((hch y hy).2 c).mp hc
    rw [ho] at this
    exact (Owner.chunkOf.inj this).symm

theorem slabList_freeChain (fuel : ℕ) (p : Option Ptr) :
    (freeChain fuel m p).slabList = m.slabList := by
  induction fuel generalizing m p with
  | zero => rfl
  | succ fuel ih =>
    obtain _ | (c | c) := p
    · rfl
    · exact ih _
    · rfl

theorem slabList_slabsFree : (slabsFree cfg m it id).slabList = m.slabList := by
  unfold slabsFree
  split_ifs
  · rfl
  · rfl
  · exact slabList_freeChain _ _

/-- In every reachable state the free lists and chains are well formed and partition the
chunks of the pages; an allocation takes no chunk in use, and an item that is freed
gives back its header and its chunks, each to the class of its memory. -/
theorem chunks_conserved (hr : (memory cfg).Reachable (fun _ _ => True) m) :
    ∃ free chain, Conserved cfg m free chain ∧
      (∀ {id page m' c}, (memory cfg).step m (.alloc id page) = some (m', some c) →
        ¬m.Allocated c ∧ ∀ h, m.owner h = .header → c ∉ chain h) ∧
      ∀ {it m' r}, (memory cfg).step m (.free it) = some (m', r) →
        ∀ c, c = it ∨ (m.owner it = .header ∧ c ∈ chain it) → ∀ id, m.InClass cfg id c →
          ∃ l, m'.DLinked (m'.lists.head (.inl id)) l ∧ .inl c ∈ l := by
  have hs := reachable_settled hr
  obtain ⟨free, chain, hco, -, hch⟩ := hs.conserved
  refine ⟨free, chain, hco, fun {id page m' c} hst => ?_, fun {it m' r} hst c hc id hin => ?_⟩
  · obtain ⟨hg, he⟩ := memory_step hst
    have hre : (slabsAlloc cfg m id page).2 = some c := congrArg Prod.snd he
    obtain ho | ho := (slabsAlloc_spec hs id hg).2 c hre
    all_goals
      refine ⟨by simp [Memory.Allocated, ho], fun h hh hc => ?_⟩
      have := (hch h hh c).mp hc
      rw [ho] at this
      cases this
  obtain ⟨hg, he⟩ := memory_step hst
  obtain ⟨hi, how⟩ := slabsFree_spec hs.inv hg
  have hm' : slabsFree cfg m it (m.cells it).clsid = m' := congrArg Prod.fst he
  have hsl : m'.slabList = m.slabList := hm' ▸ slabList_slabsFree
  rw [hm'] at hi how
  have hf : m'.owner c = .free := by
    rw [how, if_pos]
    obtain hc | ⟨hh, hc⟩ := hc
    · exact .inl hc
    · exact .inr ((hch it hh c).mp hc)
  have hown := hi.inClass hf (by simp) (by simp) (by simp)
  have hcl : (m'.cells c).clsid = id := hi.disjoint hown.1 (hsl ▸ hin.1)
  obtain ⟨l, hl, -, hm⟩ := hi.freeList id
  exact ⟨_, hl, List.mem_map_of_mem ((hm c).mpr ⟨hf, hcl⟩)⟩

def twoChunkPages : Config where
  powerLargest := 2
  size := fun _ => 1
  perslab := fun _ => 2
  slabPageSize := 2
  slabChunkSizeMax := 1
  slabReassign := true
  memBase := false
  slabPageSize_pos := by decide
  chunks_pos := fun _ => by decide

/-- A large item with its header in class 1 gets a chunk of class 2. -/
def largeItemTrace : List MemOp :=
  [.alloc 1 (some 7), .initHeader ⟨7, 1⟩ 1 2, .alloc 2 (some 8), .linkChunk ⟨7, 1⟩ ⟨8, 1⟩ 2]

theorem chunks_conserved_largeItemTrace :
    ∃ m : Memory, m.owner ⟨8, 1⟩ = .chunkOf ⟨7, 1⟩ ∧ m.owner ⟨7, 0⟩ = .free ∧
      ∃ free chain, Conserved twoChunkPages m free chain := by
  have hi : (memory twoChunkPages).Reachable (fun _ _ => True) emptyMemory := .of_init rfl
  obtain ⟨m, he, hc, hf⟩ := hi.exists_of_exec largeItemTrace
    (p := fun m => m.owner ⟨8, 1⟩ = .chunkOf ⟨7, 1⟩ ∧ m.owner ⟨7, 0⟩ = .free) (by decide +kernel)
  obtain ⟨free, chain, hco, -⟩ := chunks_conserved he
  exact ⟨m, hc, hf, free, chain, hco⟩

end Memcached.Slabs
