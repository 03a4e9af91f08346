import Memcached.Assoc.Invariant
import Memcached.Util.Numbers
import Mathlib.Tactic.FinCases

/-!
# The walk over the memory of a stopped server (`restart.c`, `slabs.c`, `items.c`)

After a restart the memory of the old process is mapped again, at another address.
`restart_fixup` walks over it from chunk to chunk: free chunks go back to their free lists,
linked items into the hash table and to the ends of their lists, and all pointers are moved.
A page is put into the list of the class of its first chunk, but the header of a chunked item
has the class of the whole object.

Results:
* `restartFixup_eq`: the walk visits every chunk once
* `fixup_rebuilds_iff`: for which images the cache is rebuilt
-/

namespace Memcached.Restart

open Assoc Lib
open List (not_mem_nil length_cons length_nil append_assoc append_nil map_cons foldl_cons
  mem_of_getElem?)
open Function (update update_self update_of_ne)

/-! ## Memory -/

/-- The slab classes: the size of a page and of the chunks of a class. -/
structure Classes where
  pageSize : ℕ
  size : ℕ → ℕ
  size_pos : ∀ c, 0 < size c
  size_le : ∀ c, size c ≤ pageSize

/-- `item_chunk`: its pointers, and the class of the memory it lies in. -/
structure Chunk where
  next : ℕ
  prev : ℕ
  head : ℕ
  origClsid : ℕ
deriving DecidableEq

/-- What a piece of memory begins with: nothing, a free chunk, a linked item (with an
`item_chunk` if it is `ITEM_CHUNKED`), or a chunk of a chunked item. A null pointer is 0;
`slabs_clsid` is the class and the bits of the LRU. -/
inductive Cell where
  | unused
  | free (clsid : ℕ)
  | item (clsid lru : ℕ) (key : Bytes) (next prev : ℕ) (chunked : Option Chunk)
  | chunk (clsid : ℕ) (ch : Chunk)
deriving DecidableEq

def Cell.clsid : Cell → ℕ
  | .unused => 0
  | .free clsid => clsid
  | .item clsid _ _ _ _ _ => clsid
  | .chunk clsid _ => clsid

/-- The state that the walk rebuilds: the memory, `slab_list` and `slots` of the classes, the
hash table, and `heads` and `tails` by class and LRU. Memory is named by its offset. -/
structure State (limit : ℕ) where
  mem : Fin limit → Cell
  slabList : ℕ → List (Fin limit)
  slots : ℕ → List (Fin limit)
  table : HashTable (Fin limit)
  heads : ℕ × ℕ → Option (Fin limit)
  tails : ℕ × ℕ → Option (Fin limit)

/-- The old and the new address of the memory. -/
structure Bases where
  orig : ℕ
  base : ℕ

/-! ## The walk -/

section Walk

variable (S : Classes) (B : Bases) (hash : Bytes → UInt32) {limit : ℕ}

/-- A pointer is moved (lines 391-398 and 421-432). -/
def fixPtr (p : ℕ) : ℕ := if p = 0 then 0 else (p + 2 ^ 64 - B.orig + B.base) % 2 ^ 64

def Chunk.fix (ch : Chunk) : Chunk :=
  { ch with next := fixPtr B ch.next, prev := fixPtr B ch.prev, head := fixPtr B ch.head }

/-- The pointers of linked items and of chunks are moved. -/
def Cell.fix : Cell → Cell
  | .item clsid lru key next prev chunked =>
    .item clsid lru key (fixPtr B next) (fixPtr B prev) (chunked.map (Chunk.fix B))
  | .chunk clsid ch => .chunk clsid (ch.fix B)
  | c => c

/-- `slabs_fixup` (`slabs.c`, lines 166-202); no size for a page that is not used. -/
def slabsFixup (s : State limit) (o : Fin limit) (border : ℕ) : State limit × Option ℕ :=
  let id := (s.mem o).clsid
  if id = 0 then
    ({ s with slabList := update s.slabList 0 (s.slabList 0 ++ [o]) }, none)
  else
    let s := if border = 0 then
        { s with slabList := update s.slabList id (s.slabList id ++ [o]) }
      else s
    let s := match s.mem o with
      | .free _ => { s with slots := update s.slots id (o :: s.slots id) }
      | _ => s
    (s, some (S.size id))

/-- `do_item_link_fixup` (`items.c`, lines 397-419). -/
def doItemLinkFixup (s : State limit) (o : Fin limit) (x : ℕ × ℕ) (key : Bytes)
    (next prev : ℕ) : State limit :=
  { s with
    table := assocInsert s.table o (hash key)
    heads := if prev = 0 ∧ s.heads x = none then update s.heads x (some o) else s.heads
    tails := if next = 0 ∧ s.tails x = none then update s.tails x (some o) else s.tails }

/-- The pointers in a chunk (lines 389-433): the state and the size of the chunk. -/
def fixupChunk (s : State limit) (o : Fin limit) (size : ℕ) : State limit × ℕ :=
  let c := s.mem o
  let s := { s with mem := update s.mem o (c.fix B) }
  match c with
  | .item clsid lru key next prev chunked =>
    let s := doItemLinkFixup hash s o (clsid, lru) key (fixPtr B next) (fixPtr B prev)
    match chunked with
    | some ch => (s, S.size ch.origClsid)
    | none => (s, size)
  | _ => (s, size)

/-- The loop of `restart_fixup` (lines 371-442). The second result lists the
offsets that were visited. -/
def fixupLoop : (fuel checked pageRemain : ℕ) → State limit → List ℕ →
    Option (State limit × List ℕ)
  | 0, _, _, _, _ => none
  | fuel + 1, checked, pageRemain, s, visited =>
    if h : checked < limit then
      match slabsFixup S s ⟨checked, h⟩ (checked % S.pageSize) with
      | (s, none) => fixupLoop fuel (checked + pageRemain) S.pageSize s (visited ++ [checked])
      | (s, some size) =>
        let (s, size) := fixupChunk S B hash s ⟨checked, h⟩ size
        let checked' := checked + size
        let pageRemain := pageRemain - size
        if size > pageRemain then
          fixupLoop fuel (checked' + pageRemain) S.pageSize s (visited ++ [checked])
        else fixupLoop fuel checked' pageRemain s (visited ++ [checked])
    else some (s, visited)

/-- A new process with `2 ^ hashpower` buckets and the old memory. -/
def newState (hashpower : ℕ) (mem : Fin limit → Cell) : State limit where
  mem := mem
  slabList _ := []
  slots _ := []
  table := assocInit hashpower
  heads _ := none
  tails _ := none

/-- `restart_fixup` (lines 354-443). -/
def restartFixup (hashpower : ℕ) (mem : Fin limit → Cell) : Option (State limit × List ℕ) :=
  fixupLoop S B hash (limit + 1) 0 S.pageSize (newState hashpower mem) []

end Walk

/-! ## Images -/

/-- A page: not used, or split into chunks of one class. -/
inductive PageImage where
  | unused
  | split (cls : ℕ) (cells : List Cell)

def Cell.In (cls : ℕ) : Cell → Prop
  | .unused => False
  | .free clsid => clsid = cls
  | .item clsid _ _ _ _ none => clsid = cls
  | .item clsid _ _ _ _ (some ch) => 0 < clsid ∧ ch.origClsid = cls
  | .chunk clsid _ => clsid = cls

/-- The page is fully split into chunks of its class. -/
def PageImage.Ok (S : Classes) : PageImage → Prop
  | .unused => True
  | .split cls cells => 0 < cls ∧ cells.length = S.pageSize / S.size cls ∧ ∀ c ∈ cells, c.In cls

/-- The chunks of a class one after the other. -/
def chunksFrom (size : ℕ) : ℕ → List Cell → List (ℕ × Cell)
  | _, [] => []
  | b, c :: cs => (b, c) :: chunksFrom size (b + size) cs

def PageImage.chunks (S : Classes) (b : ℕ) : PageImage → List (ℕ × Cell)
  | .unused => [(b, .unused)]
  | .split cls cells => chunksFrom (S.size cls) b cells

/-- All chunks of the pages from the offset `b` on. -/
def chunks (S : Classes) : ℕ → List PageImage → List (ℕ × Cell)
  | _, [] => []
  | b, p :: ps => p.chunks S b ++ chunks S (b + S.pageSize) ps

/-- The class of a page; unused pages are in the global pool. -/
def PageImage.cls : PageImage → ℕ
  | .unused => 0
  | .split cls _ => cls

def Cell.key : Cell → Option Bytes
  | .item _ _ key _ _ _ => some key
  | _ => none

def Cell.list : Cell → Option (ℕ × ℕ)
  | .item clsid lru _ _ _ _ => some (clsid, lru)
  | _ => none

def addr {limit : ℕ} (base : ℕ) : Option (Fin limit) → ℕ
  | none => 0
  | some o => base + o.val

/-- The items in front of and behind each place of a list. -/
def Links {limit : ℕ} (base : ℕ) (mem : Fin limit → Cell) (os : List (Fin limit)) : Prop :=
  ∀ i o, os[i]? = some o → ∃ clsid lru key ch, mem o = .item clsid lru key
    (addr base os[i + 1]?) (addr base (if i = 0 then none else os[i - 1]?)) ch

/-- The memory that a clean stop leaves: pages, the chunks in them, and the lists of linked
items, whose keys are different. -/
structure Image (S : Classes) (B : Bases) (limit : ℕ) where
  pages : List PageImage
  mem : Fin limit → Cell
  lru : ℕ × ℕ → List (Fin limit)
  ok : ∀ p ∈ pages, p.Ok S
  limit_eq : pages.length * S.pageSize = limit
  holds : ∀ x ∈ chunks S 0 pages, ∃ h : x.1 < limit, mem ⟨x.1, h⟩ = x.2
  keys : ∀ x ∈ chunks S 0 pages, ∀ y ∈ chunks S 0 pages, ∀ key, x.2.key = some key →
    y.2.key = some key → x.1 = y.1
  lru_mem : ∀ id o, o ∈ lru id ↔ ∃ c, (o.val, c) ∈ chunks S 0 pages ∧ c.list = some id
  lru_nodup : ∀ id, (lru id).Nodup
  lru_links : ∀ id, Links B.orig mem (lru id)
  orig_pos : 0 < B.orig
  base_pos : 0 < B.base
  orig_lt : B.orig + limit ≤ 2 ^ 64
  base_lt : B.base + limit ≤ 2 ^ 64

def State.itemKey {limit : ℕ} (s : State limit) (o : Fin limit) : Bytes := (s.mem o).key.getD []

/-- The same cache: every chunk was visited once, pages and free chunks are where they belong,
the hash table finds exactly the linked items, the lists have the same items in the same
order, and all pointers are moved to the new address. -/
structure Rebuilt {S : Classes} {B : Bases} {limit : ℕ} (I : Image S B limit)
    (hash : Bytes → UInt32) (s : State limit) (visited : List ℕ) : Prop where
  visits : visited = (chunks S 0 I.pages).map Prod.fst
  once : visited.Nodup
  pages : ∀ id o, o ∈ s.slabList id ↔
    ∃ i p, I.pages[i]? = some p ∧ o.val = i * S.pageSize ∧ p.cls = id
  pages_once : ∀ id, (s.slabList id).Nodup
  slots : ∀ id o, o ∈ s.slots id ↔ (o.val, .free id) ∈ chunks S 0 I.pages
  slots_once : ∀ id, (s.slots id).Nodup
  found : ∀ key o, assocFind s.itemKey s.table key (hash key) = some o ↔
    ∃ c, (o.val, c) ∈ chunks S 0 I.pages ∧ c.key = some key
  lists : ∀ id, s.heads id = (I.lru id).head? ∧ s.tails id = (I.lru id).getLast? ∧
    Links B.base s.mem (I.lru id)
  moved : ∀ x ∈ chunks S 0 I.pages, ∃ h : x.1 < limit, s.mem ⟨x.1, h⟩ = x.2.fix B
  moves : ∀ o : Fin limit, fixPtr B (B.orig + o.val) = B.base + o.val

/-- The first chunk of the page has the class of the page: it is not the header of a chunked
item of another class. -/
def PageImage.FirstOk : PageImage → Prop
  | .unused => True
  | .split cls cells => ∀ c, cells.head? = some c → c.clsid = cls

/-! ## The walk visits the chunks one after the other -/

section Visits

variable (S : Classes) (B : Bases) (hash : Bytes → UInt32) {limit : ℕ}

/-- The body of the loop without the steps to the next chunk. -/
def visitAt (s : State limit) (o : ℕ) : State limit :=
  if h : o < limit then
    match slabsFixup S s ⟨o, h⟩ (o % S.pageSize) with
    | (s, none) => s
    | (s, some size) => (fixupChunk S B hash s ⟨o, h⟩ size).1
  else s

def State.Holds (s : State limit) (cells : List (ℕ × Cell)) : Prop :=
  ∀ x ∈ cells, ∃ h : x.1 < limit, s.mem ⟨x.1, h⟩ = x.2

variable {S} {B} {hash} {s : State limit}

theorem slabsFixup_mem (s : State limit) (o : Fin limit) (border : ℕ) :
    (slabsFixup S s o border).1.mem = s.mem := by
  simp only [slabsFixup]
  split_ifs
  · rfl
  · cases s.mem o <;> rfl
  · cases s.mem o <;> rfl

theorem fixupChunk_mem (s : State limit) (o : Fin limit) (size : ℕ) :
    (fixupChunk S B hash s o size).1.mem = update s.mem o ((s.mem o).fix B) := by
  simp only [fixupChunk]
  obtain _ | _ | ⟨_, _, _, _, _, _ | _⟩ | _ := s.mem o <;> rfl

theorem visitAt_mem_of_ne {o : ℕ} {a : Fin limit} (hn : a.val ≠ o) :
    (visitAt S B hash s o).mem a = s.mem a := by
  unfold visitAt
  split
  · rename_i h
    have hm := slabsFixup_mem (S := S) s ⟨o, h⟩ (o % S.pageSize)
    split
    · rename_i s' he
      rw [he] at hm
      rw [show s'.mem = s.mem from hm]
    · rename_i s' size he
      rw [he] at hm
      rw [fixupChunk_mem, show s'.mem = s.mem from hm]
      exact update_of_ne (fun ha => hn (congrArg Fin.val ha)) ..
  · rfl

theorem State.Holds.visit {o : ℕ} {cells : List (ℕ × Cell)} (h : s.Holds cells)
    (hn : ∀ x ∈ cells, x.1 ≠ o) : (visitAt S B hash s o).Holds cells := by
  intro x hx
  obtain ⟨hl, hm⟩ := h x hx
  exact ⟨hl, (visitAt_mem_of_ne (hn x hx)).trans hm⟩

variable {cls : ℕ}

theorem Cell.In.clsid_ne {c : Cell} (hc : 0 < cls) (hi : c.In cls) : c.clsid ≠ 0 := by
  obtain _ | _ | ⟨_, _, _, _, _, _ | _⟩ | _ := c
  · exact hi.elim
  · exact (hi.trans_gt hc).ne'
  · exact (hi.trans_gt hc).ne'
  · exact hi.1.ne'
  · exact (hi.trans_gt hc).ne'

variable (S B hash) in
theorem slabsFixup_size {o : Fin limit} {c : Cell} (border : ℕ) (hc : s.mem o = c)
    (hcl : 0 < cls) (hi : c.In cls) :
    ∃ s' size, slabsFixup S s o border = (s', some size) ∧
      (fixupChunk S B hash s' o size).2 = S.size cls := by
  have hid := hi.clsid_ne hcl
  have hm := slabsFixup_mem (S := S) s o border
  refine ⟨(slabsFixup S s o border).1, S.size c.clsid, ?_, ?_⟩
  · simp only [slabsFixup, hc, if_neg hid]
  rw [fixupChunk, hm, hc]
  obtain _ | _ | ⟨_, _, _, _, _, _ | ch⟩ | _ := c
  · exact hi.elim
  · exact congrArg S.size hi
  · exact congrArg S.size hi
  · exact congrArg S.size hi.2
  · exact congrArg S.size hi

theorem chunksFrom_ge {size b : ℕ} {cells : List Cell} :
    ∀ x ∈ chunksFrom size b cells, b ≤ x.1 := by
  induction cells generalizing b with
  | nil => exact fun x hx => absurd hx not_mem_nil
  | cons c cs ih =>
    intro x hx
    obtain rfl | hx := List.mem_cons.mp hx
    · exact le_rfl
    · exact le_trans (Nat.le_add_right b size) (ih x hx)

theorem fixupLoop_cells (hcl : 0 < cls) {cells : List Cell} {o remain : ℕ}
    (hn : cells ≠ []) (hi : ∀ c ∈ cells, c.In cls)
    (hle : cells.length * S.size cls ≤ remain) (hlt : remain < (cells.length + 1) * S.size cls)
    (hh : s.Holds (chunksFrom (S.size cls) o cells)) (fuel : ℕ) (visited : List ℕ) :
    fixupLoop S B hash (fuel + cells.length) o remain s visited =
      fixupLoop S B hash fuel (o + remain) S.pageSize
        (((chunksFrom (S.size cls) o cells).map Prod.fst).foldl (visitAt S B hash) s)
        (visited ++ (chunksFrom (S.size cls) o cells).map Prod.fst) := by
  induction cells generalizing o remain s visited with
  | nil => exact absurd rfl hn
  | cons c cs ih =>
    have hp := S.size_pos cls
    obtain ⟨hl, hc⟩ := hh (o, c) (.head _)
    obtain ⟨s', size, hs, hsi⟩ := slabsFixup_size S B hash (o % S.pageSize) hc hcl
      (hi c (.head _))
    have hv : (fixupChunk S B hash s' ⟨o, hl⟩ size).1 = visitAt S B hash s o := by
      rw [visitAt, dif_pos hl, hs]
    have hr : s.Holds (chunksFrom (S.size cls) (o + S.size cls) cs) :=
      fun x hx => hh x (.tail _ hx)
    have hr' : (visitAt S B hash s o).Holds (chunksFrom (S.size cls) (o + S.size cls) cs) := by
      refine hr.visit fun x hx => ?_
      have hg := chunksFrom_ge x hx
      omega
    simp only [length_cons, Nat.add_mul, Nat.one_mul] at hle hlt
    rw [length_cons, ← Nat.add_assoc, fixupLoop, dif_pos hl, hs]
    simp only [hsi, hv]
    obtain rfl | hcs := eq_or_ne cs []
    · -- the last chunk: what is left of the page is skipped
      simp only [length_nil, Nat.zero_mul, Nat.zero_add] at hle hlt
      rw [if_pos (by omega), Nat.add_assoc, Nat.add_sub_cancel' hle]
      rfl
    have hlen : 0 < cs.length := List.length_pos_iff.mpr hcs
    have hm : S.size cls ≤ cs.length * S.size cls := Nat.le_mul_of_pos_left _ hlen
    rw [if_neg (by omega), ih hcs (fun c hc => hi c (.tail _ hc)) (by omega)
      (by rw [Nat.add_mul]; omega) hr']
    have hsu : o + S.size cls + (remain - S.size cls) = o + remain := by omega
    rw [hsu, append_assoc]
    rfl

/-! ### Where the chunks lie -/

theorem length_chunksFrom (size b : ℕ) (cells : List Cell) :
    (chunksFrom size b cells).length = cells.length := by
  induction cells generalizing b with
  | nil => rfl
  | cons c cs ih => rw [chunksFrom, length_cons, length_cons, ih]

theorem chunksFrom_le {size b : ℕ} {cells : List Cell} :
    ∀ x ∈ chunksFrom size b cells, x.1 + size ≤ b + cells.length * size := by
  induction cells generalizing b with
  | nil => exact fun x hx => absurd hx not_mem_nil
  | cons c cs ih =>
    intro x hx
    rw [length_cons, Nat.add_mul, Nat.one_mul]
    obtain rfl | hx := List.mem_cons.mp hx
    · show b + size ≤ _
      omega
    · have hl := ih x hx
      omega

theorem chunksFrom_sorted {size : ℕ} (hp : 0 < size) (b : ℕ) (cells : List Cell) :
    (chunksFrom size b cells).Pairwise fun x y => x.1 < y.1 := by
  induction cells generalizing b with
  | nil => exact List.Pairwise.nil
  | cons c cs ih =>
    refine List.Pairwise.cons (fun y hy => ?_) (ih (b + size))
    have hg := chunksFrom_ge y hy
    show b < y.1
    omega

theorem PageImage.Ok.fits {cells : List Cell} (h : (PageImage.split cls cells).Ok S) :
    cells ≠ [] ∧ cells.length * S.size cls ≤ S.pageSize ∧
      S.pageSize < (cells.length + 1) * S.size cls := by
  obtain ⟨-, hl, -⟩ := h
  have hp := S.size_pos cls
  have hd : 0 < S.pageSize / S.size cls := Nat.div_pos (S.size_le cls) hp
  refine ⟨?_, ?_, ?_⟩
  · rintro rfl
    rw [length_nil] at hl
    omega
  · rw [hl]
    exact Nat.div_mul_le_self _ _
  · rw [hl, Nat.add_mul, Nat.one_mul]
    exact Nat.lt_div_mul_add hp

theorem pageSize_pos (S : Classes) : 0 < S.pageSize :=
  lt_of_lt_of_le (S.size_pos 0) (S.size_le 0)

theorem PageImage.chunks_range {p : PageImage} (h : p.Ok S) {b : ℕ} :
    ∀ x ∈ p.chunks S b, b ≤ x.1 ∧ x.1 < b + S.pageSize := by
  intro x hx
  cases p with
  | unused =>
    obtain rfl := List.mem_singleton.mp hx
    have hp := pageSize_pos S
    exact ⟨le_rfl, by show b < _; omega⟩
  | split cls cells =>
    obtain ⟨-, hl, -⟩ := h.fits
    have hp := S.size_pos cls
    have hx' := chunksFrom_le x hx
    exact ⟨chunksFrom_ge x hx, by omega⟩

theorem PageImage.chunks_sorted (p : PageImage) (b : ℕ) :
    (p.chunks S b).Pairwise fun x y => x.1 < y.1 := by
  cases p with
  | unused => exact List.pairwise_singleton ..
  | split cls cells => exact chunksFrom_sorted (S.size_pos cls) b cells

theorem PageImage.length_chunks_le {p : PageImage} (h : p.Ok S) (b : ℕ) :
    (p.chunks S b).length ≤ S.pageSize := by
  cases p with
  | unused => exact pageSize_pos S
  | split cls cells =>
    obtain ⟨-, hl, -⟩ := h
    rw [PageImage.chunks, length_chunksFrom, hl]
    exact Nat.div_le_self _ _

variable {pages : List PageImage}

section

variable (h : ∀ p ∈ pages, p.Ok S)
include h

theorem chunks_range {b : ℕ} :
    ∀ x ∈ chunks S b pages, b ≤ x.1 ∧ x.1 < b + pages.length * S.pageSize := by
  induction pages generalizing b with
  | nil => exact fun x hx => absurd hx not_mem_nil
  | cons p ps ih =>
    intro x hx
    rw [length_cons, Nat.add_mul, Nat.one_mul]
    obtain hx | hx := List.mem_append.mp hx
    · obtain ⟨hg, hl⟩ := PageImage.chunks_range (h p (.head _)) x hx
      exact ⟨hg, by omega⟩
    · obtain ⟨hg, hl⟩ := ih (fun p hp => h p (.tail _ hp)) x hx
      exact ⟨by omega, by omega⟩

theorem chunks_sorted (b : ℕ) :
    (chunks S b pages).Pairwise fun x y => x.1 < y.1 := by
  induction pages generalizing b with
  | nil => exact List.Pairwise.nil
  | cons p ps ih =>
    have hps : ∀ p ∈ ps, p.Ok S := fun p hp => h p (.tail _ hp)
    refine List.pairwise_append.mpr ⟨p.chunks_sorted b, ih hps _, fun x hx y hy => ?_⟩
    have hx' := (PageImage.chunks_range (h p (.head _)) x hx).2
    have hy' := (chunks_range hps y hy).1
    omega

theorem length_chunks_le (b : ℕ) :
    (chunks S b pages).length ≤ pages.length * S.pageSize := by
  induction pages generalizing b with
  | nil => exact Nat.zero_le _
  | cons p ps ih =>
    have hp := PageImage.length_chunks_le (h p (.head _)) b
    have hps := ih (fun p hp => h p (.tail _ hp)) (b + S.pageSize)
    rw [chunks, List.length_append, length_cons, Nat.add_mul, Nat.one_mul]
    omega

end

/-! ### The whole walk -/

theorem State.Holds.foldl {os : List ℕ} {cells : List (ℕ × Cell)} (h : s.Holds cells)
    (hn : ∀ o ∈ os, ∀ x ∈ cells, x.1 ≠ o) :
    (os.foldl (visitAt S B hash) s).Holds cells := by
  induction os generalizing s with
  | nil => exact h
  | cons o os ih =>
    exact ih (h.visit fun x hx => hn o (.head _) x hx)
      fun o' ho' => hn o' (.tail _ ho')

theorem fixupLoop_pages (hok : ∀ p ∈ pages, p.Ok S) {b : ℕ}
    (hl : b + pages.length * S.pageSize = limit) (hh : s.Holds (chunks S b pages))
    (fuel : ℕ) (visited : List ℕ) :
    fixupLoop S B hash (fuel + 1 + (chunks S b pages).length) b S.pageSize s visited =
      some (((chunks S b pages).map Prod.fst).foldl (visitAt S B hash) s,
        visited ++ (chunks S b pages).map Prod.fst) := by
  induction pages generalizing b s visited with
  | nil =>
    have he : ¬b < limit := by
      rw [length_nil, Nat.zero_mul] at hl
      omega
    show fixupLoop S B hash (fuel + 1) b S.pageSize s visited = some (s, visited ++ [])
    rw [fixupLoop, dif_neg he, append_nil]
  | cons p ps ih =>
    rw [length_cons, Nat.add_mul, Nat.one_mul] at hl
    have hps : ∀ p ∈ ps, p.Ok S := fun p hp => hok p (.tail _ hp)
    have hf : s.Holds (p.chunks S b) := fun x hx => hh x (List.mem_append_left _ hx)
    have hr : s.Holds (chunks S (b + S.pageSize) ps) := fun x hx =>
      hh x (List.mem_append_right _ hx)
    have hr' : (((p.chunks S b).map Prod.fst).foldl (visitAt S B hash) s).Holds
        (chunks S (b + S.pageSize) ps) := by
      refine hr.foldl fun o ho x hx => ?_
      obtain ⟨y, hy, rfl⟩ := List.mem_map.mp ho
      have hy' := (PageImage.chunks_range (hok p (.head _)) y hy).2
      have hx' := (chunks_range hps x hx).1
      omega
    have hpa : ∀ fuel, fixupLoop S B hash (fuel + (p.chunks S b).length) b S.pageSize s visited =
        fixupLoop S B hash fuel (b + S.pageSize) S.pageSize
          (((p.chunks S b).map Prod.fst).foldl (visitAt S B hash) s)
          (visited ++ (p.chunks S b).map Prod.fst) := by
      intro fuel
      cases p with
      | unused =>
        obtain ⟨hlt, hm⟩ := hf (b, .unused) (List.mem_singleton.mpr rfl)
        have hs : slabsFixup S s ⟨b, hlt⟩ (b % S.pageSize) =
            (visitAt S B hash s b, none) := by
          simp only [visitAt, dif_pos hlt, slabsFixup, hm, Cell.clsid, if_true]
        show fixupLoop S B hash (fuel + 1) b S.pageSize s visited = _
        rw [fixupLoop, dif_pos hlt, hs]
        rfl
      | split cls cells =>
        obtain ⟨hn, hle, hlt⟩ := PageImage.Ok.fits (hok _ (.head _))
        obtain ⟨hc, -, hi⟩ := hok _ (.head _)
        rw [PageImage.chunks, length_chunksFrom]
        exact fixupLoop_cells hc hn hi hle hlt hf fuel visited
    rw [chunks, List.length_append, Nat.add_comm (p.chunks S b).length, ← Nat.add_assoc, hpa,
      ih hps (by omega) hr', List.map_append, List.foldl_append, append_assoc]

/-! ## What a visit does -/

/-- A chunk at the border of a page, or an unused page, is put into the list of its class. -/
def listAt (S : Classes) (x : Fin limit × Cell) (f : ℕ → List (Fin limit)) :
    ℕ → List (Fin limit) :=
  if x.2.clsid = 0 ∨ x.1.val % S.pageSize = 0 then
    update f x.2.clsid (f x.2.clsid ++ [x.1])
  else f

/-- A free chunk is put into the free list of its class. -/
def slotAt (x : Fin limit × Cell) (f : ℕ → List (Fin limit)) : ℕ → List (Fin limit) :=
  match x.2 with
  | .free id => update f id (x.1 :: f id)
  | _ => f

/-- A linked item is put into the hash table. -/
def tableAt (hash : Bytes → UInt32) (x : Fin limit × Cell) (t : HashTable (Fin limit)) :
    HashTable (Fin limit) :=
  match x.2 with
  | .item _ _ key _ _ _ => assocInsert t x.1 (hash key)
  | _ => t

/-- A linked item with no item on one side is an end of its list. -/
def endAt (B : Bases) (side : ℕ → ℕ → ℕ) (x : Fin limit × Cell)
    (f : ℕ × ℕ → Option (Fin limit)) : ℕ × ℕ → Option (Fin limit) :=
  match x.2 with
  | .item clsid lru _ next prev _ =>
    if fixPtr B (side next prev) = 0 ∧ f (clsid, lru) = none then
      update f (clsid, lru) (some x.1)
    else f
  | _ => f

/-- What a visit does, field by field. -/
def visitCell (S : Classes) (B : Bases) (hash : Bytes → UInt32) (s : State limit)
    (x : Fin limit × Cell) : State limit where
  mem := update s.mem x.1 (x.2.fix B)
  slabList := listAt S x s.slabList
  slots := slotAt x s.slots
  table := tableAt hash x s.table
  heads := endAt B (fun _ prev => prev) x s.heads
  tails := endAt B (fun next _ => next) x s.tails

theorem visitAt_eq {x : Fin limit × Cell} (hx : s.mem x.1 = x.2)
    (hz : x.2.clsid = 0 → x.2 = .unused) :
    visitAt S B hash s x.1 = visitCell S B hash s x := by
  obtain ⟨o, c⟩ := x
  simp only at hx hz
  have ho : (⟨o.val, o.isLt⟩ : Fin limit) = o := rfl
  simp only [visitAt, dif_pos o.isLt, ho]
  by_cases hi : c.clsid = 0
  · obtain rfl := hz hi
    have hm : update s.mem o (Cell.unused.fix B) = s.mem := by
      rw [show Cell.unused.fix B = s.mem o from hx.symm, Function.update_eq_self]
    simp only [slabsFixup, hx, visitCell, listAt, hi, if_true, true_or, hm]
    rfl
  have hs : slabsFixup S s o (o.val % S.pageSize) =
      ({ s with slabList := listAt S (o, c) s.slabList, slots := slotAt (o, c) s.slots },
        some (S.size c.clsid)) := by
    by_cases hb : o.val % S.pageSize = 0
    · have hl : listAt S (o, c) s.slabList = _ := if_pos (Or.inr hb)
      simp only [slabsFixup, hx, if_neg hi, if_pos hb, hl]
      cases c <;> rfl
    · have hl : listAt S (o, c) s.slabList = _ := if_neg (not_or.mpr ⟨hi, hb⟩)
      simp only [slabsFixup, hx, if_neg hi, if_neg hb, hl]
      cases c <;> rfl
  rw [hs]
  simp only [fixupChunk, hx]
  obtain _ | _ | ⟨_, _, _, _, _, _ | _⟩ | _ := c <;> rfl

/-- The chunks with their offsets as places in the memory. -/
def located (cells : List (ℕ × Cell)) (h : ∀ x ∈ cells, x.1 < limit) : List (Fin limit × Cell) :=
  cells.pmap (fun x hx => (⟨x.1, hx⟩, x.2)) h

theorem foldl_visitAt {cells : List (ℕ × Cell)} (h : ∀ x ∈ cells, x.1 < limit)
    (hh : s.Holds cells) (hs : cells.Pairwise fun x y => x.1 < y.1)
    (hz : ∀ x ∈ cells, x.2.clsid = 0 → x.2 = .unused) :
    (cells.map Prod.fst).foldl (visitAt S B hash) s =
      (located cells h).foldl (visitCell S B hash) s := by
  induction cells generalizing s with
  | nil => rfl
  | cons x xs ih =>
    obtain ⟨hf, hr⟩ := List.pairwise_cons.mp hs
    obtain ⟨hl, hm⟩ := hh x (.head _)
    have hv : visitAt S B hash s x.1 = visitCell S B hash s (⟨x.1, hl⟩, x.2) :=
      visitAt_eq (x := (⟨x.1, hl⟩, x.2)) hm (hz x (.head _))
    have hx : (visitAt S B hash s x.1).Holds xs :=
      State.Holds.visit (fun y hy => hh y (.tail _ hy))
        fun y hy => (hf y hy).ne'
    rw [map_cons, foldl_cons, ih (fun y hy => h y (.tail _ hy)) hx hr
      fun y hy => hz y (.tail _ hy), hv]
    rfl

/-! ### The fields after all visits -/

variable {cells : List (Fin limit × Cell)}

theorem foldl_mem (hn : (cells.map Prod.fst).Nodup) {x : Fin limit × Cell} (hx : x ∈ cells) :
    (cells.foldl (visitCell S B hash) s).mem x.1 = x.2.fix B := by
  induction cells generalizing s with
  | nil => cases hx
  | cons y ys ih =>
    obtain ⟨hno, hy⟩ := List.nodup_cons.mp hn
    rw [foldl_cons]
    obtain rfl | hx := List.mem_cons.mp hx
    · have hk : ∀ (zs : List (Fin limit × Cell)) (t : State limit), x.1 ∉ zs.map Prod.fst →
          (zs.foldl (visitCell S B hash) t).mem x.1 = t.mem x.1 := by
        intro zs
        induction zs with
        | nil => exact fun t _ => rfl
        | cons z zs ihz =>
          intro t ht
          rw [map_cons, List.mem_cons, not_or] at ht
          rw [foldl_cons, ihz _ ht.2]
          exact update_of_ne ht.1 ..
      rw [hk ys _ hno]
      exact update_self ..
    · exact ih hy hx

theorem foldl_slabList (id : ℕ) :
    (cells.foldl (visitCell S B hash) s).slabList id = s.slabList id ++ cells.filterMap fun x =>
      if (x.2.clsid = 0 ∨ x.1.val % S.pageSize = 0) ∧ x.2.clsid = id then some x.1 else none := by
  induction cells generalizing s with
  | nil => exact (append_nil _).symm
  | cons x xs ih =>
    rw [foldl_cons, ih]
    show listAt S x s.slabList id ++ _ = _
    rw [listAt, List.filterMap_cons]
    by_cases hb : x.2.clsid = 0 ∨ x.1.val % S.pageSize = 0
    · rw [if_pos hb]
      by_cases hi : x.2.clsid = id
      · subst hi
        rw [update_self, if_pos ⟨hb, rfl⟩, append_assoc]
        rfl
      · rw [update_of_ne (Ne.symm hi), if_neg fun h => hi h.2]
    · rw [if_neg hb, if_neg fun h => hb h.1]

theorem foldl_slots (id : ℕ) :
    (cells.foldl (visitCell S B hash) s).slots id =
      (cells.filterMap fun x => if x.2 = .free id then some x.1 else none).reverse ++
        s.slots id := by
  induction cells generalizing s with
  | nil => rfl
  | cons x xs ih =>
    rw [foldl_cons, ih]
    show _ ++ slotAt x s.slots id = _
    rw [List.filterMap_cons]
    by_cases hf : x.2 = .free id
    · rw [if_pos hf, slotAt, hf]
      simp only [update_self, List.reverse_cons, append_assoc]
      rfl
    rw [if_neg hf]
    have hs : slotAt x s.slots id = s.slots id := by
      rw [slotAt]
      rcases hx : x.2 with _ | id' | _ | _
      · rfl
      · refine update_of_ne ?_ ..
        rintro rfl
        exact hf hx
      · rfl
      · rfl
    rw [hs]

theorem tableAt_eq (x : Fin limit × Cell) (t : HashTable (Fin limit)) :
    tableAt hash x t = x.2.key.elim t fun key => assocInsert t x.1 (hash key) := by
  unfold tableAt
  obtain _ | _ | _ | _ := x.2 <;> rfl

theorem foldl_table {itemKey : Fin limit → Bytes} (h : Assoc.Inv hash itemKey s.table ∅)
    (hk : ∀ x ∈ cells, ∀ key, x.2.key = some key → itemKey x.1 = key)
    (hn : (cells.map Prod.fst).Nodup)
    (hnew : ∀ x ∈ cells, ∀ y ∈ cells, x.2.key ≠ none → y.2.key ≠ none →
      itemKey x.1 = itemKey y.1 → x.1 = y.1) :
    ∃ stored, Assoc.Inv hash itemKey (cells.foldl (visitCell S B hash) s).table stored ∧
      ∀ o, o ∈ stored ↔ ∃ c, (o, c) ∈ cells ∧ c.key ≠ none := by
  induction cells using List.reverseRecOn with
  | nil => exact ⟨∅, h, fun o => by simp⟩
  | append_singleton xs x ih =>
    have hl : ∀ y ∈ xs, y ∈ xs ++ [x] := fun y hy => List.mem_append_left _ hy
    have hla : x ∈ xs ++ [x] := List.mem_append_right _ (List.mem_singleton.mpr rfl)
    rw [List.map_append, List.nodup_append] at hn
    obtain ⟨stored, hin, hm⟩ := ih (fun y hy => hk y (hl y hy)) hn.1
      fun y hy z hz => hnew y (hl y hy) z (hl z hz)
    have ht : ((xs ++ [x]).foldl (visitCell S B hash) s).table =
        tableAt hash x (xs.foldl (visitCell S B hash) s).table := by
      rw [List.foldl_append]
      rfl
    rw [ht, tableAt_eq]
    rcases hke : x.2.key with _ | key
    · -- not a linked item: the table stays
      refine ⟨stored, hin, fun o => (hm o).trans (exists_congr fun c => ?_)⟩
      rw [List.mem_append, List.mem_singleton, or_and_right, iff_self_or]
      rintro ⟨rfl, hne⟩
      exact absurd hke hne
    have hs : x.2.key ≠ none := by
      rw [hke]
      nofun
    have hf : ∀ y ∈ xs, y.1 ≠ x.1 := fun y hy =>
      hn.2.2 _ (List.mem_map_of_mem hy) _ (by simp)
    have ho : x.1 ∉ stored := fun hx => by
      obtain ⟨c, hc, -⟩ := (hm _).mp hx
      exact hf _ hc rfl
    have hi := hin.assocInsert ho
      (fun it hit he => by
        obtain ⟨c, hc, hne⟩ := (hm _).mp hit
        exact hf _ hc (hnew _ (hl _ hc) x hla hne hs he))
    rw [hk x hla key hke] at hi
    refine ⟨insert x.1 stored, hi, fun o => ?_⟩
    rw [Finset.mem_insert, hm]
    constructor
    · rintro (rfl | ⟨c, hc, hne⟩)
      · exact ⟨x.2, hla, hs⟩
      · exact ⟨c, hl _ hc, hne⟩
    · rintro ⟨c, hc, hne⟩
      obtain hc | hc := List.mem_append.mp hc
      · exact Or.inr ⟨c, hc, hne⟩
      · exact Or.inl (congrArg Prod.fst (List.mem_singleton.mp hc))

/-- A linked item that is an end of its list. -/
def endOf (B : Bases) (side : ℕ → ℕ → ℕ) (id : ℕ × ℕ) (x : Fin limit × Cell) :
    Option (Fin limit) :=
  match x.2 with
  | .item clsid lru _ next prev _ =>
    if (clsid, lru) = id ∧ fixPtr B (side next prev) = 0 then some x.1 else none
  | _ => none

theorem endAt_apply (side : ℕ → ℕ → ℕ) (x : Fin limit × Cell)
    (f : ℕ × ℕ → Option (Fin limit)) (id : ℕ × ℕ) :
    endAt B side x f id = (f id).or (endOf B side id x) := by
  unfold endAt endOf
  obtain _ | _ | ⟨clsid, lru, key, next, prev, ch⟩ | _ := x.2
  · exact (Option.or_none ..).symm
  · exact (Option.or_none ..).symm
  · simp only
    by_cases hi : (clsid, lru) = id
    · subst hi
      rcases hf : f (clsid, lru) with _ | o
      · by_cases he : fixPtr B (side next prev) = 0
        · rw [if_pos ⟨he, rfl⟩, if_pos ⟨rfl, he⟩, update_self]
          rfl
        · rw [if_neg fun h => he h.1, if_neg fun h => he h.2, hf]
          rfl
      · rw [if_neg fun h => absurd h.2 nofun, hf]
        rfl
    · have hn : (if (clsid, lru) = id ∧ fixPtr B (side next prev) = 0 then some x.1 else none) =
          none := if_neg fun h => hi h.1
      rw [hn, Option.or_none]
      split_ifs
      · exact update_of_ne (Ne.symm hi) ..
      · rfl
  · exact (Option.or_none ..).symm

theorem foldl_endAt (side : ℕ → ℕ → ℕ) (f : ℕ × ℕ → Option (Fin limit)) (id : ℕ × ℕ) :
    cells.foldl (fun f x => endAt B side x f) f id =
      (f id).or (cells.findSome? (endOf B side id)) := by
  induction cells generalizing f with
  | nil => exact (Option.or_none ..).symm
  | cons x xs ih =>
    rw [foldl_cons, ih, endAt_apply, Option.or_assoc, List.findSome?_cons]
    obtain _ | o := endOf B side id x <;> rfl

theorem foldl_ends :
    (cells.foldl (visitCell S B hash) s).heads =
        cells.foldl (fun f x => endAt B (fun _ prev => prev) x f) s.heads ∧
      (cells.foldl (visitCell S B hash) s).tails =
        cells.foldl (fun f x => endAt B (fun next _ => next) x f) s.tails := by
  induction cells generalizing s with
  | nil => exact ⟨rfl, rfl⟩
  | cons x xs ih => exact ih

end Visits

/-! ## Page borders -/

section Borders

variable {S : Classes} {o : ℕ} {c : Cell}

def PageImage.firstCell : PageImage → Option Cell
  | .unused => some .unused
  | .split _ cells => cells.head?

theorem cell_of_chunksFrom {size b : ℕ} {cells : List Cell} {x : ℕ × Cell}
    (hx : x ∈ chunksFrom size b cells) : x.2 ∈ cells := by
  induction cells generalizing b with
  | nil => cases hx
  | cons c cs ih =>
    obtain rfl | hx := List.mem_cons.mp hx
    · exact .head _
    · exact List.mem_cons_of_mem _ (ih hx)

theorem PageImage.border_iff {p : PageImage} (ho : p.Ok S) (k : ℕ) :
    ((o, c) ∈ p.chunks S (k * S.pageSize) ∧ (c.clsid = 0 ∨ o % S.pageSize = 0)) ↔
      o = k * S.pageSize ∧ p.firstCell = some c := by
  cases p with
  | unused =>
    constructor
    · rintro ⟨hm, -⟩
      obtain ⟨rfl, rfl⟩ := Prod.mk.inj (List.mem_singleton.mp hm)
      exact ⟨rfl, rfl⟩
    · rintro ⟨rfl, hf⟩
      cases hf
      exact ⟨List.mem_singleton.mpr rfl, Or.inl rfl⟩
  | split cls cells =>
    obtain ⟨hn, -, -⟩ := ho.fits
    obtain ⟨c0, cs, rfl⟩ := List.exists_cons_of_ne_nil hn
    constructor
    · rintro ⟨hm, hbo⟩
      have hi := ho.2.2 c (cell_of_chunksFrom hm)
      have hmo : o % S.pageSize = 0 := hbo.resolve_left (hi.clsid_ne ho.1)
      obtain ⟨hg, hl⟩ := PageImage.chunks_range ho _ hm
      -- the only multiple of the page size in the page is its start
      have hs : o = k * S.pageSize := by
        obtain ⟨q, hq⟩ := Nat.dvd_of_mod_eq_zero hmo
        simp only at hg hl
        rw [hq, Nat.mul_comm S.pageSize q] at hg hl ⊢
        have hk : k ≤ q := Nat.le_of_mul_le_mul_right hg (pageSize_pos S)
        have hq' : q < k + 1 := by
          refine Nat.lt_of_mul_lt_mul_right (a := S.pageSize) ?_
          rw [Nat.add_mul, Nat.one_mul]
          exact hl
        rw [show q = k by omega]
      refine ⟨hs, ?_⟩
      obtain he | ht := List.mem_cons.mp hm
      · exact congrArg some (Prod.mk.inj he).2.symm
      have hb := chunksFrom_ge _ ht
      have hp := S.size_pos cls
      simp only at hb
      omega
    · rintro ⟨rfl, hf⟩
      obtain rfl : c0 = c := Option.some.inj hf
      exact ⟨List.mem_cons_self, Or.inr (Nat.mul_mod_left ..)⟩

theorem border_iff {pages : List PageImage} (hok : ∀ p ∈ pages, p.Ok S) (k : ℕ) :
    ((o, c) ∈ chunks S (k * S.pageSize) pages ∧ (c.clsid = 0 ∨ o % S.pageSize = 0)) ↔
      ∃ i p, pages[i]? = some p ∧ o = (k + i) * S.pageSize ∧ p.firstCell = some c := by
  induction pages generalizing k with
  | nil =>
    constructor
    · rintro ⟨hm, -⟩
      cases hm
    · rintro ⟨i, p, hp, -⟩
      simp at hp
  | cons q ps ih =>
    have hps : ∀ p ∈ ps, p.Ok S := fun p hp => hok p (.tail _ hp)
    have hs : k * S.pageSize + S.pageSize = (k + 1) * S.pageSize := by
      rw [Nat.add_mul, Nat.one_mul]
    rw [chunks, List.mem_append, or_and_right,
      PageImage.border_iff (hok q (.head _)), hs, ih hps (k + 1)]
    constructor
    · rintro (⟨ho, hf⟩ | ⟨i, p, hp, ho, hf⟩)
      · exact ⟨0, q, rfl, ho, hf⟩
      · refine ⟨i + 1, p, hp, ?_, hf⟩
        rw [ho, Nat.add_assoc, Nat.add_comm 1 i]
    rintro ⟨i, p, hp, ho, hf⟩
    cases i with
    | zero =>
      obtain rfl : q = p := Option.some.inj hp
      exact Or.inl ⟨ho, hf⟩
    | succ i =>
      refine Or.inr ⟨i, p, hp, ?_, hf⟩
      rw [ho, Nat.add_assoc, Nat.add_comm 1 i]

theorem clsid_zero {pages : List PageImage} (ho : ∀ p ∈ pages, p.Ok S) {b : ℕ}
    {x : ℕ × Cell} (hx : x ∈ chunks S b pages) (hz : x.2.clsid = 0) : x.2 = .unused := by
  induction pages generalizing b with
  | nil => cases hx
  | cons p ps ih =>
    obtain hx | hx := List.mem_append.mp hx
    · cases p with
      | unused =>
        obtain rfl := List.mem_singleton.mp hx
        rfl
      | split cls cells =>
        obtain ⟨hc, -, hi⟩ := ho _ (.head _)
        exact absurd hz ((hi _ (cell_of_chunksFrom hx)).clsid_ne hc)
    · exact ih (fun p hp => ho p (.tail _ hp)) hx

end Borders

/-! ## The cache is rebuilt -/

namespace Image

variable {S : Classes} {B : Bases} {limit : ℕ} (I : Image S B limit) (hash : Bytes → UInt32)
  (hashpower : ℕ)

/-- The chunks of the image with their places. -/
def cells : List (Fin limit × Cell) :=
  located (chunks S 0 I.pages) fun x hx => (I.holds x hx).1

theorem mem_cells {o : Fin limit} {c : Cell} :
    (o, c) ∈ I.cells ↔ (o.val, c) ∈ chunks S 0 I.pages := by
  unfold cells located
  rw [List.mem_pmap]
  constructor
  · rintro ⟨x, hx, he⟩
    obtain ⟨rfl, rfl⟩ := Prod.mk.inj he
    exact hx
  · intro hm
    exact ⟨(o.val, c), hm, rfl⟩

theorem offsets_nodup : ((chunks S 0 I.pages).map Prod.fst).Nodup := by
  rw [List.Nodup, List.pairwise_map]
  exact (chunks_sorted I.ok 0).imp fun hl => hl.ne

theorem cells_nodup : (I.cells.map Prod.fst).Nodup := by
  refine List.Nodup.of_map Fin.val ?_
  have he : (I.cells.map Prod.fst).map Fin.val = (chunks S 0 I.pages).map Prod.fst := by
    rw [List.map_map, cells, located, List.map_pmap]
    exact List.pmap_eq_map ..
  rw [he]
  exact I.offsets_nodup

def final : State limit := I.cells.foldl (visitCell S B hash) (newState hashpower I.mem)

/-- **The walk.** Every chunk of every page is visited once, in the order of the memory. -/
theorem restartFixup_eq :
    restartFixup S B hash hashpower I.mem =
      some (I.final hash hashpower, (chunks S 0 I.pages).map Prod.fst) := by
  have hle := length_chunks_le I.ok 0
  have hl := I.limit_eq
  have hf : limit + 1 =
      limit - (chunks S 0 I.pages).length + 1 + (chunks S 0 I.pages).length := by omega
  have hh : (newState hashpower I.mem).Holds (chunks S 0 I.pages) := I.holds
  rw [restartFixup, hf, fixupLoop_pages I.ok (by omega) hh,
    foldl_visitAt (fun x hx => (I.holds x hx).1) hh (chunks_sorted I.ok 0)
      fun x hx => clsid_zero I.ok hx]
  rfl

include I in
theorem fixPtr_addr (x : Option (Fin limit)) : fixPtr B (addr B.orig x) = addr B.base x := by
  have hor := I.orig_pos
  have hb := I.base_lt
  cases x with
  | none => rfl
  | some o =>
    have ho := o.isLt
    show fixPtr B (B.orig + o.val) = B.base + o.val
    rw [fixPtr, if_neg (by omega)]
    omega

theorem mem_final {x : ℕ × Cell} (hx : x ∈ chunks S 0 I.pages) :
    ∃ h : x.1 < limit, (I.final hash hashpower).mem ⟨x.1, h⟩ = x.2.fix B := by
  obtain ⟨hl, -⟩ := I.holds x hx
  have hc : ((⟨x.1, hl⟩ : Fin limit), x.2) ∈ I.cells := I.mem_cells.mpr hx
  exact ⟨hl, foldl_mem I.cells_nodup hc⟩

theorem mem_slabList (id : ℕ) (o : Fin limit) :
    o ∈ (I.final hash hashpower).slabList id ↔ ∃ i p c, I.pages[i]? = some p ∧
      o.val = i * S.pageSize ∧ p.firstCell = some c ∧ c.clsid = id := by
  rw [final, foldl_slabList]
  show o ∈ [] ++ _ ↔ _
  rw [List.nil_append, List.mem_filterMap]
  constructor
  · rintro ⟨⟨o', c⟩, hm, hif⟩
    rw [Option.ite_none_right_eq_some] at hif
    obtain ⟨⟨hb, hi⟩, ho⟩ := hif
    obtain rfl : o' = o := Option.some.inj ho
    have hc := I.mem_cells.mp hm
    rw [← Nat.zero_mul S.pageSize] at hc
    obtain ⟨i, p, hp, hs, hf⟩ := (border_iff I.ok 0).mp ⟨hc, hb⟩
    rw [Nat.zero_add] at hs
    exact ⟨i, p, c, hp, hs, hf, hi⟩
  · rintro ⟨i, p, c, hp, hs, hf, hi⟩
    obtain ⟨hc, hb⟩ := (border_iff (o := o.val) (c := c) I.ok 0).mpr
      ⟨i, p, hp, by rw [Nat.zero_add]; exact hs, hf⟩
    rw [Nat.zero_mul] at hc
    exact ⟨(o, c), I.mem_cells.mpr hc, if_pos ⟨hb, hi⟩⟩

theorem filterMap_nodup (q : Fin limit × Cell → Prop) [DecidablePred q] :
    (I.cells.filterMap fun x => if q x then some x.1 else none).Nodup := by
  have he : ∀ xs : List (Fin limit × Cell),
      (xs.filterMap fun x => if q x then some x.1 else none) =
        (xs.filter fun x => q x).map Prod.fst := by
    intro xs
    induction xs with
    | nil => rfl
    | cons x xs ih => by_cases hx : q x <;> simp [hx, ih]
  rw [he]
  exact I.cells_nodup.sublist (List.filter_sublist.map _)

theorem slabList_nodup (id : ℕ) : ((I.final hash hashpower).slabList id).Nodup := by
  rw [final, foldl_slabList]
  exact I.filterMap_nodup fun x =>
    (x.2.clsid = 0 ∨ x.1.val % S.pageSize = 0) ∧ x.2.clsid = id

theorem slots_nodup (id : ℕ) : ((I.final hash hashpower).slots id).Nodup := by
  rw [final, foldl_slots]
  show (_ ++ []).Nodup
  rw [append_nil, List.nodup_reverse]
  exact I.filterMap_nodup fun x => x.2 = .free id

theorem mem_slots (id : ℕ) (o : Fin limit) :
    o ∈ (I.final hash hashpower).slots id ↔ (o.val, .free id) ∈ chunks S 0 I.pages := by
  rw [final, foldl_slots]
  show o ∈ _ ++ [] ↔ _
  rw [append_nil, List.mem_reverse, List.mem_filterMap, ← I.mem_cells]
  constructor
  · rintro ⟨⟨o', c⟩, hm, hi⟩
    rw [Option.ite_none_right_eq_some] at hi
    obtain ⟨rfl, ho⟩ := hi
    obtain rfl : o' = o := Option.some.inj ho
    exact hm
  · intro hm
    exact ⟨(o, .free id), hm, if_pos rfl⟩

theorem key_fix (c : Cell) : (c.fix B).key = c.key := by
  cases c <;> rfl

theorem found_iff (key : Bytes) (o : Fin limit) :
    assocFind (I.final hash hashpower).itemKey (I.final hash hashpower).table key (hash key) =
        some o ↔
      ∃ c, (o.val, c) ∈ chunks S 0 I.pages ∧ c.key = some key := by
  have hk : ∀ x ∈ I.cells, ∀ key, x.2.key = some key →
      (I.final hash hashpower).itemKey x.1 = key := by
    intro x hx key hke
    rw [State.itemKey, show (I.final hash hashpower).mem x.1 = x.2.fix B from
      foldl_mem I.cells_nodup hx, key_fix, hke]
    rfl
  have hn : ∀ x ∈ I.cells, ∀ y ∈ I.cells, x.2.key ≠ none → y.2.key ≠ none →
      (I.final hash hashpower).itemKey x.1 = (I.final hash hashpower).itemKey y.1 →
      x.1 = y.1 := by
    intro x hx y hy hxk hyk he
    obtain ⟨kx, hkx⟩ := Option.ne_none_iff_exists'.mp hxk
    obtain ⟨ky, hky⟩ := Option.ne_none_iff_exists'.mp hyk
    rw [hk x hx kx hkx, hk y hy ky hky] at he
    exact Fin.ext (I.keys _ (I.mem_cells.mp hx) _ (I.mem_cells.mp hy) kx hkx (he ▸ hky))
  obtain ⟨stored, hi, hm⟩ := foldl_table (S := S) (B := B)
    (s := newState hashpower I.mem) (inv_assocInit hash _ hashpower) hk I.cells_nodup hn
  have hf : Assoc.Inv hash (I.final hash hashpower).itemKey
      (I.final hash hashpower).table stored := hi
  rw [hf.assocFind_eq_some_iff, hm]
  constructor
  · rintro ⟨⟨c, hc, hne⟩, hke⟩
    obtain ⟨key', hk'⟩ := Option.ne_none_iff_exists'.mp hne
    have ht := hk (o, c) hc key' hk'
    refine ⟨c, I.mem_cells.mp hc, ?_⟩
    rw [hk', ← ht, ← hke]
  · rintro ⟨c, hc, hke⟩
    have hce := I.mem_cells.mpr hc
    refine ⟨⟨c, hce, ?_⟩, hk (o, c) hce key hke⟩
    rw [hke]
    nofun

/-! ### The lists -/

variable {id : ℕ × ℕ}

theorem cell_of_lru {i : ℕ} {o : Fin limit} (ho : (I.lru id)[i]? = some o) :
    ∃ key ch, (o, .item id.1 id.2 key (addr B.orig (I.lru id)[i + 1]?)
      (addr B.orig (if i = 0 then none else (I.lru id)[i - 1]?)) ch) ∈ I.cells := by
  obtain ⟨c, hc, hl⟩ := (I.lru_mem id o).mp (mem_of_getElem? ho)
  obtain ⟨clsid, lru, key, ch, hm⟩ := I.lru_links id i o ho
  obtain ⟨hlt, hc'⟩ := I.holds _ hc
  obtain rfl : c = _ := hc'.symm.trans hm
  cases hl
  exact ⟨key, ch, I.mem_cells.mpr hc⟩

theorem place_of_end {side : ℕ → ℕ → ℕ} {x : Fin limit × Cell} {o : Fin limit}
    (hx : x ∈ I.cells) (he : endOf B side id x = some o) :
    ∃ i, (I.lru id)[i]? = some o ∧ fixPtr B (side (addr B.orig (I.lru id)[i + 1]?)
      (addr B.orig (if i = 0 then none else (I.lru id)[i - 1]?))) = 0 := by
  obtain ⟨o', c⟩ := x
  unfold endOf at he
  split at he
  · rename_i clsid lru key next prev ch heq
    simp only at heq
    subst heq
    rw [Option.ite_none_right_eq_some] at he
    obtain ⟨⟨rfl, hz⟩, ho⟩ := he
    obtain rfl : o' = o := Option.some.inj ho
    have hch := I.mem_cells.mp hx
    have hin : o' ∈ I.lru (clsid, lru) := (I.lru_mem _ o').mpr ⟨_, hch, rfl⟩
    obtain ⟨i, hi⟩ := List.getElem?_of_mem hin
    obtain ⟨clsid', lru', key', ch', hm⟩ := I.lru_links (clsid, lru) i o' hi
    obtain ⟨hl, hc⟩ := I.holds _ hch
    obtain ⟨-, -, -, hn, hp, -⟩ := Cell.item.inj (hc.symm.trans hm)
    refine ⟨i, hi, ?_⟩
    rw [← hn, ← hp]
    exact hz
  · cases he

include I in
theorem addr_base_eq_zero {x : Option (Fin limit)} (h : fixPtr B (addr B.orig x) = 0) :
    x = none := by
  rw [I.fixPtr_addr] at h
  have hb := I.base_pos
  cases x with
  | none => rfl
  | some o =>
    simp only [addr] at h
    omega

/-- The item that is an end of a list on one side is found as such. -/
theorem findSome_end {side : ℕ → ℕ → ℕ} {r : Option (Fin limit)}
    (ho : ∀ i o, (I.lru id)[i]? = some o → fixPtr B (side (addr B.orig (I.lru id)[i + 1]?)
      (addr B.orig (if i = 0 then none else (I.lru id)[i - 1]?))) = 0 → r = some o)
    (hs : ∀ o, r = some o → ∃ i, (I.lru id)[i]? = some o ∧
      fixPtr B (side (addr B.orig (I.lru id)[i + 1]?)
        (addr B.orig (if i = 0 then none else (I.lru id)[i - 1]?))) = 0) :
    I.cells.findSome? (endOf B side id) = r := by
  rcases hf : I.cells.findSome? (endOf B side id) with _ | o
  · obtain _ | o := r
    · rfl
    obtain ⟨i, hi, hz⟩ := hs o rfl
    obtain ⟨key, ch, hm⟩ := I.cell_of_lru hi
    have he : endOf B side id (o, .item id.1 id.2 key _ _ ch) = some o :=
      if_pos ⟨rfl, hz⟩
    rw [List.findSome?_eq_none_iff.mp hf _ hm] at he
    cases he
  · obtain ⟨x, hx, he⟩ := List.exists_of_findSome?_eq_some hf
    obtain ⟨i, hi, hz⟩ := I.place_of_end hx he
    exact (ho i o hi hz).symm

theorem heads_final (id : ℕ × ℕ) : (I.final hash hashpower).heads id = (I.lru id).head? := by
  rw [final, foldl_ends.1, foldl_endAt]
  show Option.or none _ = _
  rw [Option.none_or, List.head?_eq_getElem?]
  refine I.findSome_end (fun i o hi hz => ?_) fun o ho => ⟨0, ho, I.fixPtr_addr none⟩
  have hn := I.addr_base_eq_zero hz
  cases i with
  | zero => exact hi
  | succ i =>
    rw [if_neg (Nat.succ_ne_zero i), Nat.add_sub_cancel, List.getElem?_eq_none_iff] at hn
    obtain ⟨hl, -⟩ := List.getElem?_eq_some_iff.mp hi
    omega

theorem tails_final (id : ℕ × ℕ) : (I.final hash hashpower).tails id = (I.lru id).getLast? := by
  rw [final, foldl_ends.2, foldl_endAt]
  show Option.or none _ = _
  rw [Option.none_or, List.getLast?_eq_getElem?]
  refine I.findSome_end (fun i o hi hz => ?_) fun o ho => ⟨_, ho, ?_⟩
  · have hn := List.getElem?_eq_none_iff.mp (I.addr_base_eq_zero hz)
    obtain ⟨hl, -⟩ := List.getElem?_eq_some_iff.mp hi
    rwa [show (I.lru id).length - 1 = i by omega]
  · obtain ⟨hl, -⟩ := List.getElem?_eq_some_iff.mp ho
    rw [List.getElem?_eq_none_iff.mpr (by omega)]
    exact I.fixPtr_addr none

theorem links_final (id : ℕ × ℕ) : Links B.base (I.final hash hashpower).mem (I.lru id) := by
  intro i o ho
  obtain ⟨key, ch, hm⟩ := I.cell_of_lru ho
  refine ⟨id.1, id.2, key, ch.map (Chunk.fix B), ?_⟩
  rw [show (I.final hash hashpower).mem o = _ from foldl_mem I.cells_nodup hm, Cell.fix,
    I.fixPtr_addr, I.fixPtr_addr]

end Image

theorem Image.pages_iff {S : Classes} {B : Bases} {limit : ℕ} (I : Image S B limit)
    (hash : Bytes → UInt32) (hashpower : ℕ) :
    (∀ id o, o ∈ (I.final hash hashpower).slabList id ↔
        ∃ i p, I.pages[i]? = some p ∧ o.val = i * S.pageSize ∧ p.cls = id) ↔
      ∀ p ∈ I.pages, p.FirstOk := by
  constructor
  · intro h p hp
    cases p with
    | unused => exact trivial
    | split cls cells =>
      intro c hc
      obtain ⟨i, hi⟩ := List.getElem?_of_mem hp
      have hb : (0 + i) * S.pageSize = (0 + i) * S.pageSize ∧
          (PageImage.split cls cells).firstCell = some c := ⟨rfl, hc⟩
      obtain ⟨hch, -⟩ := (border_iff I.ok 0).mpr ⟨i, _, hi, hb⟩
      rw [Nat.zero_mul, Nat.zero_add] at hch
      obtain ⟨hlt, -⟩ := I.holds _ hch
      have hl : (⟨i * S.pageSize, hlt⟩ : Fin limit) ∈
          (I.final hash hashpower).slabList c.clsid :=
        (I.mem_slabList hash hashpower _ _).mpr ⟨i, _, c, hi, rfl, hc, rfl⟩
      obtain ⟨i', p', hp', hs, hcl⟩ := (h _ _).mp hl
      obtain rfl : i = i' := Nat.eq_of_mul_eq_mul_right (pageSize_pos S) hs
      obtain rfl := Option.some.inj (hi.symm.trans hp')
      exact hcl.symm
  · intro hf id o
    rw [I.mem_slabList]
    constructor
    · rintro ⟨i, p, c, hp, ho, hc, hid⟩
      refine ⟨i, p, hp, ho, ?_⟩
      rw [← hid]
      cases p with
      | unused =>
        cases hc
        rfl
      | split cls cells => exact (hf _ (mem_of_getElem? hp) c hc).symm
    · rintro ⟨i, p, hp, ho, hid⟩
      cases p with
      | unused => exact ⟨i, _, .unused, hp, ho, rfl, hid⟩
      | split cls cells =>
        obtain ⟨hn, -, -⟩ := PageImage.Ok.fits (I.ok _ (mem_of_getElem? hp))
        obtain ⟨c, cs, rfl⟩ := List.exists_cons_of_ne_nil hn
        refine ⟨i, _, c, hp, ho, rfl, ?_⟩
        rw [← hid]
        exact hf _ (mem_of_getElem? hp) c rfl

/-- After a clean stop, for every image of the memory and every old and new address: the walk
ends, and the cache is rebuilt, if and only if no page begins with the header of a chunked
item whose object is of another class. -/
theorem fixup_rebuilds_iff {S : Classes} {B : Bases} {limit : ℕ} (I : Image S B limit)
    (hash : Bytes → UInt32) (hashpower : ℕ) :
    (∃ s visited, restartFixup S B hash hashpower I.mem = some (s, visited) ∧
      Rebuilt I hash s visited) ↔ ∀ p ∈ I.pages, p.FirstOk := by
  rw [I.restartFixup_eq hash hashpower]
  constructor
  · rintro ⟨s, visited, he, h⟩
    cases he
    exact (I.pages_iff hash hashpower).mp h.pages
  intro hf
  exact ⟨_, _, rfl,
    { visits := rfl
      once := I.offsets_nodup
      pages := (I.pages_iff hash hashpower).mpr hf
      pages_once := I.slabList_nodup hash hashpower
      slots := I.mem_slots hash hashpower
      slots_once := I.slots_nodup hash hashpower
      found := I.found_iff hash hashpower
      lists := fun id => ⟨I.heads_final hash hashpower id, I.tails_final hash hashpower id,
        I.links_final hash hashpower id⟩
      moved := fun x hx => I.mem_final hash hashpower hx
      moves := fun o => I.fixPtr_addr (some o) }⟩

/-! ## A page that is put into the wrong class -/

/-- Pages of 1024 bytes, with four chunks of class 5 or two of another one. -/
def smallClasses : Classes where
  pageSize := 1024
  size id := if id = 5 then 256 else 512
  size_pos _ := by split <;> decide
  size_le _ := by split <;> decide

def smallBases : Bases := ⟨2 ^ 20, 2 ^ 30⟩

/-- The header of a chunked item of class `k + 1` in `COLD_LRU`, in memory of class 5. -/
def chunkedHeader (k : ℕ) : Cell :=
  .item (k + 1) 128 (ascii "big") 0 0 (some ⟨2 ^ 20 + 256, 0, 2 ^ 20, 5⟩)

def itemChunk : Cell := .chunk 5 ⟨0, 2 ^ 20 + 64, 2 ^ 20, 5⟩

/-- One page: the header, its chunk, and two free chunks. -/
def headerFirst (k : ℕ) : Image smallClasses smallBases 1024 where
  pages := [.split 5 [chunkedHeader k, itemChunk, .free 5, .free 5]]
  mem o := if o.val = 0 then chunkedHeader k else if o.val = 256 then itemChunk else .free 5
  lru id := if id = (k + 1, 128) then [0] else []
  ok p hp := by
    obtain rfl := List.mem_singleton.mp hp
    refine ⟨by decide, rfl, fun c hc => ?_⟩
    fin_cases hc
    · exact ⟨Nat.succ_pos k, rfl⟩
    · rfl
    · rfl
    · rfl
  limit_eq := Nat.one_mul 1024
  holds x hx := by
    fin_cases hx
    · exact ⟨Nat.succ_pos 1023, rfl⟩
    · exact ⟨by decide, rfl⟩
    · exact ⟨by decide, rfl⟩
    · exact ⟨by decide, rfl⟩
  keys x hx y hy key hx' hy' := by
    have hzero : ∀ z ∈ chunks smallClasses 0
        [.split 5 [chunkedHeader k, itemChunk, .free 5, .free 5]],
        z.2.key = some key → z.1 = 0 := by
      intro z hz hkey
      fin_cases hz
      · rfl
      · cases hkey
      · cases hkey
      · cases hkey
    exact (hzero x hx hx').trans (hzero y hy hy').symm
  lru_mem id o := by
    constructor
    · intro ho
      split_ifs at ho with hid
      · obtain rfl := List.mem_singleton.mp ho
        exact ⟨chunkedHeader k, List.mem_cons_self, congrArg some hid.symm⟩
      · cases ho
    rintro ⟨c, hc, hlist⟩
    obtain ⟨x, hx, hxo, hxl⟩ : ∃ x ∈ chunks smallClasses 0
        [.split 5 [chunkedHeader k, itemChunk, .free 5, .free 5]],
        x.1 = o.val ∧ x.2.list = some id := ⟨(o.val, c), hc, rfl, hlist⟩
    fin_cases hx
    · cases hxl
      rw [if_pos rfl]
      exact List.mem_singleton.mpr (Fin.ext hxo.symm)
    · cases hxl
    · cases hxl
    · cases hxl
  lru_nodup id := by
    split_ifs
    · exact List.nodup_singleton _
    · exact List.nodup_nil
  lru_links id i o ho := by
    by_cases hid : id = (k + 1, 128)
    · rw [if_pos hid] at ho ⊢
      cases i with
      | zero =>
        cases ho
        exact ⟨k + 1, 128, ascii "big", _, rfl⟩
      | succ i => exact nomatch ho
    · rw [if_neg hid] at ho
      exact nomatch ho
  orig_pos := by decide
  base_pos := by decide
  orig_lt := by decide
  base_lt := by decide

/-- A header that has the class of its page. -/
theorem fixup_rebuilds_iff_own_class : ∃ s visited,
    restartFixup smallClasses smallBases (fun _ => 0) 16 (headerFirst 4).mem = some (s, visited) ∧
      Rebuilt (headerFirst 4) (fun _ => 0) s visited := by
  refine (fixup_rebuilds_iff _ _ _).mpr fun p hp => ?_
  obtain rfl := List.mem_singleton.mp hp
  rintro c ⟨⟩
  rfl

/-- A page of class 5 that begins with the header of a chunked item of class 9 is put into the
list of class 9, and class 5 has no page. -/
theorem header_first_misfiled :
    ∃ s visited, restartFixup smallClasses smallBases (fun _ => 0) 16 (headerFirst 8).mem =
        some (s, visited) ∧ s.slabList 9 = [0] ∧ s.slabList 5 = [] ∧
      ¬Rebuilt (headerFirst 8) (fun _ => 0) s visited := by
  have hr : (restartFixup smallClasses smallBases (fun _ => 0) 16 (headerFirst 8).mem).any
      (fun r => decide (r.1.slabList 9 = [0] ∧ r.1.slabList 5 = [])) = true := by decide +kernel
  obtain ⟨⟨s, visited⟩, hfi, hl⟩ := (Option.any_eq_true _ _).mp hr
  obtain ⟨hn, hf⟩ := of_decide_eq_true hl
  refine ⟨s, visited, hfi, hn, hf, fun h => ?_⟩
  have hm : (0 : Fin 1024) ∈ s.slabList 5 := (h.pages 5 0).mpr ⟨0, _, rfl, rfl, rfl⟩
  rw [hf] at hm
  exact not_mem_nil hm

end Memcached.Restart
