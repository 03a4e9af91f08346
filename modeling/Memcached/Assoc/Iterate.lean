import Memcached.Assoc.Invariant
import Memcached.Lib.DList

/-!
# Walks over the hash table (`assoc.c`)

`assoc_iterate` hands out one item per call and keeps its bucket locked until the next call
finds the end of the chain. The next pointer is read before an item is handed out, so the
caller may unlink the item that it was given.

Results:
* `IterInv.iterate`: what one call hands out, and under which lock
* `iterate_exhaustive`: every item is handed out once if the table does not grow
-/

namespace Memcached.Assoc

open Lib

variable {Addr Key : Type*} [Fintype Addr] [DecidableEq Addr] [DecidableEq Key]

/-! ## The iterator -/

/-- `struct assoc_iterator` (lines 292-297). -/
structure Iterator (Addr : Type*) where
  bucket : ℕ := 0
  it : Option Addr := none
  next : Option Addr := none
  bucketLocked : Bool := false

/-- The table, the iterator, the buckets whose locks its thread holds, and the largest number of
locks that it has held at once. -/
structure IterState (Addr : Type*) where
  table : HashTable Addr
  iter : Iterator Addr := {}
  held : List ℕ := []
  peak : ℕ := 0

def IterState.itemLock (s : IterState Addr) (b : ℕ) : IterState Addr :=
  { s with held := b :: s.held, peak := max s.peak (s.held.length + 1) }

def IterState.itemUnlock (s : IterState Addr) (b : ℕ) : IterState Addr :=
  { s with held := s.held.erase b }

/-- The iterator moves on to item `a` (lines 316-318 and 338-339). -/
def IterState.handOut (s : IterState Addr) (a : Addr) : IterState Addr :=
  { s with iter := { s.iter with
    it := some a, next := s.table.tables.next a, bucketLocked := true } }

/-- The bucket has no more items (lines 321-324 and 342-344). -/
def IterState.leave (s : IterState Addr) : IterState Addr :=
  let s := s.itemUnlock s.iter.bucket
  { s with iter := { s.iter with bucket := s.iter.bucket + 1, bucketLocked := false } }

/-- With the lock held, the call hands out the item at `p` or leaves the bucket. -/
def IterState.follow (s : IterState Addr) : Option Addr → IterState Addr × Bool × Option Addr
  | some a => (s.handOut a, true, some a)
  | none => (s.leave, true, none)

/-- `assoc_iterate` (lines 310-351): the result, and the item that is handed out. -/
def assocIterate (s : IterState Addr) : IterState Addr × Bool × Option Addr :=
  if s.iter.bucketLocked then s.follow s.iter.next
  else if s.iter.bucket ≠ hashsize s.table.hashpower then
    (s.itemLock s.iter.bucket).follow (s.table.tables.head (.primary, s.iter.bucket))
  else (s, false, none)

/-- The caller unlinks the item that it was given, or keeps it. -/
def IterState.useItem (hash : Key → UInt32) (itemKey : Addr → Key) (unlink : Bool)
    (s : IterState Addr) (a : Addr) : IterState Addr :=
  if unlink then { s with table := assocDelete itemKey s.table (itemKey a) (hash (itemKey a)) }
  else s

/-- The calls until `false`, at most `fuel` of them: the items that were handed out with the
locks held at that time, the state, and whether the end was reached. What the caller does
after each call is up to `unlinks`. -/
def iterateAll (hash : Key → UInt32) (itemKey : Addr → Key) (unlinks : ℕ → Bool) :
    ℕ → IterState Addr → List (Addr × List ℕ) × IterState Addr × Bool
  | 0, s => ([], s, false)
  | fuel + 1, s =>
    let r := assocIterate s
    if r.2.1 then
      match r.2.2 with
      | none => iterateAll hash itemKey unlinks fuel r.1
      | some a =>
        let rest := iterateAll hash itemKey unlinks fuel
          (r.1.useItem hash itemKey (unlinks fuel) a)
        ((a, r.1.held) :: rest.1, rest.2)
    else ([], r.1, true)

/-- The index of the lock for a hash value or a bucket (`thread.c`, line 128). -/
def lockIndex (lockPower hv : ℕ) : ℕ := hv % 2 ^ 32 &&& hashmask lockPower

/-! ## One call -/

/-- The bucket of an item in a table of `2 ^ n` buckets. -/
def bucketIdx (hash : Key → UInt32) (itemKey : Addr → Key) (n : ℕ) (a : Addr) : ℕ :=
  (hash (itemKey a)).toNat % hashsize n

section Call

variable (hash : Key → UInt32) (itemKey : Addr → Key) (n : ℕ) (s : IterState Addr)
  (stored todo : Finset Addr)

/-- The walk over a table that has the items `stored` by now has `todo` before it. -/
structure Walk : Prop where
  inv : Inv hash itemKey s.table stored
  expanding : s.table.expanding = false
  power : s.table.hashpower = n
  peak : s.peak ≤ 1
  sub : todo ⊆ stored

/-- The iterator has locked its bucket, whose chain is `l1 ++ l2`, and `l2` is left of it. -/
structure Inside (l1 l2 : List Addr) : Prop where
  held : s.held = [s.iter.bucket]
  lt : s.iter.bucket < hashsize n
  linked : Linked s.table.tables.next (s.table.tables.head (.primary, s.iter.bucket)) (l1 ++ l2)
  left : ∀ a ∈ stored, a ∈ todo ↔ a ∈ l2 ∨ s.iter.bucket < bucketIdx hash itemKey n a

/-- The invariant of the walk, between two calls. -/
structure IterInv : Prop extends Walk hash itemKey n s stored todo where
  outside : s.iter.bucketLocked = false → s.held = [] ∧ s.iter.bucket ≤ hashsize n ∧
    ∀ a ∈ stored, a ∈ todo ↔ s.iter.bucket ≤ bucketIdx hash itemKey n a
  inside : s.iter.bucketLocked = true →
    ∃ l1 l2, Inside hash itemKey n s stored todo l1 l2 ∧ s.iter.next = l2.head?

/-- The number of calls that are left, without the last one. -/
def callsLeft : ℕ := todo.card + (hashsize n - s.iter.bucket)

/-- What a call may do when `k` calls are left: end the walk when nothing is left, leave a bucket,
or hand out an item that is left, under the lock of its bucket. -/
def CallSpec (k : ℕ) (r : IterState Addr × Bool × Option Addr) : Prop :=
  (r.2 = (false, none) ∧ todo = ∅ ∧ r.1.held = [] ∧ r.1.peak ≤ 1) ∨
  (r.2 = (true, none) ∧ IterInv hash itemKey n r.1 stored todo ∧ k = callsLeft n r.1 todo + 1) ∨
  ∃ a ∈ todo, r.2 = (true, some a) ∧ r.1.held = [bucketIdx hash itemKey n a] ∧
    ∀ unlink, ∃ stored',
      IterInv hash itemKey n (r.1.useItem hash itemKey unlink a) stored' (todo.erase a) ∧
      k = callsLeft n (r.1.useItem hash itemKey unlink a) (todo.erase a) + 1

end Call

variable {hash : Key → UInt32} {itemKey : Addr → Key} {s : IterState Addr} {n : ℕ}
  {stored todo : Finset Addr} {l1 l2 : List Addr} {a : Addr}

section

omit [Fintype Addr] [DecidableEq Key]

theorem Walk.chain (h : Walk hash itemKey n s stored todo) {b : ℕ} (hb : b < hashsize n) :
    ∃ l, Linked s.table.tables.next (s.table.tables.head (.primary, b)) l ∧
      ∀ a, a ∈ l ↔ a ∈ stored ∧ bucketIdx hash itemKey n a = b := by
  obtain ⟨l, hl, hm⟩ := h.inv.placed (.primary, b) (by rwa [← h.power] at hb)
  refine ⟨l, hl, fun a => (hm a).trans ?_⟩
  simp [HashTable.place, bucketOf_of_not_expanding h.expanding, bucketIdx, h.power]

theorem Inside.leave (h : Walk hash itemKey n s stored todo)
    (hi : Inside hash itemKey n s stored todo l1 []) :
    IterInv hash itemKey n s.leave stored todo ∧
      callsLeft n s todo = callsLeft n s.leave todo + 1 := by
  have hl := hi.lt
  refine ⟨{ h with outside := fun _ => ⟨?_, hl, fun a ha => ?_⟩, inside := fun h => by cases h },
    ?_⟩
  · simp [IterState.leave, IterState.itemUnlock, hi.held]
  · simpa [IterState.leave, IterState.itemUnlock, Nat.succ_le_iff] using hi.left a ha
  · simp only [callsLeft, IterState.leave, IterState.itemUnlock]
    omega

end

theorem Inside.handOut (h : Walk hash itemKey n s stored todo)
    (hi : Inside hash itemKey n s stored todo l1 (a :: l2)) :
    a ∈ todo ∧ s.held = [bucketIdx hash itemKey n a] ∧ ∀ unlink, ∃ stored',
      IterInv hash itemKey n ((s.handOut a).useItem hash itemKey unlink a) stored'
        (todo.erase a) ∧
      callsLeft n s todo =
        callsLeft n ((s.handOut a).useItem hash itemKey unlink a) (todo.erase a) + 1 := by
  obtain ⟨l, hl', hm⟩ := h.chain hi.lt
  obtain rfl := hi.linked.unique hl'
  obtain ⟨ha, hid⟩ := (hm a).mp (by simp)
  obtain ⟨-, hno, hap⟩ := List.nodup_append.mp hi.linked.nodup
  have hn := (linked_append_cons hi.linked).head?_eq.symm
  have ht : a ∈ todo := (hi.left a ha).mpr (.inl (.head _))
  have hle : ∀ x ∈ stored, x ∈ todo.erase a ↔
      x ∈ l2 ∨ s.iter.bucket < bucketIdx hash itemKey n x := by
    intro x hx
    rw [Finset.mem_erase, hi.left x hx]
    obtain rfl | hne := eq_or_ne x a
    · simp [(List.nodup_cons.mp hno).1, hid]
    · simp [hne]
  have hc := Finset.card_erase_add_one ht
  refine ⟨ht, hid ▸ hi.held, fun unlink => ?_⟩
  cases unlink with
  | false =>
    refine ⟨stored, { h with
      sub := (Finset.erase_subset _ _).trans h.sub
      outside := fun h => by cases h
      inside := fun _ => ⟨l1 ++ [a], l2, ⟨hi.held, hi.lt, ?_, hle⟩, hn⟩ }, ?_⟩
    · simpa [IterState.useItem, IterState.handOut] using hi.linked
    · simp only [callsLeft, IterState.useItem, IterState.handOut, Bool.false_eq_true, if_false]
      omega
  | true =>
    have hb : s.table.bucketOf (hash (itemKey a)) = (.primary, s.iter.bucket) := by
      rw [bucketOf_of_not_expanding h.expanding, ← hid, bucketIdx, h.power]
    -- no item before it in the chain has its key
    have hs : ∀ x ∈ l1, decide (itemKey x = itemKey a) = false := by
      intro x hx
      have hx' := ((hm x).mp (List.mem_append_left _ hx)).1
      simpa using fun hk => hap x hx a (.head _) (h.inv.keys x hx' a ha hk)
    have hl : Linked s.table.tables.next
        (s.table.tables.read (.head (Table.primary, s.iter.bucket))) (l1 ++ a :: l2) := hi.linked
    have hcu := (ChainMem.unlink_cellBefore hl (by simp) hs (by simp)
      hl.length_le_card).1
    refine ⟨stored.erase a, { h with
      inv := h.inv.assocDelete ha
      sub := Finset.erase_subset_erase a h.sub
      outside := fun h => by cases h
      inside := fun _ => ⟨l1, l2, ⟨hi.held, hi.lt, ?_,
        fun x hx => hle x (Finset.mem_of_mem_erase hx)⟩, hn⟩ }, ?_⟩
    · simpa [IterState.useItem, IterState.handOut, assocDelete, hashitemBefore, hb,
        ChainMem.read] using hcu
    · simp only [callsLeft, IterState.useItem, IterState.handOut, if_true]
      omega

theorem Inside.follow (h : Walk hash itemKey n s stored todo)
    (hi : Inside hash itemKey n s stored todo l1 l2) :
    CallSpec hash itemKey n stored todo (callsLeft n s todo) (s.follow l2.head?) := by
  cases l2 with
  | nil =>
    obtain ⟨hin, hl⟩ := hi.leave h
    exact .inr (.inl ⟨rfl, hin, hl⟩)
  | cons a l2 =>
    obtain ⟨ha, hh, hu⟩ := hi.handOut h
    exact .inr (.inr ⟨a, ha, rfl, hh, hu⟩)

/-- **One call.** -/
theorem IterInv.iterate (h : IterInv hash itemKey n s stored todo) :
    CallSpec hash itemKey n stored todo (callsLeft n s todo) (assocIterate s) := by
  unfold assocIterate
  rcases hlo : s.iter.bucketLocked with _ | _
  · obtain ⟨hh, hle, ht⟩ := h.outside hlo
    rw [h.power, if_neg (by simp)]
    by_cases he : s.iter.bucket = hashsize n
    · rw [if_neg (by simp [he])]
      refine .inl ⟨rfl, Finset.eq_empty_of_forall_notMem fun a ha => ?_, hh, h.peak⟩
      have hid : bucketIdx hash itemKey n a < hashsize n := Nat.mod_lt _ (hashsize_pos n)
      have := (ht a (h.sub ha)).mp ha
      omega
    rw [if_pos he]
    have hlt : s.iter.bucket < hashsize n := by omega
    obtain ⟨l, hl, hm⟩ := h.chain hlt
    have hw : Walk hash itemKey n (s.itemLock s.iter.bucket) stored todo :=
      { h.toWalk with peak := by simp [IterState.itemLock, hh, h.peak] }
    have hi : Inside hash itemKey n (s.itemLock s.iter.bucket) stored todo [] l := by
      refine ⟨by simp [IterState.itemLock, hh], hlt, hl, fun a ha => ?_⟩
      rw [ht a ha, hm, Nat.le_iff_lt_or_eq]
      simp only [IterState.itemLock, ha, true_and]
      tauto
    rw [← hl.head?_eq]
    exact hi.follow hw
  · obtain ⟨l1, l2, hi, hn⟩ := h.inside hlo
    rw [if_pos rfl, hn]
    exact hi.follow h.toWalk

/-! ## The walk -/

/-- What the calls have to do: every item of `todo` is handed out once, under its lock, and at
the end no lock is held. -/
structure Exhausts (hash : Key → UInt32) (itemKey : Addr → Key) (n : ℕ) (todo : Finset Addr)
    (r : List (Addr × List ℕ) × IterState Addr × Bool) : Prop where
  ended : r.2.2 = true
  once : (r.1.map Prod.fst).Nodup
  all : ∀ a, a ∈ r.1.map Prod.fst ↔ a ∈ todo
  locked : ∀ x ∈ r.1, x.2 = [bucketIdx hash itemKey n x.1]
  released : r.2.1.held = []
  peak : r.2.1.peak ≤ 1

theorem IterInv.iterateAll (unlinks : ℕ → Bool) {fuel : ℕ}
    (h : IterInv hash itemKey n s stored todo) (hf : callsLeft n s todo < fuel) :
    Exhausts hash itemKey n todo (iterateAll hash itemKey unlinks fuel s) := by
  induction fuel generalizing s stored todo with
  | zero => omega
  | succ fuel ih =>
    rw [Assoc.iterateAll]
    obtain ⟨hr, rfl, hh, hp⟩ | ⟨hr, hi, hl⟩ | ⟨a, ha, hr, hh, hu⟩ := h.iterate
    · rw [hr]
      exact ⟨rfl, List.nodup_nil, by simp, by simp, hh, hp⟩
    · rw [hr]
      exact ih hi (by omega)
    rw [hr]
    obtain ⟨stored', hi, hl⟩ := hu (unlinks fuel)
    have hre := ih hi (by omega)
    refine ⟨hre.ended, List.nodup_cons.mpr ⟨?_, hre.once⟩, fun x => ?_, fun x hx => ?_,
      hre.released, hre.peak⟩
    · simp [hre.all]
    · simp only [if_true, List.map_cons, List.mem_cons, hre.all, Finset.mem_erase]
      grind
    · obtain rfl | hx := List.mem_cons.mp hx
      · exact hh
      · exact hre.locked x hx

omit [Fintype Addr] [DecidableEq Addr] [DecidableEq Key] in
theorem lockIndex_bucketIdx {lockPower : ℕ} (hl : lockPower ≤ n) (a : Addr) :
    lockIndex lockPower (bucketIdx hash itemKey n a) =
      lockIndex lockPower (hash (itemKey a)).toNat := by
  have hlt : (hash (itemKey a)).toNat < 2 ^ 32 := (hash (itemKey a)).toNat_lt
  have hle := Nat.mod_le (hash (itemKey a)).toNat (hashsize n)
  simp only [lockIndex, bucketIdx, and_hashmask]
  rw [Nat.mod_eq_of_lt (by omega : _ % hashsize n < 2 ^ 32), Nat.mod_eq_of_lt hlt]
  exact Nat.mod_mod_of_dvd _ (Nat.pow_dvd_pow 2 hl)

/-- **Exhaustive iteration.** While the table does not grow, whatever its size and its items, and
whatever the caller unlinks: the calls come to an end, and have handed out every item once,
under its lock, with at most one lock at a time and none at the end. -/
theorem iterate_exhaustive {st : HashTable Addr} (h : Inv hash itemKey st stored)
    (hexp : st.expanding = false) {lockPower : ℕ} (hlock : lockPower ≤ st.hashpower)
    (unlinks : ℕ → Bool) {fuel : ℕ} (hfuel : stored.card + hashsize st.hashpower < fuel) :
    let r := iterateAll hash itemKey unlinks fuel { table := st }
    r.2.2 = true ∧ (r.1.map Prod.fst).Nodup ∧ (∀ a, a ∈ r.1.map Prod.fst ↔ a ∈ stored) ∧
      (∀ x ∈ r.1, x.2.map (lockIndex lockPower) =
        [lockIndex lockPower (hash (itemKey x.1)).toNat]) ∧
      r.2.1.peak ≤ 1 ∧ r.2.1.held = [] := by
  have hi : IterInv hash itemKey st.hashpower { table := st } stored stored :=
    { inv := h
      expanding := hexp
      power := rfl
      peak := Nat.zero_le 1
      sub := Finset.Subset.refl stored
      outside := fun _ => ⟨rfl, Nat.zero_le _, fun a ha => by simp [ha]⟩
      inside := fun h => by cases h }
  obtain ⟨he, ho, hal, hl, hr, hp⟩ := hi.iterateAll unlinks hfuel
  refine ⟨he, ho, hal, fun x hx => ?_, hp, hr⟩
  rw [hl x hx, List.map_singleton, lockIndex_bucketIdx hlock]

/-- Both items are handed out, and the first one is unlinked then. -/
theorem iterate_exhaustive_two :
    let r := iterateAll (fun key : Fin 2 => key.val.toUInt32) (fun it => it) (fun n => n = 19)
      20 { table := assocInsert (assocInsert (assocInit 3) 1 1) 0 0 }
    r.2.2 = true ∧ (r.1.map Prod.fst).Nodup ∧ (∀ a, a ∈ r.1.map Prod.fst) ∧
      r.2.1.peak ≤ 1 ∧ r.2.1.held = [] := by
  have hi := ((inv_assocInit (fun key : Fin 2 => key.val.toUInt32) (fun it : Fin 2 => it) 3
    ).assocInsert (Finset.notMem_empty 1) (by simp)).assocInsert
      (by decide : 0 ∉ (insert 1 ∅ : Finset (Fin 2)))
      (by decide : ∀ it ∈ (insert 1 ∅ : Finset (Fin 2)), it ≠ 0)
  obtain ⟨he, ho, ha, -, hp, hh⟩ := iterate_exhaustive hi rfl (Nat.zero_le 3) (fun n => n = 19)
    (by decide : _ < 20)
  exact ⟨he, ho, fun a => (ha a).mpr (by revert a; decide), hp, hh⟩

end Memcached.Assoc
