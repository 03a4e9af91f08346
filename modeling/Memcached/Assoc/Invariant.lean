import Memcached.Assoc.Model

/-!
# The hash table under any interleaving of its operations

`Inv` says that each item of a finite set `stored` is in the chain of its bucket, and in
no other, and that no other item is in the table. Every operation of `assoc.c` keeps it;
`bucketOf_assocMigrate` says how a migration moves buckets. `Reachable` closes the initial
table under all operations in any order, next to the map of the keys in it.

Results:
* `Inv.assocInsert`, `Inv.assocDelete`, `Inv.assocExpand`, `Inv.assocMigrate`: the
  operations change the stored set as they should
* `reachable_table_correct`: a look-up finds a key iff it was inserted and not deleted
* `expansion_completes`: an expansion ends, and no look-up notices it
-/

namespace Memcached.Assoc

open Lib
open Function (update update_of_ne)

variable {Addr Key : Type*}

/-! ## The invariant -/

/-- The buckets of the arrays in use: those of `primary_hashtable`, and those of
`old_hashtable` while the table is expanding. -/
def HashTable.Live (st : HashTable Addr) : Table × ℕ → Prop
  | (.primary, b) => b < hashsize st.hashpower
  | (.old, b) => st.expanding ∧ b < hashsize (st.hashpower - 1)

/-- Where the items of `stored` belong. -/
def HashTable.place [DecidableEq Addr] (st : HashTable Addr) (hash : Key → UInt32)
    (itemKey : Addr → Key) (stored : Finset Addr) (it : Addr) : Option (Table × ℕ) :=
  if it ∈ stored then some (st.bucketOf (hash (itemKey it))) else none

/-- The items in the table are exactly those of `stored`, in their own buckets. -/
structure Inv [DecidableEq Addr] (hash : Key → UInt32) (itemKey : Addr → Key)
    (st : HashTable Addr) (stored : Finset Addr) : Prop where
  keys : ∀ it ∈ stored, ∀ it' ∈ stored, itemKey it = itemKey it' → it = it'
  expand : st.expanding → 1 ≤ st.hashpower ∧ st.expandBucket < hashsize (st.hashpower - 1)
  placed : st.tables.Placed st.Live (st.place hash itemKey stored)

theorem bucketOf_live (st : HashTable Addr) (hv : UInt32) : st.Live (st.bucketOf hv) := by
  simp only [HashTable.bucketOf]
  split_ifs with h
  · exact ⟨h.1, by simpa using Nat.mod_lt _ (hashsize_pos _)⟩
  · simpa [HashTable.Live] using Nat.mod_lt _ (hashsize_pos _)

section

variable [DecidableEq Addr] {hash : Key → UInt32} {itemKey : Addr → Key} {st : HashTable Addr}
  {stored : Finset Addr}

theorem inv_assocInit (hash : Key → UInt32) (itemKey : Addr → Key) (hashpower : ℕ) :
    Inv hash itemKey (assocInit hashpower : HashTable Addr) ∅ where
  keys := by simp
  expand := by simp [assocInit]
  placed := fun _ _ => ⟨[], by simp [assocInit], by simp [HashTable.place]⟩

theorem Inv.congr_key {itemKey' : Addr → Key} (h : Inv hash itemKey st stored)
    (he : ∀ it ∈ stored, itemKey' it = itemKey it) : Inv hash itemKey' st stored where
  keys := by
    intro it hit it' hi' hk
    exact h.keys it hit it' hi' (by rw [← he it hit, ← he it' hi', hk])
  expand := h.expand
  placed := by
    refine h.placed.congr_place fun it i _ => ?_
    unfold HashTable.place
    split_ifs with hit
    · rw [he it hit]
    · rfl

/-! ## Look-up -/

theorem Inv.eq_of_key (h : Inv hash itemKey st stored) [DecidableEq Key] {it it' : Addr}
    (hit : it ∈ stored) {i : Table × ℕ} (hi' : st.place hash itemKey stored it' = some i)
    (hk : decide (itemKey it' = itemKey it) = true) : it' = it := by
  unfold HashTable.place at hi'
  split_ifs at hi' with hm
  exact h.keys it' hm it hit (of_decide_eq_true hk)

theorem Inv.assocFind_eq_some_iff [Fintype Addr] [DecidableEq Key]
    (h : Inv hash itemKey st stored) {key : Key} {it : Addr} :
    assocFind itemKey st key (hash key) = some it ↔ it ∈ stored ∧ itemKey it = key := by
  have hli := bucketOf_live st (hash key)
  unfold assocFind
  constructor
  · intro hf
    obtain ⟨l, hl, hm⟩ := h.placed _ hli
    rw [hl.findFrom_eq hl.length_le_card] at hf
    have hp := (hm it).mp (List.mem_of_find?_eq_some hf)
    have hte : itemKey it = key := by simpa using List.find?_some hf
    unfold HashTable.place at hp
    split_ifs at hp with hit
    exact ⟨hit, hte⟩
  · rintro ⟨hit, rfl⟩
    refine (h.placed.findFrom_eq_some_iff hli fun b hb ht => ?_).mpr ⟨?_, by simp⟩
    · exact h.eq_of_key hit hb ht
    · simp [HashTable.place, hit]

theorem Inv.assocFind_eq_none_iff [Fintype Addr] [DecidableEq Key]
    (h : Inv hash itemKey st stored) {key : Key} :
    assocFind itemKey st key (hash key) = none ↔ ∀ it ∈ stored, itemKey it ≠ key := by
  rw [Option.eq_none_iff_forall_ne_some]
  refine forall_congr' fun it => ?_
  rw [Ne, h.assocFind_eq_some_iff, not_and]

/-! ## Insertion and deletion -/

@[simp] theorem bucketOf_assocInsert (st : HashTable Addr) (it : Addr)
    (hv hv' : UInt32) : (assocInsert st it hv).bucketOf hv' = st.bucketOf hv' := rfl

@[simp] theorem bucketOf_assocDelete [Fintype Addr] [DecidableEq Key] (itemKey : Addr → Key)
    (st : HashTable Addr) (key : Key) (hv hv' : UInt32) :
    (assocDelete itemKey st key hv).bucketOf hv' = st.bucketOf hv' := rfl

theorem Inv.assocInsert (h : Inv hash itemKey st stored) {it : Addr} (hit : it ∉ stored)
    (hk : ∀ it' ∈ stored, itemKey it' ≠ itemKey it) :
    Inv hash itemKey (assocInsert st it (hash (itemKey it))) (insert it stored) where
  keys := by
    intro a ha b hb hab
    rw [Finset.mem_insert] at ha hb
    rcases ha with rfl | ha <;> rcases hb with rfl | hb
    · rfl
    · exact absurd hab.symm (hk b hb)
    · exact absurd hab (hk a ha)
    · exact h.keys a ha b hb hab
  expand := h.expand
  placed := by
    have hp := h.placed.push (i := st.bucketOf (hash (itemKey it))) (a := it)
      (by simp [HashTable.place, hit])
    refine hp.congr_place fun a i _ => ?_
    obtain rfl | ha := eq_or_ne a it
    · simp [HashTable.place]
    · simp [HashTable.place, ha]

theorem Inv.assocDelete [Fintype Addr] [DecidableEq Key] (h : Inv hash itemKey st stored)
    {it : Addr} (hit : it ∈ stored) :
    Inv hash itemKey (assocDelete itemKey st (itemKey it) (hash (itemKey it)))
      (stored.erase it) where
  keys := fun a ha b hb => h.keys a (Finset.mem_of_mem_erase ha) b (Finset.mem_of_mem_erase hb)
  expand := h.expand
  placed := by
    have hu := h.placed.unlink (fun a => itemKey a = itemKey it)
      (bucketOf_live st (hash (itemKey it))) (a := it) (by simp [HashTable.place, hit]) (by simp)
      (fun b hb ht => h.eq_of_key hit hb ht)
    refine hu.congr_place fun a i _ => ?_
    obtain rfl | ha := eq_or_ne a it
    · simp [HashTable.place]
    · simp [HashTable.place, ha]

/-! ## Expansion -/

section

omit [DecidableEq Addr]

theorem bucketOf_of_not_expanding (h : st.expanding = false) (hv : UInt32) :
    st.bucketOf hv = (.primary, hv.toNat % hashsize st.hashpower) := by
  simp [HashTable.bucketOf, h]

theorem bucketOf_assocExpand_true (st : HashTable Addr) (hv : UInt32) :
    (assocExpand st true).bucketOf hv = (.old, hv.toNat % hashsize st.hashpower) := by
  simp [HashTable.bucketOf, assocExpand]

end

theorem Inv.assocExpand (h : Inv hash itemKey st stored) (hexp : st.expanding = false)
    (callocOk : Bool) : Inv hash itemKey (assocExpand st callocOk) stored := by
  cases callocOk with
  | false =>
    refine ⟨h.keys, by simp [Assoc.assocExpand, hexp], ?_⟩
    rintro ⟨t, b⟩ hb
    cases t with
    | primary => exact h.placed (.primary, b) hb
    | old => exact absurd hb.1 (by simp [Assoc.assocExpand, hexp])
  | true =>
    refine ⟨h.keys, fun _ => ⟨by simp [Assoc.assocExpand], hashsize_pos _⟩, ?_⟩
    rintro ⟨t, b⟩ hb
    cases t with
    | primary =>
      refine ⟨[], by simp [Assoc.assocExpand], fun it => ?_⟩
      simp [HashTable.place, bucketOf_assocExpand_true]
    | old =>
      obtain ⟨l, hl, hm⟩ := h.placed (.primary, b) hb.2
      refine ⟨l, by simpa [Assoc.assocExpand] using hl, fun it => ?_⟩
      rw [hm it]
      simp [HashTable.place, bucketOf_assocExpand_true, bucketOf_of_not_expanding hexp]

/-! ## Migration -/

omit [DecidableEq Addr] in
/-- Migrating bucket `expand_bucket` moves exactly the hash values of that bucket,
also when it was the last one and the expansion ends. -/
theorem bucketOf_assocMigrate [Fintype Addr] [DecidableEq Addr] (hash : Key → UInt32)
    (itemKey : Addr → Key) (hexp : st.expanding = true) (hv : UInt32) :
    (assocMigrate hash itemKey st).bucketOf hv =
      if st.bucketOf hv = (.old, st.expandBucket) then
        (.primary, hv.toNat % hashsize st.hashpower)
      else st.bucketOf hv := by
  have hm : hv.toNat % hashsize (st.hashpower - 1) < hashsize (st.hashpower - 1) :=
    Nat.mod_lt _ (hashsize_pos _)
  simp only [HashTable.bucketOf, assocMigrate, hexp, and_hashmask, Bool.true_and, true_and,
    bne_iff_ne]
  generalize hv.toNat % hashsize (st.hashpower - 1) = oldbucket at hm ⊢
  obtain ho | rfl | ho := Nat.lt_trichotomy oldbucket st.expandBucket
  · simp [Nat.not_le.mpr ho, Nat.not_le.mpr (Nat.lt_succ_of_lt ho)]
  · simp
  -- a later bucket exists, so the expansion is not over
  have hn : st.expandBucket + 1 ≠ hashsize (st.hashpower - 1) := by omega
  simp [ho.le, Nat.succ_le_of_lt ho, hn, ho.ne']

theorem Inv.placed_assocMigrate [Fintype Addr] (h : Inv hash itemKey st stored)
    (hexp : st.expanding = true) :
    (assocMigrate hash itemKey st).tables.Placed st.Live
      ((assocMigrate hash itemKey st).place hash itemKey stored) := by
  have hli : st.Live (.old, st.expandBucket) := ⟨hexp, (h.expand hexp).2⟩
  obtain ⟨l, hl, -⟩ := h.placed _ hli
  have hm := ChainMem.Placed.moveAll
    (fun it => (Table.primary, (hash (itemKey it)).toNat &&& hashmask st.hashpower))
    hli (by simp) ((ChainMem.setHead_self st.tables _).symm ▸ h.placed) hl hl.length_le_card
  refine hm.congr_place fun it i _ => ?_
  by_cases hit : it ∈ stored
  · simp only [HashTable.place, hit, if_true, bucketOf_assocMigrate hash itemKey hexp,
      Option.some.injEq, and_hashmask]
    split_ifs <;> simp
  · simp [HashTable.place, hit]

theorem Inv.assocMigrate [Fintype Addr] (h : Inv hash itemKey st stored)
    (hexp : st.expanding = true) : Inv hash itemKey (assocMigrate hash itemKey st) stored := by
  obtain ⟨hp, hl⟩ := h.expand hexp
  refine ⟨h.keys, fun he' => ⟨hp, ?_⟩, (h.placed_assocMigrate hexp).mono ?_⟩
  · have hn : st.expandBucket + 1 ≠ hashsize (st.hashpower - 1) := by
      simpa [Assoc.assocMigrate, hexp] using he'
    exact lt_of_le_of_ne hl hn
  · rintro ⟨t, b⟩ hb
    cases t with
    | primary => exact hb
    | old => exact ⟨hexp, hb.2⟩

theorem Inv.old_head_assocMigrate [Fintype Addr] (h : Inv hash itemKey st stored)
    (hexp : st.expanding = true) (hd : (Assoc.assocMigrate hash itemKey st).expanding = false)
    {b : ℕ} (hb : b < hashsize (st.hashpower - 1)) :
    (Assoc.assocMigrate hash itemKey st).tables.head (.old, b) = none := by
  refine (h.placed_assocMigrate hexp).head_eq_none ⟨hexp, hb⟩ fun it => ?_
  unfold HashTable.place
  split_ifs <;> simp [bucketOf_of_not_expanding hd]

/-- After `k` more buckets of the maintenance thread. -/
theorem Inv.migrations [Fintype Addr] (h : Inv hash itemKey st stored)
    (hexp : st.expanding = true) {k : ℕ}
    (hk : st.expandBucket + k ≤ hashsize (st.hashpower - 1)) :
    let st' := (Assoc.assocMigrate hash itemKey)^[k] st
    Inv hash itemKey st' stored ∧ st'.hashpower = st.hashpower ∧
      st'.expandBucket = st.expandBucket + k ∧
      (st'.expanding = true ↔ st.expandBucket + k < hashsize (st.hashpower - 1)) := by
  induction k with
  | zero => exact ⟨h, rfl, rfl, iff_of_true hexp (h.expand hexp).2⟩
  | succ k ih =>
    obtain ⟨hi, hp, hb, he⟩ := ih (by omega)
    rw [Function.iterate_succ_apply']
    have he' := he.mpr (by omega)
    refine ⟨hi.assocMigrate he', hp, congrArg (· + 1) hb, ?_⟩
    simp only [Assoc.assocMigrate, he', hb, hp, Bool.true_and, bne_iff_ne]
    omega

end

/-! ## Reachable states -/

/-- The table together with the keys of all items in memory. -/
structure State (Addr Key : Type*) where
  table : HashTable Addr
  itemKey : Addr → Key

/-- Item `it` is at place `x.2` of the chain of bucket `x.1`. -/
def HashTable.At (st : HashTable Addr) (it : Addr) (x : (Table × ℕ) × ℕ) : Prop :=
  st.Live x.1 ∧ nthFrom st.tables.next (st.tables.head x.1) x.2 = some it

section

variable [DecidableEq Addr] {hash : Key → UInt32} {itemKey : Addr → Key} {st : HashTable Addr}
  {stored : Finset Addr} {it : Addr}

theorem Inv.exists_unique_at (h : Inv hash itemKey st stored) (hit : it ∈ stored) :
    ∃! x, st.At it x :=
  h.placed.exists_unique (bucketOf_live st (hash (itemKey it))) (by simp [HashTable.place, hit])

theorem Inv.mem_of_at (h : Inv hash itemKey st stored) {x : (Table × ℕ) × ℕ}
    (hx : st.At it x) : it ∈ stored := by
  have hp := h.placed.place_of_nthFrom hx.1 hx.2
  unfold HashTable.place at hp
  split_ifs at hp with hit
  exact hit

end

/-- The states of the table under any interleaving of its operations, each with
the map from the keys inserted and not since deleted to their items. An
insertion takes an item that is not in the table, writes its key and needs
that key to be absent; the maintenance thread expands only when no expansion
is running. -/
inductive Reachable [Fintype Addr] [DecidableEq Addr] [DecidableEq Key] (hash : Key → UInt32) :
    State Addr Key → (Key → Option Addr) → Prop where
  | init (hashpower : ℕ) (itemKey : Addr → Key) :
      Reachable hash ⟨assocInit hashpower, itemKey⟩ (fun _ => none)
  | insert {s m} (it : Addr) (key : Key) (hs : Reachable hash s m) (hkey : m key = none)
      (hit : ∀ key', m key' ≠ some it) :
      Reachable hash
        ⟨assocInsert s.table it (hash key), update s.itemKey it key⟩
        (update m key (some it))
  | delete {s m} (key : Key) (hs : Reachable hash s m) (hkey : m key ≠ none) :
      Reachable hash ⟨assocDelete s.itemKey s.table key (hash key), s.itemKey⟩
        (update m key none)
  | expand {s m} (callocOk : Bool) (hs : Reachable hash s m) (hexp : s.table.expanding = false) :
      Reachable hash ⟨assocExpand s.table callocOk, s.itemKey⟩ m
  | migrate {s m} (hs : Reachable hash s m) (hexp : s.table.expanding = true) :
      Reachable hash ⟨assocMigrate hash s.itemKey s.table, s.itemKey⟩ m

section

variable [Fintype Addr] [DecidableEq Addr] [DecidableEq Key] {hash : Key → UInt32}
  {s : State Addr Key} {m : Key → Option Addr}

theorem reachable_exists_inv (hr : Reachable hash s m) :
    ∃ stored, Inv hash s.itemKey s.table stored ∧
      ∀ key it, m key = some it ↔ it ∈ stored ∧ s.itemKey it = key := by
  induction hr with
  | init hashpower itemKey => exact ⟨∅, inv_assocInit hash itemKey hashpower, by simp⟩
  | insert it key hs hke hit ih =>
    rename_i s m
    obtain ⟨stored, hi, hm⟩ := ih
    have hno : it ∉ stored := fun hme => hit _ ((hm _ it).mpr ⟨hme, rfl⟩)
    have ho : ∀ a ∈ stored, update s.itemKey it key a = s.itemKey a := fun a ha =>
      update_of_ne (ne_of_mem_of_not_mem ha hno) _ _
    have hf : ∀ a ∈ stored, update s.itemKey it key a ≠
        update s.itemKey it key it := by
      intro a ha he
      rw [ho a ha, Function.update_self] at he
      simp [(hm key a).mpr ⟨ha, he⟩] at hke
    refine ⟨Insert.insert it stored, ?_, fun k a => ?_⟩
    · simpa using (hi.congr_key ho).assocInsert hno hf
    by_cases ha : a = it
    · subst ha
      obtain rfl | hk := eq_or_ne k key
      · simp
      · simp [hk, hk.symm, hit k]
    · obtain rfl | hk := eq_or_ne k key
      · have hn : ¬ (a ∈ stored ∧ s.itemKey a = k) := by simp [← hm, hke]
        simpa [ha, Ne.symm ha] using hn
      · simpa [ha, hk] using hm k a
  | delete key hs hke ih =>
    rename_i s m
    obtain ⟨stored, hi, hm⟩ := ih
    obtain ⟨it, hit⟩ := Option.ne_none_iff_exists'.mp hke
    obtain ⟨hme, rfl⟩ := (hm key it).mp hit
    refine ⟨stored.erase it, hi.assocDelete hme, fun k a => ?_⟩
    obtain rfl | hk := eq_or_ne k (s.itemKey it)
    · simpa using fun hne hm' he => hne (hi.keys a hm' it hme he)
    rw [update_of_ne hk, hm, Finset.mem_erase]
    constructor
    · rintro ⟨ha, rfl⟩
      exact ⟨⟨fun he => hk (by rw [he]), ha⟩, rfl⟩
    · rintro ⟨⟨-, ha⟩, rfl⟩
      exact ⟨ha, rfl⟩
  | expand callocOk hs hexp ih =>
    obtain ⟨stored, hi, hm⟩ := ih
    exact ⟨stored, hi.assocExpand hexp callocOk, hm⟩
  | migrate hs hexp ih =>
    obtain ⟨stored, hi, hm⟩ := ih
    exact ⟨stored, hi.assocMigrate hexp, hm⟩

/-- **The table under any interleaving.** A look-up returns the item of a key iff
the key was inserted and not since deleted; such an item is at exactly one
place of one chain of one array in use, and no chain leads to any other item;
the migration that completes an expansion leaves the old array empty and
exactly the stored items in the primary one. -/
theorem reachable_table_correct (hr : Reachable hash s m) :
    (∀ key it, assocFind s.itemKey s.table key (hash key) = some it ↔ m key = some it) ∧
    (∀ it, (∃ key, m key = some it) → ∃! x, s.table.At it x) ∧
    (∀ it x, s.table.At it x → ∃ key, m key = some it) ∧
    (s.table.expanding = true →
      (assocMigrate hash s.itemKey s.table).expanding = false →
      (∀ b, b < hashsize (s.table.hashpower - 1) →
        (assocMigrate hash s.itemKey s.table).tables.head (.old, b) = none) ∧
      ∀ it, (∃ b n, (assocMigrate hash s.itemKey s.table).At it ((.primary, b), n)) ↔
        ∃ key, m key = some it) := by
  obtain ⟨stored, hi, hm⟩ := reachable_exists_inv hr
  have hs : ∀ it, (∃ key, m key = some it) ↔ it ∈ stored := by simp [hm]
  refine ⟨fun key it => hi.assocFind_eq_some_iff.trans (hm key it).symm, fun it hit => ?_,
    fun it x hx => ?_, fun hexp hd => ⟨fun b hb => hi.old_head_assocMigrate hexp hd hb,
      fun it => ?_⟩⟩
  · exact hi.exists_unique_at ((hs it).mp hit)
  · exact (hs it).mpr (hi.mem_of_at hx)
  rw [hs]
  have hi' := hi.assocMigrate hexp
  constructor
  · rintro ⟨b, n, hx⟩
    exact hi'.mem_of_at hx
  intro hit
  obtain ⟨⟨⟨t, b⟩, n⟩, hx, -⟩ := hi'.exists_unique_at hit
  cases t with
  | primary => exact ⟨b, n, hx⟩
  | old => exact absurd hx.1.1 (by simp [hd])

/-- **A whole expansion.** From any state in the middle of one, the maintenance thread is done
after the buckets that are left and not before, and every look-up on the way answers as
before. -/
theorem expansion_completes (hr : Reachable hash s m) (hexp : s.table.expanding = true) :
    let left := hashsize (s.table.hashpower - 1) - s.table.expandBucket
    ∀ k ≤ left, let st := (assocMigrate hash s.itemKey)^[k] s.table
      (st.expanding = true ↔ k < left) ∧
        ∀ key, assocFind s.itemKey st key (hash key) = m key := by
  obtain ⟨stored, hi, hm⟩ := reachable_exists_inv hr
  have hl := (hi.expand hexp).2
  intro left k hk
  obtain ⟨hi', -, -, he⟩ := hi.migrations hexp (k := k) (by omega)
  refine ⟨he.trans (by omega), fun key => Option.ext fun it => ?_⟩
  exact hi'.assocFind_eq_some_iff.trans (hm key it).symm

end

/-- Items 0 and 1 with the keys 0 and 1, in a table of one bucket that is being
expanded. -/
def twoItems : State (Fin 2) (Fin 2) where
  table := assocExpand (assocInsert (assocInsert (assocInit 0) 0 0) 1 1) true
  itemKey := update (update (fun _ => 0) 0 0) 1 1

theorem reachable_twoItems :
    Reachable (fun key : Fin 2 => key.val.toUInt32) twoItems
      (update (update (fun _ => none) 0 (some 0)) 1 (some 1)) :=
  Reachable.expand true
    ((Reachable.init 0 fun _ => 0).insert 0 0 rfl (by simp) |>.insert 1 1 rfl (by decide)) rfl

theorem reachable_table_correct_twoItems :
    assocFind twoItems.itemKey twoItems.table 1 1 = some 1 ∧
      (assocMigrate (fun key : Fin 2 => key.val.toUInt32) twoItems.itemKey
        twoItems.table).tables.head (.old, 0) = none := by
  obtain ⟨hf, -, -, hd⟩ := reachable_table_correct reachable_twoItems
  exact ⟨(hf 1 1).mpr rfl, (hd rfl rfl).1 0 (by decide)⟩

theorem expansion_completes_twoItems :
    let st := assocMigrate (fun key : Fin 2 => key.val.toUInt32) twoItems.itemKey twoItems.table
    st.expanding ≠ true ∧ assocFind twoItems.itemKey st 1 1 = some 1 := by
  obtain ⟨he, hf⟩ := expansion_completes reachable_twoItems rfl 1 le_rfl
  exact ⟨fun h => absurd (he.mp h) (by decide), hf 1⟩

end Memcached.Assoc
