import Memcached.Assoc.Iterate

/-!
# The item locks and the chains (`thread.c`, `assoc.c`)

Locks are picked by the low bits of a hash value, as buckets are, but by fewer of them: the
server does not start unless the hash table is larger than the lock table, and it only grows.
So a chain has one lock, also while its items are moved to the new table.

Results:
* `one_lock_per_chain`: the items of a chain have one lock, also during an expansion
-/

namespace Memcached.Assoc

variable {Addr Key : Type*} [DecidableEq Addr]

/-- The size of the lock table for a number of threads (lines 1138-1152). -/
def lockPower (nthreads : ℕ) : ℕ :=
  if nthreads < 3 then 10 else if nthreads < 4 then 11 else if nthreads < 5 then 12
  else if nthreads ≤ 10 then 13 else if nthreads ≤ 20 then 14 else 15

/-- `memcached_thread_init` (lines 1138-1162): `item_lock_hashpower`, if the server starts. -/
def memcachedThreadInit (nthreads hashpower : ℕ) : Option ℕ :=
  if lockPower nthreads ≥ hashpower then none else some (lockPower nthreads)

/-- Items with these hash values can be in one chain, of the new or of the old table. -/
def HashTable.SharesChain (st : HashTable Addr) (hv hv' : UInt32) : Prop :=
  hv.toNat &&& hashmask st.hashpower = hv'.toNat &&& hashmask st.hashpower ∨
    st.expanding = true ∧
      hv.toNat &&& hashmask (st.hashpower - 1) = hv'.toNat &&& hashmask (st.hashpower - 1)

/-- The chains that the migration of bucket `expand_bucket` writes. -/
def HashTable.Written (hash : Key → UInt32) (itemKey : Addr → Key) (st : HashTable Addr)
    (i : Table × ℕ) : Prop :=
  i = (.old, st.expandBucket) ∨ ∃ it n, st.At it ((.old, st.expandBucket), n) ∧
    i = (.primary, (hash (itemKey it)).toNat &&& hashmask st.hashpower)

variable {hash : Key → UInt32} {itemKey : Addr → Key} {st : HashTable Addr} {stored : Finset Addr}
  {i : Table × ℕ} {power : ℕ}

theorem memcachedThreadInit_lt {nthreads hashpower : ℕ}
    (h : memcachedThreadInit nthreads hashpower = some power) : power < hashpower ∧ power ≤ 15 := by
  unfold memcachedThreadInit at h
  split_ifs at h with hl
  cases h
  refine ⟨not_le.mp hl, ?_⟩
  unfold lockPower
  split_ifs <;> decide

theorem lockIndex_eq (h : power ≤ 15) (x : ℕ) : lockIndex power x = x % hashsize power := by
  rw [lockIndex, and_hashmask]
  exact Nat.mod_mod_of_dvd _ (Nat.pow_dvd_pow 2 (by omega))

theorem mod_hashsize {n : ℕ} (h : power ≤ n) (x : ℕ) :
    x % hashsize n % hashsize power = x % hashsize power :=
  Nat.mod_mod_of_dvd _ (Nat.pow_dvd_pow 2 h)

omit [DecidableEq Addr] in
/-- A bucket number tells the lock of every hash value that belongs there. -/
theorem bucketOf_mod (h : power < st.hashpower) (hv : UInt32) :
    (st.bucketOf hv).2 % hashsize power = hv.toNat % hashsize power := by
  simp only [HashTable.bucketOf, and_hashmask]
  split_ifs
  · exact mod_hashsize (by omega) _
  · exact mod_hashsize h.le _

theorem Inv.mod_of_at (h : Inv hash itemKey st stored) (hp : power < st.hashpower) {it : Addr}
    {n : ℕ} (ha : st.At it (i, n)) :
    i.2 % hashsize power = (hash (itemKey it)).toNat % hashsize power := by
  have hpl := h.placed.place_of_nthFrom ha.1 ha.2
  unfold HashTable.place at hpl
  split_ifs at hpl
  obtain rfl : _ = i := Option.some.inj hpl
  exact bucketOf_mod hp _

theorem Inv.mod_of_written (h : Inv hash itemKey st stored) (hp : power < st.hashpower)
    (hi : st.Written hash itemKey i) : i.2 % hashsize power = st.expandBucket % hashsize power := by
  obtain rfl | ⟨it, n, ha, rfl⟩ := hi
  · rfl
  · rw [and_hashmask, mod_hashsize hp.le, ← h.mod_of_at hp ha]

/-- **One lock per chain**, for every lock table that the server starts with, every later table
and every progress of its expansion. Two hash values that can share a chain have one lock;
the chains that a migration writes hold, before and after it, only items under the lock
that it takes; and a hash value under another lock has its bucket elsewhere and keeps it. -/
theorem one_lock_per_chain [Fintype Addr] [DecidableEq Key] (nthreads hashpower : ℕ)
    {s : State Addr Key} {m : Key → Option Addr}
    (hinit : memcachedThreadInit nthreads hashpower = some power) (hr : Reachable hash s m)
    (hlater : hashpower ≤ s.table.hashpower) :
    (∀ hv hv', s.table.SharesChain hv hv' →
      lockIndex power hv.toNat = lockIndex power hv'.toNat) ∧
    (s.table.expanding = true →
      let lock := lockIndex power s.table.expandBucket
      let after := assocMigrate hash s.itemKey s.table
      (∀ i, s.table.Written hash s.itemKey i → ∀ it n,
        s.table.At it (i, n) ∨ after.At it (i, n) →
          lockIndex power (hash (s.itemKey it)).toNat = lock) ∧
      ∀ hv : UInt32, lockIndex power hv.toNat ≠ lock →
        ¬s.table.Written hash s.itemKey (s.table.bucketOf hv) ∧
          after.bucketOf hv = s.table.bucketOf hv) := by
  obtain ⟨hlt, hl⟩ := memcachedThreadInit_lt hinit
  obtain ⟨stored, hin, -⟩ := reachable_exists_inv hr
  have hp : power < s.table.hashpower := by omega
  simp only [lockIndex_eq hl]
  refine ⟨?_, fun hexp => ⟨fun i hi it n ha => ?_, fun hv hn => ?_⟩⟩
  · rintro hv hv' (he | ⟨-, he⟩)
    · rw [and_hashmask, and_hashmask] at he
      rw [← mod_hashsize hp.le, he, mod_hashsize hp.le]
    · have hp' : power ≤ s.table.hashpower - 1 := by omega
      rw [and_hashmask, and_hashmask] at he
      rw [← mod_hashsize hp', he, mod_hashsize hp']
  · rw [← hin.mod_of_written hp hi]
    obtain ha | ha := ha
    · exact (hin.mod_of_at hp ha).symm
    · exact ((hin.assocMigrate hexp).mod_of_at hp ha).symm
  · have ho : ¬s.table.Written hash s.itemKey (s.table.bucketOf hv) := fun hw =>
      hn (by rw [← bucketOf_mod hp, hin.mod_of_written hp hw])
    refine ⟨ho, ?_⟩
    rw [bucketOf_assocMigrate hash s.itemKey hexp, if_neg fun he => ho (.inl he)]

/-- An item is in the table when it starts to grow. -/
theorem one_lock_per_chain_growing : ∃ s : State (Fin 2) (Fin 2),
    s.table.expanding = true ∧ lockIndex 12 0 = lockIndex 12 (65536 : UInt32).toNat ∧
      ∀ hv : UInt32, lockIndex 12 hv.toNat ≠ lockIndex 12 s.table.expandBucket →
        (assocMigrate (fun key => key.val.toUInt32) s.itemKey s.table).bucketOf hv =
          s.table.bucketOf hv := by
  have hi : Reachable (fun key : Fin 2 => key.val.toUInt32)
      (⟨assocInit 16, fun it => it⟩ : State (Fin 2) (Fin 2)) (fun _ => none) := .init 16 _
  have hr := (hi.insert 1 1 rfl fun _ => by simp).expand true rfl
  obtain ⟨hl, he⟩ := one_lock_per_chain 4 16 rfl hr (by decide)
  exact ⟨_, rfl, hl 0 65536 (.inr ⟨rfl, by decide⟩), fun hv h => ((he rfl).2 hv h).2⟩

end Memcached.Assoc
