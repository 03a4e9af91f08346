import Mathlib.Data.Nat.Bitwise
import Memcached.Lib.Chain

/-!
# The hash table of `assoc.c`

The table is a power-of-two array of singly linked chains. While it grows there are two
arrays: the maintenance thread moves the buckets of `old_hashtable` in increasing order to
`primary_hashtable`, and `expand_bucket` says how far it is. Every access picks its array
by the same test, which the source writes out in four functions; here it is
`HashTable.bucketOf`. Item addresses are an arbitrary finite type.
-/

namespace Memcached.Assoc

open Lib

/-! ## State -/

-- The literals of `Fin 1` and `Fin 2`, the addresses of small tables, use these by name.
instance neZeroOne : NeZero 1 := ⟨by decide⟩
instance neZeroTwo : NeZero 2 := ⟨by decide⟩

/-- The two bucket arrays, `primary_hashtable` and `old_hashtable`. -/
inductive Table where
  | primary
  | old
deriving DecidableEq

def hashsize (n : ℕ) : ℕ := 2 ^ n

def hashmask (n : ℕ) : ℕ := hashsize n - 1

@[simp] theorem and_hashmask (x n : ℕ) : x &&& hashmask n = x % hashsize n :=
  Nat.and_two_pow_sub_one_eq_mod x n

theorem hashsize_pos (n : ℕ) : 0 < hashsize n := Nat.two_pow_pos n

/-- The globals of `assoc.c` (lines 32-53): `tables` holds the bucket heads of
both arrays and the `h_next` field of every item. -/
structure HashTable (Addr : Type*) where
  hashpower : ℕ
  tables : ChainMem (Table × ℕ) Addr
  expanding : Bool
  expandBucket : ℕ

variable {Addr Key : Type*}

/-- `assoc_init` (lines 55-68): an empty table of `2 ^ hashpower`
buckets. -/
def assocInit (hashpower : ℕ) : HashTable Addr where
  hashpower := hashpower
  tables := { head := fun _ => none, next := fun _ => none }
  expanding := false
  expandBucket := 0

/-- The bucket of a hash value: `old_hashtable[hv & hashmask(hashpower - 1)]`
while that bucket has not been migrated, else
`primary_hashtable[hv & hashmask(hashpower)]`. -/
def HashTable.bucketOf (st : HashTable Addr) (hv : UInt32) : Table × ℕ :=
  let oldbucket := hv.toNat &&& hashmask (st.hashpower - 1)
  if st.expanding ∧ st.expandBucket ≤ oldbucket then (.old, oldbucket)
  else (.primary, hv.toNat &&& hashmask st.hashpower)

/-! ## Operations -/

section Operations

variable [Fintype Addr] [DecidableEq Addr] [DecidableEq Key]

/-- `assoc_find` (lines 70-94); `itemKey` is `ITEM_key`. -/
def assocFind (itemKey : Addr → Key) (st : HashTable Addr) (key : Key) (hv : UInt32) :
    Option Addr :=
  findFrom st.tables.next (fun it => itemKey it = key) (Fintype.card Addr)
    (st.tables.head (st.bucketOf hv))

/-- `_hashitem_before` (lines 99-115): the cell that points at the
item of the key, or the last cell of the chain. -/
def hashitemBefore (itemKey : Addr → Key) (st : HashTable Addr) (key : Key) (hv : UInt32) :
    Cell (Table × ℕ) Addr :=
  st.tables.cellBefore (fun it => itemKey it = key) (Fintype.card Addr) (.head (st.bucketOf hv))

/-- `assoc_expand` (lines 118-138); `callocOk` says whether the new
array could be allocated. -/
def assocExpand (st : HashTable Addr) (callocOk : Bool) : HashTable Addr :=
  let old := fun b => st.tables.head (.primary, b)
  if callocOk then
    { hashpower := st.hashpower + 1
      tables := { st.tables with head := fun i => if i.1 = .old then old i.2 else none }
      expanding := true
      expandBucket := 0 }
  else { st with tables := { st.tables with head := fun i => old i.2 } }

/-- `assoc_insert` (lines 150-166). -/
def assocInsert (st : HashTable Addr) (it : Addr) (hv : UInt32) : HashTable Addr :=
  { st with tables := st.tables.push (st.bucketOf hv) it }

/-- `assoc_delete` (lines 168-185). -/
def assocDelete (itemKey : Addr → Key) (st : HashTable Addr) (key : Key) (hv : UInt32) :
    HashTable Addr :=
  { st with tables := st.tables.unlink (hashitemBefore itemKey st key hv) }

/-- One bucket of `assoc_maintenance_thread` (lines 209-229), with its
item lock taken: every item of `old_hashtable[expand_bucket]` is linked into
`primary_hashtable`, and after the last bucket the expansion is over. -/
def assocMigrate (hash : Key → UInt32) (itemKey : Addr → Key) (st : HashTable Addr) :
    HashTable Addr :=
  let bucket := fun it => (Table.primary, (hash (itemKey it)).toNat &&& hashmask st.hashpower)
  let tables := ChainMem.moveAll bucket (Fintype.card Addr)
    (st.tables.head (.old, st.expandBucket)) st.tables
  let expandBucket := st.expandBucket + 1
  { st with
    tables := tables.setHead (.old, st.expandBucket) none
    expandBucket := expandBucket
    expanding := st.expanding && expandBucket != hashsize (st.hashpower - 1) }

end Operations

end Memcached.Assoc
