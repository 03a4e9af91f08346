import Memcached.Items.HeldRefs
import Memcached.Text.Answers

/-!
# The limit on references to an item (`memcached.c`, `proto_bin.c`)

A response holds a reference to its item until it is sent. `limited_get` refuses an item
with more than 60000 references; it looks at the count after it has taken its own, and
without the lock of the item. The lookups of the binary protocol have no such limit.

The model is a number of workers on one store. A worker that fetches an item is between its
lookup and the decision what becomes of the reference.

Results:
* `refcount_stays_exact`: below the limit a reference count never wraps
* `item_freed_by_binary_gets`: binary gets, which have no limit, make one wrap
-/

namespace Memcached.Text

open Lib Items Util Assoc

variable {Addr : Type*} [DecidableEq Addr] [Fintype Addr]

/-! ## Workers -/

/-- `item_get` or, with a new expiry time, `item_touch` (`thread.c`, lines 927-956). -/
def itemLookup (S : Settings) (s : Store Addr) (key : Bytes) (touch : Option ℕ)
    (doUpdate room : Bool) : Store Addr × Option Addr :=
  match touch with
  | some exptime => doItemTouch S s key exptime room
  | none => doItemGet S s key doUpdate room

/-- The store, and the items that workers have looked up in a command that is not over. Other
references are those of responses and of uploads. -/
structure Workers (Addr : Type*) where
  store : Store Addr
  fetching : List Addr

inductive WorkerOp (Addr : Type*) where
  | fetch (key : Bytes) (touch : Option ℕ) (doUpdate room : Bool)
  /-- The count is not above the limit: the response holds the item. -/
  | keep (a : Addr)
  /-- `item_remove`: the count is above the limit, or the command does not respond with the
      item. -/
  | drop (a : Addr)
  /-- The lookup of `process_bin_get_or_touch` (`proto_bin.c`, lines 475-482 and 557-567). -/
  | binGetOrTouch (key : Bytes) (touch : Option ℕ) (room : Bool)
  /-- `resp_finish`, or the end of an upload. -/
  | release (a : Addr)
  | other (op : Op Addr)

def workerStep (S : Settings) (n : ℕ) (w : Workers Addr) :
    WorkerOp Addr → Option (Workers Addr × Unit)
  | .fetch key touch doUpdate room =>
    if w.fetching.length < n then
      let (s, it) := itemLookup S w.store key touch doUpdate room
      some ({ store := s, fetching := it.toList ++ w.fetching }, ())
    else none
  | .keep a =>
    if a ∈ w.fetching ∧ (w.store.items a).refcount ≤ itRefcountLimit then
      some ({ w with fetching := w.fetching.erase a }, ())
    else none
  | .drop a =>
    if a ∈ w.fetching then
      some ({ store := releaseRef w.store a, fetching := w.fetching.erase a }, ())
    else none
  | .binGetOrTouch key touch room =>
    some ({ w with store := (itemLookup S w.store key touch true room).1 }, ())
  | .release a =>
    if w.fetching.count a < w.store.refs a then
      some ({ w with store := releaseRef w.store a }, ())
    else none
  | .other op =>
    if op.Neutral then (step S w.store op).map fun r => ({ w with store := r.1 }, ()) else none

def workers (Addr : Type*) [DecidableEq Addr] [Fintype Addr] (S : Settings) (n : ℕ) :
    System (Workers Addr) (WorkerOp Addr) Unit where
  init := fun w => Init w.store ∧ w.fetching = []
  step := workerStep S n

/-! ## The condition -/

/-- The lookups of the binary protocol find no item above the limit. -/
def BinaryLimited (S : Settings) (w : Workers Addr) : WorkerOp Addr → Prop
  | .binGetOrTouch key touch room =>
    ∀ a, (itemLookup S w.store key touch true room).2 = some a →
      ((itemLookup S w.store key touch true room).1.items a).refcount ≤ itRefcountLimit
  | _ => True

/-- The condition on steps: the lookups of the binary protocol respect the limit, and the
bump buffers, which the LRU maintainer empties, do not fill up with one item. -/
def FetchOk (S : Settings) (n : ℕ) (w : Workers Addr) (op : WorkerOp Addr) : Prop :=
  BinaryLimited S w op ∧
    ∀ r ∈ workerStep S n w op, ∀ a, r.1.store.bumps.count a ≤ 4000

instance (S : Settings) (w : Workers Addr) (op : WorkerOp Addr) :
    Decidable (BinaryLimited S w op) := by
  delta BinaryLimited
  split <;> infer_instance

instance (S : Settings) (n : ℕ) (w : Workers Addr) (op : WorkerOp Addr) :
    Decidable (FetchOk S n w op) :=
  inferInstanceAs (Decidable (_ ∧ _))

/-! ## The bound -/

variable {S : Settings} {n : ℕ} {w w' : Workers Addr} {s : Store Addr} {a : Addr}

/-- Responses and uploads hold at most as many references as the limit allows. -/
structure FetchInv (S : Settings) (n : ℕ) (w : Workers Addr) : Prop where
  inv : Inv S w.store
  workers : w.fetching.length ≤ n
  held : ∀ a, w.fetching.count a ≤ w.store.refs a
  limit : ∀ a, w.store.refs a ≤ itRefcountLimit + w.fetching.count a
  bumps : ∀ a, w.store.bumps.count a ≤ 4000

theorem FetchInv.holders_le (h : FetchInv S n w) (hn : n ≤ 1000) (a : Addr) :
    w.store.holders a ≤ 65001 := by
  have hl := h.limit a
  have hb := h.bumps a
  have hc : w.fetching.count a ≤ 1000 := List.count_le_length.trans (h.workers.trans hn)
  unfold Store.holders
  unfold itRefcountLimit at hl
  split_ifs <;> omega

theorem FetchInv.low (h : FetchInv S n w) (hn : n ≤ 1000) : CountsLow w.store := by
  intro b
  have hl := h.holders_le hn b
  rw [h.inv.refcount]
  omega

theorem itemLookup_refs (h : Inv S s) (hl : CountsLow s) (key : Bytes) (touch : Option ℕ)
    (doUpdate room : Bool) :
    Inv S (itemLookup S s key touch doUpdate room).1 ∧
      ∀ b, (itemLookup S s key touch doUpdate room).1.refs b =
        s.refs b + (itemLookup S s key touch doUpdate room).2.toList.count b := by
  have hg : ∀ doUpdate, ∀ b, (doItemGet S s key doUpdate room).1.refs b =
      s.refs b + (doItemGet S s key doUpdate room).2.toList.count b := by
    intro doUpdate b
    obtain hm | ⟨a, hh⟩ := missing_or_hit s key
    · obtain ⟨s1, hg, -, hr, -⟩ := doItemGet_of_missing h hl hm doUpdate room
      rw [hg, hr]
      rfl
    · obtain ⟨s1, hg, -, hr, -⟩ := doItemGet_of_hit h hl hh doUpdate room
      rw [hg, hr, Option.toList_some, List.count_singleton]
      simp only [beq_iff_eq, eq_comm (a := b)]
  cases touch with
  | none =>
    have hs : step S s (.get key doUpdate room) =
        some ((doItemGet S s key doUpdate room).1, .item (doItemGet S s key doUpdate room).2) := rfl
    exact ⟨step_inv h hl hs, hg doUpdate⟩
  | some exptime =>
    have hs : step S s (.touch key exptime room) =
        some ((doItemTouch S s key exptime room).1, .item (doItemTouch S s key exptime room).2) :=
      rfl
    refine ⟨step_inv h hl hs, fun b => ?_⟩
    have hb := hg true b
    revert hb
    simp only [itemLookup, doItemTouch]
    obtain ⟨s1, _ | a⟩ := doItemGet S s key true room
    · exact id
    · exact id

theorem FetchInv.fetch (h : FetchInv S n w) (hn : n ≤ 1000) (hle : w.fetching.length < n)
    (key : Bytes) (touch : Option ℕ) (doUpdate room : Bool)
    (hb : ∀ a, (itemLookup S w.store key touch doUpdate room).1.bumps.count a ≤ 4000) :
    FetchInv S n
      { store := (itemLookup S w.store key touch doUpdate room).1
        fetching := (itemLookup S w.store key touch doUpdate room).2.toList ++ w.fetching } := by
  obtain ⟨hi, hr⟩ := itemLookup_refs h.inv (h.low hn) key touch doUpdate room
  refine ⟨hi, ?_, fun a => ?_, fun a => ?_, hb⟩
  · have ho : (itemLookup S w.store key touch doUpdate room).2.toList.length ≤ 1 := by
      cases (itemLookup S w.store key touch doUpdate room).2 <;> simp
    rw [List.length_append]
    omega
  · have hh := h.held a
    rw [List.count_append, hr]
    omega
  · have hl := h.limit a
    rw [List.count_append, hr]
    omega

omit [Fintype Addr] in
theorem count_erase_of_mem (b : Addr) {l : List Addr} (ha : a ∈ l) :
    (l.erase a).count b + (if b = a then 1 else 0) = l.count b := by
  by_cases hb : b = a
  · have hp : 0 < l.count a := List.count_pos_iff.mpr ha
    rw [hb, List.count_erase_self, if_pos rfl]
    omega
  · rw [List.count_erase_of_ne hb, if_neg hb, Nat.add_zero]

section

variable (h : FetchInv S n w)
include h

theorem FetchInv.keep (hle : (w.store.items a).refcount ≤ itRefcountLimit) :
    FetchInv S n { w with fetching := w.fetching.erase a } := by
  refine ⟨h.inv, List.length_erase_le.trans h.workers, fun b => ?_, fun b => ?_, h.bumps⟩
  · exact (List.erase_sublist.count_le b).trans (h.held b)
  show w.store.refs b ≤ itRefcountLimit + (w.fetching.erase a).count b
  have hl := h.limit b
  by_cases hb : b = a
  · rw [h.inv.refcount, Store.holders, ← hb] at hle
    omega
  · rwa [List.count_erase_of_ne hb]

theorem FetchInv.drop (ha : a ∈ w.fetching) :
    FetchInv S n { store := releaseRef w.store a, fetching := w.fetching.erase a } := by
  have hp : 0 < w.store.refs a := (List.count_pos_iff.mpr ha).trans_le (h.held a)
  refine ⟨h.inv.releaseRef hp, List.length_erase_le.trans h.workers, fun b => ?_, fun b => ?_,
    fun b => ?_⟩
  · have hh := h.held b
    have hc := count_erase_of_mem b ha
    show (w.fetching.erase a).count b ≤ (releaseRef w.store a).refs b
    rw [refs_releaseRef]
    omega
  · have hl := h.limit b
    have hc := count_erase_of_mem b ha
    show (releaseRef w.store a).refs b ≤ itRefcountLimit + (w.fetching.erase a).count b
    rw [refs_releaseRef]
    omega
  · exact (congrArg (List.count b) bumps_doItemRemove).le.trans (h.bumps b)

theorem FetchInv.release (ha : w.fetching.count a < w.store.refs a) :
    FetchInv S n { w with store := releaseRef w.store a } := by
  refine ⟨h.inv.releaseRef (Nat.zero_lt_of_lt ha), h.workers, fun b => ?_, fun b => ?_, fun b => ?_⟩
  · have hh := h.held b
    show w.fetching.count b ≤ (releaseRef w.store a).refs b
    rw [refs_releaseRef]
    split_ifs with hb
    · rw [hb]
      omega
    · omega
  · have hl := h.limit b
    show (releaseRef w.store a).refs b ≤ itRefcountLimit + w.fetching.count b
    rw [refs_releaseRef]
    omega
  · exact (congrArg (List.count b) bumps_doItemRemove).le.trans (h.bumps b)

theorem FetchInv.binGetOrTouch (hn : n ≤ 1000) (key : Bytes) (touch : Option ℕ) (room : Bool)
    (hle : ∀ a, (itemLookup S w.store key touch true room).2 = some a →
      ((itemLookup S w.store key touch true room).1.items a).refcount ≤ itRefcountLimit)
    (hbu : ∀ a, (itemLookup S w.store key touch true room).1.bumps.count a ≤ 4000) :
    FetchInv S n { w with store := (itemLookup S w.store key touch true room).1 } := by
  obtain ⟨hi, hr⟩ := itemLookup_refs h.inv (h.low hn) key touch true room
  refine ⟨hi, h.workers, fun b => ?_, fun b => ?_, hbu⟩
  · exact (h.held b).trans ((hr b).symm ▸ Nat.le_add_right _ _)
  have hl := h.limit b
  show (itemLookup S w.store key touch true room).1.refs b ≤ itRefcountLimit + w.fetching.count b
  by_cases hb : (itemLookup S w.store key touch true room).2 = some b
  · have hc := hle b hb
    rw [hi.refcount, Store.holders] at hc
    omega
  · have hz : (itemLookup S w.store key touch true room).2.toList.count b = 0 :=
      List.count_eq_zero.mpr fun hm => hb (Option.mem_toList.mp hm)
    rw [hr, hz]
    exact hl

theorem FetchInv.other (hn : n ≤ 1000) {op : Op Addr} {r : Reply Addr}
    (hop : op.Neutral) (hs : step S w.store op = some (s, r))
    (hb : ∀ a, s.bumps.count a ≤ 4000) : FetchInv S n { w with store := s } := by
  have hr := step_refs h.inv (h.low hn) hop hs
  refine ⟨step_inv h.inv (h.low hn) hs, h.workers, fun b => ?_, fun b => ?_, hb⟩
  · have hh := h.held b
    obtain he | ⟨hz, -⟩ := hr b
    · exact he ▸ hh
    · exact (hh.trans hz.le).trans (Nat.zero_le _)
  have hl := h.limit b
  obtain he | ⟨-, ho⟩ := hr b
  · exact he ▸ hl
  rw [ho]
  unfold itRefcountLimit
  omega

theorem workerStep_inv (hn : n ≤ 1000) {op : WorkerOp Addr}
    (ho : FetchOk S n w op) (hs : workerStep S n w op = some (w', ())) : FetchInv S n w' := by
  have hb := ho.2 _ hs
  cases op with
  | fetch key touch doUpdate room =>
    obtain ⟨hl, rfl, -⟩ := System.guarded_eq_some hs
    exact h.fetch hn hl key touch doUpdate room hb
  | keep a =>
    obtain ⟨⟨-, hle⟩, rfl, -⟩ := System.guarded_eq_some hs
    exact h.keep hle
  | drop a =>
    obtain ⟨ha, rfl, -⟩ := System.guarded_eq_some hs
    exact h.drop ha
  | binGetOrTouch key touch room =>
    cases hs
    exact h.binGetOrTouch hn key touch room ho.1 hb
  | release a =>
    obtain ⟨ha, rfl, -⟩ := System.guarded_eq_some hs
    exact h.release ha
  | other op =>
    simp only [workerStep, Option.ite_none_right_eq_some, Option.map_eq_some_iff,
      Prod.mk.injEq, and_true] at hs
    obtain ⟨hop, ⟨s, r⟩, hst, rfl⟩ := hs
    exact h.other hn hop hst hb

end

theorem fetchInv_of_init (h : (workers Addr S n).init w) : FetchInv S n w := by
  obtain ⟨hi, hn⟩ := h
  have hin : Inv S w.store := inv_of_init hi
  have hf : ∀ a, w.store.refs a = 0 ∧ w.store.bumps.count a = 0 := fun a =>
    (hin.of_slabbed (by simp [Store.Slabbed, (hi.items a).1])).2
  refine ⟨hin, by simp [hn], fun a => by simp [hn], fun a => ?_, fun a => ?_⟩
  · rw [(hf a).1]
    exact Nat.zero_le _
  · rw [(hf a).2]
    exact Nat.zero_le _

/-- **The limit.** In every run of at most 1000 workers in which the lookups of the binary
protocol respect the limit as well and the bump buffers do not fill up with one item, the
count of every item is the number of its holders, it never exceeds 65535, and no item is
freed that is linked or has a holder. -/
theorem refcount_stays_exact (hn : n ≤ 1000) (hr : (workers Addr S n).Reachable (FetchOk S n) w) :
    (∀ a, (w.store.items a).refcount = w.store.holders a ∧ w.store.holders a ≤ 65535) ∧
      ∀ f ∈ w.store.freed, f.linked = false ∧ f.holders = 0 := by
  have h : FetchInv S n w := hr.induct (fun _ => fetchInv_of_init)
    fun h ho hs => workerStep_inv h hn ho hs
  refine ⟨fun a => ⟨h.inv.refcount a, (h.holders_le hn a).trans (by omega)⟩, fun f hf => ?_⟩
  obtain ⟨hl, -, hh⟩ := h.inv.freed f hf
  exact ⟨hl, hh⟩

/-- A value is stored, fetched by two clients and sent to one of them. -/
def fetchTrace : List (WorkerOp (Fin 1)) :=
  [.other (.alloc (ascii "k") 0 0 3 (slabAt 0)), .other (.fill 0 (ascii "a\r\n") 0),
   .other (.store 0 .set false (slabAt 0) {}), .release 0, .fetch (ascii "k") none true true,
   .keep 0, .binGetOrTouch (ascii "k") (some 100) true, .fetch (ascii "k") none true true,
   .drop 0, .release 0]

theorem refcount_stays_exact_fetchTrace :
    ∃ w : Workers (Fin 1), ((∀ a, (w.store.items a).refcount = w.store.holders a ∧
        w.store.holders a ≤ 65535) ∧
      ∀ f ∈ w.store.freed, f.linked = false ∧ f.holders = 0) ∧ w.store.refs 0 = 1 := by
  have hi : (workers (Fin 1) smallSettings 4).Reachable (FetchOk smallSettings 4)
      ⟨emptyStore 1, []⟩ := .of_init ⟨emptyStore_init 1, rfl⟩
  obtain ⟨w, he, hr⟩ := hi.exists_of_exec fetchTrace
    (p := fun w => w.store.refs 0 = 1) (by decide +kernel)
  exact ⟨w, refcount_stays_exact (by decide) he, hr⟩

/-! ## A count that wraps -/

theorem steps_binGets {key : Bytes} (hse : S.lruSegmented = true)
    (ha : (s.items a).flags.active = true) (hc : (s.items a).refcount < 2 ^ 16)
    (hf : assocFind s.key s.assoc key (S.hash key) = some a) (hli : ¬s.Dead a) (m : ℕ) :
    (∃ l, (workers Addr S n).Steps (fun _ _ => True) ⟨s, []⟩ l ⟨withRefs s a m, []⟩) ∧
      assocFind (withRefs s a m).key (withRefs s a m).assoc key (S.hash key) = some a ∧
      ¬(withRefs s a m).Dead a := by
  induction m with
  | zero =>
    rw [withRefs_zero hc]
    exact ⟨⟨[], .refl⟩, hf, hli⟩
  | succ m ih =>
    obtain ⟨⟨l, hl⟩, hf, hli⟩ := ih
    have hfl : ((takeRef (withRefs s a m) a).items a).flags.active = true := by
      rw [takeRef_withRefs, items_withRefs, if_pos rfl]
      exact ha
    have hg : (itemLookup S (withRefs s a m) key none true true).1 =
        takeRef (withRefs s a m) a := by
      simp only [itemLookup, doItemGet_of_live true true hf hli, if_true, doItemBump, hse,
        hfl]
    have hs : (workers Addr S n).step ⟨withRefs s a m, []⟩ (.binGetOrTouch key none true) =
        some (⟨takeRef (withRefs s a m) a, []⟩, ()) := by
      simp only [workers, workerStep, hg]
    rw [← takeRef_withRefs]
    refine ⟨⟨_, hl.tail trivial hs⟩, ?_, dead_takeRef.not.mpr hli⟩
    rw [key_takeRef]
    exact hf

def fetchedTrace : List (WorkerOp (Fin 1)) :=
  [.other (.alloc (ascii "k") 0 0 3 (slabAt 0)), .other (.fill 0 (ascii "a\r\n") 0),
   .other (.store 0 .set false (slabAt 0) {}), .release 0,
   .binGetOrTouch (ascii "k") none true, .release 0, .binGetOrTouch (ascii "k") none true,
   .release 0]

/-- One worker handles 65536 pipelined gets of the binary protocol for one key. The item has
65537 holders and its count is 1, and the first response that is sent frees the item: it is
linked, and 65535 responses still refer to it. -/
theorem item_freed_by_binary_gets :
    ∃ w w', (workers (Fin 1) smallSettings 1).Reachable (fun _ _ => True) w ∧
      w.store.holders 0 = 65537 ∧ (w.store.items 0).refcount = 1 ∧
      (workers (Fin 1) smallSettings 1).step w (.release 0) = some (w', ()) ∧
      ∃ f ∈ w'.store.freed, f.linked = true ∧ f.holders = 65535 := by
  have hi : (workers (Fin 1) smallSettings 1).Reachable (fun _ _ => True)
      ⟨emptyStore 1, []⟩ := .of_init ⟨emptyStore_init 1, rfl⟩
  obtain ⟨s, he, hc, ha, hli, hfi, hh, ho, hf⟩ : ∃ s,
      (workers (Fin 1) smallSettings 1).exec (fun _ _ => True) ⟨emptyStore 1, []⟩ fetchedTrace =
        some ⟨s, []⟩ ∧
      (s.items 0).refcount = 1 ∧ (s.items 0).flags.active = true ∧ ¬s.Dead 0 ∧
      assocFind s.key s.assoc (ascii "k") 0 = some 0 ∧ (withRefs s 0 65536).holders 0 = 65537 ∧
      ((withRefs s 0 65536).items 0).refcount = 1 ∧ (wrapped s 0).freed = [⟨true, false, 65535⟩] :=
    ⟨_, rfl, rfl, rfl, by unfold Store.Dead; decide, rfl, rfl, rfl, rfl⟩
  obtain ⟨⟨l, hl⟩, -, -⟩ := steps_binGets (S := smallSettings) (n := 1) rfl ha
    (by rw [hc]; decide) hfi hli 65536
  have hp : 0 < (withRefs s 0 65536).refs 0 := by simp [withRefs]
  have hs : (workers (Fin 1) smallSettings 1).step ⟨withRefs s 0 65536, []⟩ (.release 0) =
      some (⟨wrapped s 0, []⟩, ()) := by
    simp only [workers, workerStep, List.count_nil]
    exact if_pos hp
  refine ⟨⟨withRefs s 0 65536, []⟩, ⟨wrapped s 0, []⟩, (hi.of_exec _ he).steps hl, hh,
    ho, hs, ⟨true, false, 65535⟩, ?_, rfl, rfl⟩
  show _ ∈ (wrapped s 0).freed
  rw [hf]
  exact List.mem_singleton_self _

end Memcached.Text
