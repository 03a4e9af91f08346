import Mathlib.Algebra.BigOperators.Group.Finset.Basic
import Mathlib.Tactic.Ring
import Memcached.Assoc.Model

/-!
# The histogram of the item sizes (`items.c`)

`stats_sizes_hist` counts the linked items by their size, in steps of 32 bytes, from the moment
it is enabled. What tells older items apart is the CAS value, which is compared with the one of
that moment both when an item comes and when it goes. `md` with flag `I` gives a linked item a
new CAS value, and a write-out to the external storage copies the old one to its header item.

Results:
* `defect_link`, `defect_unlink`, `defect_setCas`: what each part of a command does to the
  difference of the histogram and the true count
* `hist_below_zero`: an old item is marked stale and then deleted
* `sizes_hist_exact_iff`: the histogram is exact iff no item crosses that CAS value
-/

namespace Memcached.Items.SizesHist

open Function (update update_self update_of_ne)

/-! ## The histogram -/

/-- The fields of a linked item that matter: its CAS value and `ITEM_ntotal`. -/
structure Item where
  cas : ℕ
  ntotal : ℕ
deriving DecidableEq

/-- The linked items, `cas_id`, and the globals of the histogram. An entry is an unsigned number
of 32 bits; one below zero is a large one in the code. -/
structure State (Addr : Type*) where
  items : Addr → Option Item
  casId : ℕ
  hist : ℕ → ℤ
  casMin : ℕ
  buckets : ℕ

/-- The bucket of a size (lines 933-935). -/
def bucketOf (ntotal : ℕ) : ℕ := ntotal / 32 + if ntotal % 32 ≠ 0 then 1 else 0

variable {Addr : Type*}

/-- `item_stats_sizes_add` and `item_stats_sizes_remove` (lines 930-949), with 1 and
-1 for `d`. -/
def itemStatsSizes (d : ℤ) (it : Item) (s : State Addr) : State Addr :=
  let bucket := bucketOf it.ntotal
  { s with hist :=
      if s.casMin > it.cas then s.hist
      else if bucket < s.buckets then update s.hist bucket (s.hist bucket + d)
      else s.hist }

section Operations

variable [DecidableEq Addr]

/-- `ITEM_set_cas` on a linked item, with the counter at `casId` by then. -/
def setCas (s : State Addr) (a : Addr) (cas casId : ℕ) : State Addr :=
  let it := (s.items a).map fun it => { it with cas := cas }
  { s with items := update s.items a it, casId := casId }

def nextCas (s : State Addr) : ℕ := (s.casId + 1) % 2 ^ 64

/-- `do_item_link` (lines 499-519). -/
def doItemLink (s : State Addr) (a : Addr) (ntotal : ℕ) : State Addr :=
  let it : Item := ⟨nextCas s, ntotal⟩
  itemStatsSizes 1 it { s with items := update s.items a (some it), casId := nextCas s }

/-- `do_item_unlink` (lines 521-534). -/
def doItemUnlink (s : State Addr) (a : Addr) : State Addr :=
  match s.items a with
  | none => s
  | some it => itemStatsSizes (-1) it { s with items := update s.items a none }

/-- `do_item_replace` (lines 592-599). -/
def doItemReplace (s : State Addr) (a new : Addr) (ntotal : ℕ) : State Addr :=
  doItemLink (doItemUnlink s a) new ntotal

/-- The increment in place of the item `it` at `a` (`memcached.c`, lines 2483-2485). -/
def deltaInPlace (s : State Addr) (a : Addr) (it : Item) : State Addr :=
  itemStatsSizes 1 { it with cas := nextCas s }
    (setCas (itemStatsSizes (-1) it s) a (nextCas s) (nextCas s))

/-- The parts of the commands and of the threads: `unlink` is a deletion, an expiry or an
eviction, and `replace` a store, or an increment that makes a new item. -/
inductive Op (Addr : Type*) where
  | link (a : Addr) (ntotal : ℕ)
  | unlink (a : Addr)
  | replace (a new : Addr) (ntotal : ℕ)
  | deltaInPlace (a : Addr)
  | markStale (a : Addr)
  | writeOut (a hdr : Addr) (ntotal : ℕ)

/-- A step, if the items are linked, or new ones are not, as it needs them. `md` does not take the
item out of the histogram and back in (`proto_text.c`, line 1639), and a write-out copies the
CAS value of the item to the header item that it has linked (`storage.c`, lines 556-557). -/
def step (s : State Addr) : Op Addr → Option (State Addr)
  | .link a ntotal => if s.items a = none then some (doItemLink s a ntotal) else none
  | .unlink a => some (doItemUnlink s a)
  | .replace a new ntotal =>
    if s.items new = none then some (doItemReplace s a new ntotal) else none
  | .deltaInPlace a => (s.items a).map (deltaInPlace s a)
  | .markStale a => (s.items a).map fun _ => setCas s a (nextCas s) (nextCas s)
  | .writeOut a hdr ntotal =>
    if s.items hdr = none then
      (s.items a).map fun it => setCas (doItemReplace s a hdr ntotal) hdr it.cas (nextCas s)
    else none

/-! ## Exactness -/

/-- An item counts in bucket `b`. -/
def counts (casMin b : ℕ) : Option Item → ℤ
  | none => 0
  | some it => if casMin ≤ it.cas ∧ bucketOf it.ntotal = b then 1 else 0

variable [Fintype Addr]

/-- The number of the linked items of a bucket with a CAS value from `casMin` on. -/
def count (s : State Addr) (b : ℕ) : ℤ := ∑ a, counts s.casMin b (s.items a)

/-- Every entry of the histogram is the number of the items of its bucket. -/
def Exact (s : State Addr) : Prop := ∀ b < s.buckets, s.hist b = count s b

/-- The histogram is exact before and after every step of the run. -/
def ExactRun : State Addr → List (Op Addr) → Prop
  | s, [] => Exact s
  | s, op :: ops => Exact s ∧ ∀ t, step s op = some t → ExactRun t ops

/-- A change of the CAS value from `cas` to `cas'` moves an item of this size across the CAS value
of the beginning. -/
def Crosses (s : State Addr) (ntotal cas cas' : ℕ) : Prop :=
  bucketOf ntotal < s.buckets ∧ ¬(s.casMin ≤ cas ↔ s.casMin ≤ cas')

/-- A step that marks no item stale and writes none out which is older than the histogram. The
header item is linked with a new CAS value, and gets that of the item. -/
def Op.Keeps (s : State Addr) : Op Addr → Prop
  | .markStale a => ∀ it ∈ s.items a, ¬Crosses s it.ntotal it.cas (nextCas s)
  | .writeOut a _ ntotal => ∀ it ∈ s.items a, ¬Crosses s ntotal (nextCas s) it.cas
  | _ => True

/-- Every step of the run is such a step. -/
def KeepsRun : State Addr → List (Op Addr) → Prop
  | _, [] => True
  | s, op :: ops => ∀ t, step s op = some t → op.Keeps s ∧ KeepsRun t ops

/-- `item_stats_sizes_init` has just been called: it takes a new CAS value, and the items that
are linked have older ones. -/
structure Start (s : State Addr) : Prop where
  hist : s.hist = fun _ => 0
  old : ∀ a, ∀ it ∈ s.items a, it.cas < s.casMin

/-! ## The parts of the steps -/

/-- What is too much in an entry. -/
def defect (s : State Addr) (b : ℕ) : ℤ := s.hist b - count s b

variable {s t : State Addr} {a : Addr} {b : ℕ}

omit [DecidableEq Addr] in
theorem exact_iff : Exact s ↔ ∀ b < s.buckets, defect s b = 0 :=
  forall₂_congr fun _ _ => sub_eq_zero.symm

theorem defect_update (s : State Addr) (a : Addr) (v : Option Item) (casId b : ℕ) :
    defect { s with items := update s.items a v, casId := casId } b =
      defect s b + counts s.casMin b (s.items a) - counts s.casMin b v := by
  have hr : ∀ x ∈ Finset.univ.erase a, counts s.casMin b (update s.items a v x) =
      counts s.casMin b (s.items x) := fun x hx => by
    rw [update_of_ne (Finset.ne_of_mem_erase hx)]
  simp only [defect, count]
  rw [← Finset.add_sum_erase _ _ (Finset.mem_univ a), ← Finset.add_sum_erase _
    (fun x => counts s.casMin b (s.items x)) (Finset.mem_univ a), Finset.sum_congr rfl hr,
    update_self]
  ring

omit [DecidableEq Addr] in
theorem defect_itemStatsSizes (d : ℤ) (it : Item) (hb : b < s.buckets) :
    defect (itemStatsSizes d it s) b = defect s b + d * counts s.casMin b (some it) := by
  have hc : counts s.casMin b (some it) =
      if s.casMin ≤ it.cas ∧ bucketOf it.ntotal = b then 1 else 0 := rfl
  simp only [itemStatsSizes, hc, defect, count]
  by_cases hca : s.casMin > it.cas
  · simp [hca, Nat.not_le.mpr hca]
  rw [if_neg hca]
  by_cases he : bucketOf it.ntotal = b
  · rw [he, if_pos hb, if_pos ⟨by omega, rfl⟩, update_self]
    ring
  · simp only [he, and_false, if_false]
    split_ifs <;> simp [Ne.symm he]

section

omit [Fintype Addr]

theorem doItemUnlink_eq (s : State Addr) (a : Addr) : ∃ hist,
    doItemUnlink s a = { s with items := update s.items a none, hist := hist } := by
  unfold doItemUnlink
  rcases hit : s.items a with _ | it
  · have hs : update s.items a none = s.items := hit ▸ Function.update_eq_self a s.items
    exact ⟨s.hist, by rw [hs]⟩
  · exact ⟨_, rfl⟩

theorem doItemReplace_eq (s : State Addr) (a new : Addr) (ntotal : ℕ) :
    ∃ items hist, doItemReplace s a new ntotal = { s with
      items := update items new (some ⟨nextCas s, ntotal⟩)
      casId := nextCas s
      hist := hist } := by
  obtain ⟨hist, he⟩ := doItemUnlink_eq s a
  rw [doItemReplace, he]
  exact ⟨_, _, rfl⟩

end

theorem defect_link (hn : s.items a = none) (ntotal : ℕ) (hb : b < s.buckets) :
    defect (doItemLink s a ntotal) b = defect s b := by
  have h := defect_update s a (some ⟨nextCas s, ntotal⟩) (nextCas s) b
  rw [hn] at h
  rw [doItemLink, defect_itemStatsSizes 1 _ (by exact hb), h]
  simp [counts]

theorem defect_unlink (a : Addr) (hb : b < s.buckets) :
    defect (doItemUnlink s a) b = defect s b := by
  unfold doItemUnlink
  rcases hit : s.items a with _ | it
  · rfl
  have h := defect_update s a none s.casId b
  rw [hit] at h
  rw [defect_itemStatsSizes (-1) _ (by exact hb), h]
  simp only [counts]
  ring

theorem defect_replace {new : Addr} (hn : s.items new = none) (a : Addr) (ntotal : ℕ)
    (hb : b < s.buckets) : defect (doItemReplace s a new ntotal) b = defect s b := by
  obtain ⟨hist, he⟩ := doItemUnlink_eq s a
  have hn' : (doItemUnlink s a).items new = none := by
    rw [he]
    rcases eq_or_ne new a with rfl | hne
    · exact update_self ..
    · exact (update_of_ne hne _ _).trans hn
  rw [doItemReplace, defect_link hn' _ (by rw [he]; exact hb), defect_unlink a hb]

theorem defect_setCas {it : Item} (hit : s.items a = some it) (cas casId b : ℕ) :
    defect (setCas s a cas casId) b = defect s b +
      counts s.casMin b (some it) - counts s.casMin b (some { it with cas := cas }) := by
  have h := defect_update s a (some { it with cas := cas }) casId b
  rw [hit] at h
  simpa only [setCas, hit, Option.map_some] using h

omit [DecidableEq Addr] [Fintype Addr] in
theorem counts_eq_iff {ntotal cas cas' : ℕ} :
    (∀ b < s.buckets, counts s.casMin b (some ⟨cas, ntotal⟩) =
      counts s.casMin b (some ⟨cas', ntotal⟩)) ↔ ¬Crosses s ntotal cas cas' := by
  unfold Crosses
  constructor
  · rintro h ⟨hb, hc⟩
    have := h _ hb
    simp only [counts, and_true] at this
    by_cases h1 : s.casMin ≤ cas <;> by_cases h2 : s.casMin ≤ cas' <;> simp_all
  · intro h b hb
    by_cases he : bucketOf ntotal = b
    · have hi : s.casMin ≤ cas ↔ s.casMin ≤ cas' := not_not.mp fun hn => h ⟨he ▸ hb, hn⟩
      simp only [counts, hi]
    · simp [counts, he]

theorem defect_deltaInPlace {it : Item} (hit : s.items a = some it) (hb : b < s.buckets) :
    defect (deltaInPlace s a it) b = defect s b := by
  rw [deltaInPlace, defect_itemStatsSizes 1 _ (by exact hb), defect_setCas (by exact hit),
    defect_itemStatsSizes (-1) it hb]
  simp only [setCas, itemStatsSizes]
  ring

/-! ## Runs -/

/-- **One step.** -/
theorem exact_step_iff {op : Op Addr} (h : Exact s) (hs : step s op = some t) :
    Exact t ↔ op.Keeps s := by
  rw [exact_iff] at h ⊢
  -- a step that keeps the difference keeps the histogram exact
  have hsa : t.buckets = s.buckets → (∀ b < s.buckets, defect t b = defect s b) →
      ((∀ b < t.buckets, defect t b = 0) ↔ True) := fun hbu hd =>
    iff_true_intro fun b hb => (hd b (hbu ▸ hb)).trans (h b (hbu ▸ hb))
  cases op with
  | link a ntotal =>
    simp only [step] at hs
    split_ifs at hs with hn
    cases hs
    exact hsa rfl fun b hb => defect_link hn ntotal hb
  | unlink a =>
    cases hs
    obtain ⟨hist, he⟩ := doItemUnlink_eq s a
    exact hsa (by rw [he]) fun b hb => defect_unlink a hb
  | replace a new ntotal =>
    simp only [step] at hs
    split_ifs at hs with hn
    cases hs
    obtain ⟨items, hist, he⟩ := doItemReplace_eq s a new ntotal
    exact hsa (by rw [he]) fun b hb => defect_replace hn a ntotal hb
  | deltaInPlace a =>
    obtain ⟨it, hit, rfl⟩ := Option.map_eq_some_iff.mp hs
    exact hsa rfl fun b hb => defect_deltaInPlace hit hb
  | markStale a =>
    obtain ⟨it, hit, rfl⟩ := Option.map_eq_some_iff.mp hs
    simp only [Op.Keeps, hit, Option.mem_some_iff, forall_eq', ← counts_eq_iff]
    refine forall₂_congr fun b hb => ?_
    rw [defect_setCas hit, h b hb, zero_add, sub_eq_zero]
  | writeOut a hdr ntotal =>
    simp only [step] at hs
    split_ifs at hs with hn
    obtain ⟨it, hit, rfl⟩ := Option.map_eq_some_iff.mp hs
    have hr := fun b (hb : b < s.buckets) => defect_replace hn a ntotal hb
    obtain ⟨items, hist, he⟩ := doItemReplace_eq s a hdr ntotal
    rw [he] at hr ⊢
    simp only [Op.Keeps, hit, Option.mem_some_iff, forall_eq', ← counts_eq_iff]
    refine forall₂_congr fun b hb => ?_
    rw [defect_setCas (update_self ..), hr b hb, h b hb, zero_add, sub_eq_zero]

theorem exactRun_iff (h : Exact s) (ops : List (Op Addr)) : ExactRun s ops ↔ KeepsRun s ops := by
  induction ops generalizing s with
  | nil => exact iff_of_true h trivial
  | cons op ops ih =>
    refine (and_iff_right h).trans (forall₂_congr fun t hs => ?_)
    constructor
    · intro hr
      have ht : Exact t := by
        cases ops with
        | nil => exact hr
        | cons op ops => exact hr.1
      exact ⟨(exact_step_iff h hs).mp ht, (ih ht).mp hr⟩
    · rintro ⟨hk, hr⟩
      exact (ih ((exact_step_iff h hs).mpr hk)).mpr hr

omit [DecidableEq Addr] in
theorem Start.exact (h : Start s) : Exact s := by
  intro b _
  rw [h.hist]
  refine (Finset.sum_eq_zero fun a _ => ?_).symm
  rcases hit : s.items a with _ | it
  · rfl
  · exact if_neg fun hc => absurd (h.old a it hit) (Nat.not_lt.mpr hc.1)

/-- **Exact exactly without crossings.** In every run from the moment when the histogram was
enabled, it is exact at all times if and only if no linked item gets a CAS value on the other
side of `stats_sizes_cas_min`: by `md` with flag `I`, or by a write-out. -/
theorem sizes_hist_exact_iff (h : Start s) (ops : List (Op Addr)) :
    ExactRun s ops ↔ KeepsRun s ops :=
  exactRun_iff h.exact ops

end Operations

/-- One item that was linked, with CAS value 1, before the histogram was enabled. -/
def oldItem : State (Fin 1) := ⟨fun _ => some ⟨1, 60⟩, 2, fun _ => 0, 2, 32769⟩

theorem oldItem_start : Start oldItem := by
  refine ⟨rfl, fun a it hit => ?_⟩
  cases hit
  decide

/-- The item is incremented in place, and then its key is deleted. -/
theorem sizes_hist_exact_iff_delta : ExactRun oldItem [.deltaInPlace 0, .unlink 0] :=
  (sizes_hist_exact_iff oldItem_start _).mpr fun _ _ =>
    ⟨trivial, fun _ _ => ⟨trivial, trivial⟩⟩

theorem hist_below_zero :
    Start oldItem ∧ ∃ t u, step oldItem (.markStale 0) = some t ∧ t.hist 2 = 0 ∧ count t 2 = 1 ∧
      step t (.unlink 0) = some u ∧ u.hist 2 = -1 :=
  ⟨oldItem_start, _, _, rfl, rfl, by decide, rfl, by decide⟩

end Memcached.Items.SizesHist
