import Mathlib.Data.Fintype.Card

/-!
# Singly linked chains in a pointer memory

A memory `ChainMem ι α` has one head pointer for each index `i : ι` and one `next` pointer
in each node `a : α`. `ChainMem.Placed` says that the walks end and share no tail, and
which nodes each chain holds.

Results:
* `Linked.nodup`: a walk that ends meets no node twice
* `Placed.push`, `Placed.unlink`, `Placed.moveAll`: the operations keep the invariant
* `Placed.exists_unique`: a node is at one place of one chain
-/

namespace Lib

open Function (update update_self update_of_ne)

variable {α ι : Type*}

/-! ## Walks -/

/-- Following `next` from the pointer `p` visits exactly the nodes of the list,
in its order, and ends in the null pointer. -/
def Linked (next : α → Option α) : Option α → List α → Prop
  | p, [] => p = none
  | p, a :: l => p = some a ∧ Linked next (next a) l

@[simp] theorem linked_nil {next : α → Option α} {p : Option α} :
    Linked next p [] ↔ p = none := Iff.rfl

namespace Linked

variable {next next' : α → Option α} {p : Option α} {l l' : List α}

theorem unique (h : Linked next p l) (h' : Linked next p l') : l = l' := by
  induction l generalizing p l' with
  | nil =>
    cases l' with
    | nil => rfl
    | cons b l' => exact absurd (h.symm.trans h'.1) (by simp)
  | cons a l ih =>
    cases l' with
    | nil => exact absurd (h'.symm.trans h.1) (by simp)
    | cons b l' =>
      obtain rfl : a = b := Option.some.inj (h.1.symm.trans h'.1)
      rw [ih h.2 h'.2]

theorem drop (h : Linked next p (l ++ l')) : ∃ q, Linked next q l' := by
  induction l generalizing p with
  | nil => exact ⟨p, h⟩
  | cons a l ih => exact ih h.2

/-- A walk that ends visits no node twice: the walk from the second visit would
be both the rest of the list and a proper part of that rest. -/
theorem nodup (h : Linked next p l) : l.Nodup := by
  induction l generalizing p with
  | nil => exact List.nodup_nil
  | cons a l ih =>
    refine List.nodup_cons.mpr ⟨fun ha => ?_, ih h.2⟩
    obtain ⟨l1, l2, rfl⟩ := List.append_of_mem ha
    obtain ⟨q, hq⟩ := drop h.2
    have hs : l2 = l1 ++ a :: l2 := unique hq.2 h.2
    have hl := congrArg List.length hs
    simp only [List.length_append, List.length_cons] at hl
    omega

theorem congr (h : Linked next p l) (he : ∀ a ∈ l, next' a = next a) : Linked next' p l := by
  induction l generalizing p with
  | nil => exact h
  | cons a l ih =>
    refine ⟨h.1, ?_⟩
    rw [he a List.mem_cons_self]
    exact ih h.2 fun b hb => he b (.tail _ hb)

theorem length_le_card [Fintype α] (h : Linked next p l) : l.length ≤ Fintype.card α :=
  h.nodup.length_le_card

end Linked

/-- `while (it) { if (matches it) return it; it = it->next; }`, with at most
`fuel` tests. -/
def findFrom (next : α → Option α) (test : α → Bool) : ℕ → Option α → Option α
  | 0, _ => none
  | _ + 1, none => none
  | fuel + 1, some a => if test a then some a else findFrom next test fuel (next a)

theorem Linked.findFrom_eq {next : α → Option α} {test : α → Bool} {p : Option α} {l : List α}
    {fuel : ℕ} (h : Linked next p l) (hf : l.length ≤ fuel) :
    findFrom next test fuel p = l.find? test := by
  induction l generalizing p fuel with
  | nil => cases h; cases fuel <;> rfl
  | cons a l ih =>
    obtain ⟨rfl, hl⟩ := h
    cases fuel with
    | zero => simp at hf
    | succ fuel =>
      have hr := ih hl (Nat.le_of_succ_le_succ hf)
      cases ht : test a <;> simp [findFrom, ht, hr]

/-- The node that a walk of `n` steps from `p` ends at. -/
def nthFrom (next : α → Option α) (p : Option α) : ℕ → Option α
  | 0 => p
  | n + 1 => (nthFrom next p n).bind next

theorem nthFrom_succ (next : α → Option α) (p : Option α) (n : ℕ) :
    nthFrom next p (n + 1) = nthFrom next (p.bind next) n := by
  induction n with
  | zero => rfl
  | succ n ih => rw [nthFrom, ih, nthFrom]

theorem Linked.nthFrom_eq {next : α → Option α} {p : Option α} {l : List α}
    (h : Linked next p l) (n : ℕ) : nthFrom next p n = l[n]? := by
  induction n generalizing p l with
  | zero => cases l with
    | nil => exact h
    | cons a l => exact h.1
  | succ n ih =>
    rw [nthFrom_succ]
    cases l with
    | nil => rw [linked_nil.mp h]; exact ih (linked_nil.mpr rfl)
    | cons a l => rw [h.1]; simpa using ih h.2

/-! ## Memories of chains -/

/-- The pointers of a family of chains: the head of each chain and the `next`
field of each node. -/
structure ChainMem (ι α : Type*) where
  head : ι → Option α
  next : α → Option α

/-- A cell that holds a pointer to a node: a head, or a node's `next` field. -/
inductive Cell (ι α : Type*) where
  | head (i : ι)
  | next (a : α)
deriving DecidableEq

namespace ChainMem

section Operations

def read (m : ChainMem ι α) : Cell ι α → Option α
  | .head i => m.head i
  | .next a => m.next a

def setHead [DecidableEq ι] (m : ChainMem ι α) (i : ι) (p : Option α) : ChainMem ι α :=
  { m with head := Function.update m.head i p }

def setNext [DecidableEq α] (m : ChainMem ι α) (a : α) (p : Option α) : ChainMem ι α :=
  { m with next := Function.update m.next a p }

@[simp] theorem setHead_head [DecidableEq ι] (m : ChainMem ι α) (i : ι) (p : Option α) :
    (m.setHead i p).head = update m.head i p := rfl

@[simp] theorem setHead_next [DecidableEq ι] (m : ChainMem ι α) (i : ι) (p : Option α) :
    (m.setHead i p).next = m.next := rfl

@[simp] theorem setNext_head [DecidableEq α] (m : ChainMem ι α) (a : α) (p : Option α) :
    (m.setNext a p).head = m.head := rfl

@[simp] theorem setNext_next [DecidableEq α] (m : ChainMem ι α) (a : α) (p : Option α) :
    (m.setNext a p).next = update m.next a p := rfl

@[simp] theorem setHead_self [DecidableEq ι] (m : ChainMem ι α) (i : ι) :
    m.setHead i (m.head i) = m := by
  simp [setHead]

variable [DecidableEq ι] [DecidableEq α]

def write (m : ChainMem ι α) (p : Option α) : Cell ι α → ChainMem ι α
  | .head i => m.setHead i p
  | .next a => m.setNext a p

def push (m : ChainMem ι α) (i : ι) (a : α) : ChainMem ι α :=
  (m.setNext a (m.head i)).setHead i (some a)

/-- The cell that points at the first node of a chain that passes the test, or
the last cell of the chain when none does. -/
def cellBefore (m : ChainMem ι α) (test : α → Bool) : ℕ → Cell ι α → Cell ι α
  | 0, pos => pos
  | fuel + 1, pos =>
    match m.read pos with
    | none => pos
    | some a => if test a then pos else cellBefore m test fuel (.next a)

/-- Unlinks the node that `pos` points at and clears its `next` field. -/
def unlink (m : ChainMem ι α) (pos : Cell ι α) : ChainMem ι α :=
  match m.read pos with
  | none => m
  | some a => (m.setNext a none).write (m.next a) pos

/-- Walks the chain from `p` and links each node in front of the chain that
`target` gives for it; the next node is read before the link is made. -/
def moveAll (target : α → ι) : ℕ → Option α → ChainMem ι α → ChainMem ι α
  | 0, _, m => m
  | _ + 1, none, m => m
  | fuel + 1, some a, m => moveAll target fuel (m.next a) (m.push (target a) a)

@[simp] theorem push_head (m : ChainMem ι α) (i : ι) (a : α) :
    (m.push i a).head = update m.head i (some a) := rfl

@[simp] theorem push_next (m : ChainMem ι α) (i : ι) (a : α) :
    (m.push i a).next = update m.next a (m.head i) := rfl

theorem unlink_of_read {m : ChainMem ι α} {pos : Cell ι α} {a : α} (h : m.read pos = some a) :
    m.unlink pos = (m.setNext a none).write (m.next a) pos := by
  simp [unlink, h]

end Operations

/-! ## Which nodes a chain holds -/

/-- Every live chain ends, and holds exactly the nodes that `place` puts there. -/
def Placed (live : ι → Prop) (m : ChainMem ι α) (place : α → Option ι) : Prop :=
  ∀ i, live i → ∃ l, Linked m.next (m.head i) l ∧ ∀ a, a ∈ l ↔ place a = some i

namespace Placed

variable {live : ι → Prop} {m : ChainMem ι α} {place : α → Option ι}

variable {i : ι} {a : α}

theorem findFrom_eq_some_iff [Fintype α] (h : m.Placed live place) (hi : live i)
    {test : α → Bool} (hu : ∀ b, place b = some i → test b = true → b = a) :
    findFrom m.next test (Fintype.card α) (m.head i) = some a ↔
      place a = some i ∧ test a = true := by
  obtain ⟨l, hl, hm⟩ := h i hi
  rw [hl.findFrom_eq hl.length_le_card, ← hm]
  constructor
  · intro hf
    exact ⟨List.mem_of_find?_eq_some hf, List.find?_some hf⟩
  · rintro ⟨ha, ht⟩
    obtain ⟨b, hb⟩ := Option.isSome_iff_exists.mp (List.find?_isSome.mpr ⟨a, ha, ht⟩)
    rw [hb, hu b ((hm b).mp (List.mem_of_find?_eq_some hb)) (List.find?_some hb)]

section

variable (h : m.Placed live place)
include h

theorem place_of_nthFrom {n : ℕ} (hi : live i)
    (hn : nthFrom m.next (m.head i) n = some a) : place a = some i := by
  obtain ⟨l, hl, hm⟩ := h i hi
  rw [hl.nthFrom_eq] at hn
  exact (hm a).mp (List.mem_of_getElem? hn)

theorem exists_unique (hi : live i) (ha : place a = some i) :
    ∃! x : ι × ℕ, live x.1 ∧ nthFrom m.next (m.head x.1) x.2 = some a := by
  obtain ⟨l, hl, hm⟩ := h i hi
  obtain ⟨n, hn⟩ := List.mem_iff_getElem?.mp ((hm a).mpr ha)
  refine ⟨(i, n), ⟨hi, (hl.nthFrom_eq n).trans hn⟩, ?_⟩
  rintro ⟨j, k⟩ ⟨hj, hk⟩
  obtain rfl : i = j := Option.some.inj (ha.symm.trans (h.place_of_nthFrom hj hk))
  have hk : l[k]? = some a := (hl.nthFrom_eq k).symm.trans hk
  obtain ⟨hkl, -⟩ := List.getElem?_eq_some_iff.mp hk
  rw [(List.getElem?_inj hkl hl.nodup).mp (hk.trans hn.symm)]

theorem head_eq_none (hi : live i) (he : ∀ a, place a ≠ some i) : m.head i = none := by
  obtain ⟨l, hl, hm⟩ := h i hi
  have hn : l = [] := List.eq_nil_iff_forall_not_mem.mpr fun a ha => he a ((hm a).mp ha)
  rwa [hn] at hl

end

theorem mono {live' : ι → Prop} (h : m.Placed live place) (hl : ∀ i, live' i → live i) :
    m.Placed live' place := fun i hi => h i (hl i hi)

theorem congr_place {place' : α → Option ι} (h : m.Placed live place)
    (he : ∀ a i, live i → (place' a = some i ↔ place a = some i)) : m.Placed live place' := by
  intro i hi
  obtain ⟨l, hl, hm⟩ := h i hi
  exact ⟨l, hl, fun a => (hm a).trans (he a i hi).symm⟩

variable [DecidableEq ι] [DecidableEq α]

theorem popHead (h : m.Placed live place) (hh : m.head i = some a) (ha : place a = some i) :
    Placed live (m.setHead i (m.next a)) (update place a none) := by
  intro j hj
  obtain ⟨l, hl, hm⟩ := h j hj
  by_cases hji : j = i
  · subst hji
    cases l with
    | nil => rw [linked_nil, hh] at hl; cases hl
    | cons b l =>
      have hn := hl.nodup
      obtain ⟨hb, hr⟩ := hl
      obtain rfl : b = a := Option.some.inj (hb.symm.trans hh)
      refine ⟨l, by simpa using hr, fun c => ?_⟩
      have hc := hm c
      obtain rfl | hcb := eq_or_ne c b
      · simpa using (List.nodup_cons.mp hn).1
      · simpa [hcb] using hc
  · refine ⟨l, by simpa [hji] using hl, fun c => ?_⟩
    obtain rfl | hca := eq_or_ne c a
    · rw [hm c, ha]
      simpa using fun he : i = j => hji he.symm
    · simpa [hca] using hm c

theorem push (h : m.Placed live place) (ha : place a = none) :
    Placed live (m.push i a) (update place a (some i)) := by
  intro j hj
  obtain ⟨l, hl, hm⟩ := h j hj
  have hal : a ∉ l := by simp [hm, ha]
  have hl' : Linked (m.push i a).next (m.head j) l :=
    hl.congr fun b hb => update_of_ne (ne_of_mem_of_not_mem hb hal) _ _
  obtain rfl | hji := eq_or_ne j i
  · refine ⟨a :: l, ⟨by simp, by simpa using hl'⟩, fun c => ?_⟩
    obtain rfl | hc := eq_or_ne c a
    · simp
    · simpa [hc] using hm c
  · refine ⟨l, by simpa [hji] using hl', fun c => ?_⟩
    obtain rfl | hc := eq_or_ne c a
    · simpa [hal] using Ne.symm hji
    · simpa [hc] using hm c

end Placed

section Unlink

variable [DecidableEq ι] [DecidableEq α] {m : ChainMem ι α} {test : α → Bool}

/-- Unlinking through the cell found from `pos`: the chain loses exactly the
first node that passes, and no pointer outside the chain changes. -/
theorem unlink_cellBefore {l1 l2 : List α} {a : α} {pos : Cell ι α} {fuel : ℕ}
    (hl : Linked m.next (m.read pos) (l1 ++ a :: l2)) (hp : ∀ b ∈ l1 ++ a :: l2, pos ≠ .next b)
    (hs : ∀ b ∈ l1, test b = false) (ha : test a = true)
    (hf : (l1 ++ a :: l2).length ≤ fuel) :
    let m' := m.unlink (m.cellBefore test fuel pos)
    Linked m'.next (m'.read pos) (l1 ++ l2) ∧
      (∀ i, pos ≠ .head i → m'.head i = m.head i) ∧
      (∀ b, b ∉ l1 ++ a :: l2 → pos ≠ .next b → m'.next b = m.next b) := by
  induction l1 generalizing pos fuel with
  | nil =>
    obtain ⟨fuel, rfl⟩ : ∃ k, fuel = k + 1 := ⟨fuel - 1, by simp at hf; omega⟩
    have hn := hl.nodup
    simp only [List.nil_append] at hl hn hp
    obtain ⟨hre, hr⟩ := hl
    have ha2 : a ∉ l2 := (List.nodup_cons.mp hn).1
    have hce : m.cellBefore test (fuel + 1) pos = pos := by simp [cellBefore, hre, ha]
    rw [hce, unlink_of_read hre]
    cases pos with
    | head i =>
      refine ⟨?_, ?_, ?_⟩
      · have hcle : Linked (update m.next a none) (m.next a) l2 :=
          hr.congr fun b hb => update_of_ne (ne_of_mem_of_not_mem hb ha2) _ _
        simpa [write, read] using hcle
      · intro j hj
        have hji : j ≠ i := fun he => hj (by rw [he])
        simp [write, hji]
      · intro b hb _
        have hba : b ≠ a := fun he => hb (by simp [he])
        simp [write, hba]
    | next c =>
      have hc2 : c ∉ l2 := fun hc => hp c (.tail _ hc) rfl
      refine ⟨?_, ?_, ?_⟩
      · have hcle : Linked (update (update m.next a none) c (m.next a))
            (m.next a) l2 := by
          refine hr.congr fun b hb => ?_
          rw [update_of_ne (ne_of_mem_of_not_mem hb hc2),
            update_of_ne (ne_of_mem_of_not_mem hb ha2)]
        simpa [write, read] using hcle
      · intro j _
        simp [write]
      · intro b hb hbc
        have hba : b ≠ a := fun he => hb (by simp [he])
        have hne : b ≠ c := fun he => hbc (by rw [he])
        simp [write, hba, hne]
  | cons c l1 ih =>
    obtain ⟨fuel, rfl⟩ : ∃ k, fuel = k + 1 := ⟨fuel - 1, by simp at hf; omega⟩
    have hn := hl.nodup
    simp only [List.cons_append] at hl hn hp
    obtain ⟨hre, hr⟩ := hl
    have hce : m.cellBefore test (fuel + 1) pos = m.cellBefore test fuel (.next c) := by
      simp [cellBefore, hre, hs c List.mem_cons_self]
    have hcl : c ∉ l1 ++ a :: l2 := (List.nodup_cons.mp hn).1
    have hr : Linked m.next (m.read (.next c)) (l1 ++ a :: l2) := hr
    obtain ⟨hli, hh, hnex⟩ := ih hr
      (fun b hb he => hcl (by cases he; exact hb))
      (fun b hb => hs b (.tail _ hb))
      (by simpa using hf)
    rw [hce]
    -- the cell `pos` lies before `c`, so it is not written
    have hk : (m.unlink (m.cellBefore test fuel (.next c))).read pos = some c := by
      rw [← hre]
      cases pos with
      | head i => exact hh i (by simp)
      | next b =>
        refine hnex b (fun hb => hp b (.tail _ hb) rfl) ?_
        intro he
        exact hp b (by cases he; exact .head _) rfl
    refine ⟨⟨hk, hli⟩, fun i _ => hh i (by simp), fun b hb _ => ?_⟩
    rw [List.cons_append, List.mem_cons, not_or] at hb
    exact hnex b hb.2 (fun he => hb.1 (by cases he; rfl))

theorem Placed.unlink [Fintype α] {live : ι → Prop} {place : α → Option ι}
    (h : m.Placed live place) (test : α → Bool) {i : ι} (hi : live i) {a : α}
    (ha : place a = some i) (ht : test a = true)
    (hu : ∀ b, place b = some i → test b = true → b = a) :
    Placed live (m.unlink (m.cellBefore test (Fintype.card α) (.head i)))
      (update place a none) := by
  obtain ⟨l, hl, hm⟩ := h i hi
  have hal : a ∈ l := (hm a).mpr ha
  have hle := hl.length_le_card
  have hn := hl.nodup
  obtain ⟨l1, l2, rfl⟩ := List.append_of_mem hal
  have hal1 : a ∉ l1 := fun ha1 =>
    (List.nodup_append.mp hn).2.2 a ha1 a (.head _) rfl
  have ha2 : a ∉ l2 := (List.nodup_cons.mp (List.nodup_append.mp hn).2.1).1
  have hs : ∀ b ∈ l1, test b = false := by
    intro b hb
    rw [Bool.eq_false_iff]
    intro hb'
    exact hal1 (hu b ((hm b).mp (by simp [hb])) hb' ▸ hb)
  have hl : Linked m.next (m.read (.head i)) (l1 ++ a :: l2) := hl
  obtain ⟨hli, hh, hne⟩ := unlink_cellBefore hl (by simp) hs ht hle
  intro j hj
  obtain rfl | hji := eq_or_ne j i
  · refine ⟨l1 ++ l2, hli, fun c => ?_⟩
    have hc := hm c
    obtain rfl | hca := eq_or_ne c a
    · simp [hal1, ha2]
    · simpa [hca] using hc
  -- another chain has no node in common with chain `i`
  obtain ⟨l', hl', hm'⟩ := h j hj
  refine ⟨l', ?_, fun c => ?_⟩
  · rw [hh j (by simpa using Ne.symm hji)]
    refine hl'.congr fun b hb => hne b (fun hbi => hji ?_) (by simp)
    exact Option.some.inj (((hm' b).mp hb).symm.trans ((hm b).mp hbi))
  · obtain rfl | hca := eq_or_ne c a
    · simpa [hm', ha] using Ne.symm hji
    · simpa [hca] using hm' c

theorem Placed.moveAll {live : ι → Prop} {place : α → Option ι} (target : α → ι) {i : ι}
    {l : List α} {p : Option α} {fuel : ℕ} (hi : live i) (ht : ∀ a, target a ≠ i)
    (h : Placed live (m.setHead i p) place) (hl : Linked m.next p l) (hf : l.length ≤ fuel) :
    Placed live ((ChainMem.moveAll target fuel p m).setHead i none)
      (fun a => if place a = some i then some (target a) else place a) := by
  induction l generalizing m place p fuel with
  | nil =>
    obtain rfl : p = none := hl
    have hst : ChainMem.moveAll target fuel none m = m := by cases fuel <;> rfl
    rw [hst]
    -- the chain is empty, so nothing is placed at `i`
    obtain ⟨l', hl', hm'⟩ := h i hi
    have he : l' = [] := hl'.unique (by simp)
    refine h.congr_place fun a j _ => ?_
    have ha : place a ≠ some i := by simp [← hm', he]
    simp [ha]
  | cons a l ih =>
    obtain ⟨rfl, hr⟩ := hl
    cases fuel with
    | zero => simp at hf
    | succ fuel =>
      obtain ⟨l', hl', hm'⟩ := h i hi
      have hl'' : Linked m.next (some a) l' := by simpa using hl'
      have hall : l' = a :: l := hl''.unique ⟨rfl, hr⟩
      have hn := hl''.nodup
      rw [hall] at hn hm'
      have hal : a ∉ l := (List.nodup_cons.mp hn).1
      have ha : place a = some i := (hm' a).mp (.head _)
      -- one iteration: take `a` off the cursor and link it at its target
      have hp := h.popHead (a := a) (by simp) ha
      have hs := hp.push (i := target a) (update_self a none place)
      have hm : ((m.setHead i (some a)).setHead i (m.next a)).push (target a) a =
          (m.push (target a) a).setHead i (m.next a) := by
        simp only [ChainMem.push, setHead, setNext, Function.update_idem, update_of_ne (ht a)]
        rw [Function.update_comm (ht a)]
      rw [setHead_next, hm] at hs
      have hr' : Linked (m.push (target a) a).next (m.next a) l :=
        hr.congr fun b hb => update_of_ne (ne_of_mem_of_not_mem hb hal) _ _
      refine (ih hs hr' (Nat.le_of_succ_le_succ hf)).congr_place fun b j _ => ?_
      obtain rfl | hba := eq_or_ne b a
      · simp [ha, ht]
      · simp [hba]

end Unlink

end ChainMem

end Lib
