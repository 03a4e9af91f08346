import Memcached.Lib.Chain

/-!
# Doubly linked lists in a pointer memory

A memory `DMem ι α` has a head and a tail pointer for each index and a `next` and a `prev`
pointer in each node. `DMem.Placed` says that, for each index, the walk from the head and
the walk from the tail visit the same nodes in opposite orders, and which these are.

Results:
* `Placed.pushHead`, `Placed.pushTail`, `Placed.unlink`, `Placed.insertBefore`:
  linking a node at an end or before another node and unlinking one keep the
  invariant, and say where every node is afterwards.
-/

namespace Lib

open Function (update update_self update_of_ne)

variable {α ι : Type*}

/-! ## Both ends of a walk -/

variable {next : α → Option α} {p : Option α} {l1 l2 : List α}

theorem linked_append_cons {a : α}
    (h : Linked next p (l1 ++ a :: l2)) : Linked next (next a) l2 := by
  induction l1 generalizing p with
  | nil => exact h.2
  | cons b l1 ih => exact ih h.2

theorem Linked.head?_eq {l : List α} (h : Linked next p l) : l.head? = p := by
  cases l with
  | nil => exact h.symm
  | cons a l => exact h.1.symm

/-- A pointer field written through a pointer that may be null:
`if (q) q->next = v`. -/
def setAt [DecidableEq α] (next : α → Option α) (q : Option α) (v : Option α) : α → Option α :=
  match q with
  | none => next
  | some c => update next c v

theorem setAt_of_ne [DecidableEq α] {q v : Option α} {a : α}
    (h : q ≠ some a) : setAt next q v a = next a := by
  cases q with
  | none => rfl
  | some c => exact update_of_ne (fun he => h (by rw [he])) _ _

/-- A walk that starts as `l1` and then takes another way: only the pointer of the last node of
`l1`, or the start if there is none, is a new one. -/
theorem Linked.splice {next' : α → Option α} {p' q : Option α} {m : List α}
    (h : Linked next p (l1 ++ l2)) (hm : Linked next' q m)
    (hk : ∀ c ∈ l1, l1.getLast? ≠ some c → next' c = next c)
    (hla : ∀ c, l1.getLast? = some c → next' c = q)
    (hf : l1 = [] → p' = q) (ho : l1 ≠ [] → p' = p) : Linked next' p' (l1 ++ m) := by
  have hn := h.nodup
  induction l1 generalizing p p' with
  | nil =>
    rw [hf rfl]
    exact hm
  | cons b l1 ih =>
    obtain rfl := ho (List.cons_ne_nil b l1)
    obtain ⟨rfl, hr⟩ := h
    obtain ⟨hb, hl⟩ := List.nodup_cons.mp hn
    have hen : ∀ c, (b :: l1).getLast? = some c ↔ l1.getLast? = some c ∨ l1 = [] ∧ b = c := by
      intro c
      cases l1 with
      | nil => simp
      | cons d l1 => simp [List.getLast?_cons_cons]
    refine ⟨rfl, ih hr (fun c hc hne => ?_) (fun c hc => hla c ((hen c).mpr (.inl hc)))
      (fun hni => hla b ((hen b).mpr (.inr ⟨hni, rfl⟩))) (fun hne => ?_) hl⟩
    · refine hk c (.tail _ hc) fun he => ?_
      obtain he | ⟨rfl, -⟩ := (hen c).mp he
      · exact hne he
      · cases hc
    · refine hk b (.head _) fun he => ?_
      obtain he | ⟨hni, -⟩ := (hen b).mp he
      · exact hb (List.mem_append_left _ (List.mem_of_getLast? he))
      · exact hne hni

theorem Linked.start_iff {a : α} (h : Linked next p (l1 ++ a :: l2)) : p = some a ↔ l1 = [] := by
  have hn := h.nodup
  cases l1 with
  | nil => exact ⟨fun _ => rfl, fun _ => h.1⟩
  | cons b l1 =>
    rw [h.1]
    have hb := (List.nodup_cons.mp hn).1
    refine ⟨fun he => ?_, fun hni => by cases hni⟩
    cases he
    simp at hb

/-- The end of the front part of a walk is not in the rest. -/
theorem Linked.getLast?_ne (h : Linked next p (l1 ++ l2)) {c : α} (hc : c ∈ l2) :
    l1.getLast? ≠ some c :=
  fun he => (List.nodup_append.mp h.nodup).2.2 c (List.mem_of_getLast? he) c hc rfl

section Changes

variable [DecidableEq α] {a b : α}

theorem Linked.unlink (h : Linked next p (l1 ++ a :: l2)) :
    Linked (setAt next l1.getLast? (next a)) (if p = some a then next a else p) (l1 ++ l2) := by
  refine h.splice ((linked_append_cons h).congr fun c hc => ?_) (fun c _ hn => setAt_of_ne hn)
    (fun c hc => by simp [hc, setAt]) (fun hni => if_pos (h.start_iff.mpr hni))
    (fun hn => if_neg fun hp => hn (h.start_iff.mp hp))
  exact setAt_of_ne (h.getLast?_ne (.tail _ hc))

theorem Linked.snoc {l : List α} (h : Linked next p l) (ha : a ∉ l) :
    Linked (setAt (update next a none) l.getLast? (some a))
      (if p = none then some a else p) (l ++ [a]) := by
  have hh := h.head?_eq
  have h' : Linked next p (l ++ []) := by rwa [List.append_nil]
  refine h'.splice ⟨rfl, ?_⟩ (fun c hc hn => ?_) (fun c hc => by simp [hc, setAt])
    (fun hni => if_pos (by simp [← hh, hni]))
    (fun hn => if_neg (by simpa [← hh] using hn))
  · rw [setAt_of_ne fun he => ha (List.mem_of_getLast? he)]
    exact update_self ..
  · rw [setAt_of_ne hn, update_of_ne (ne_of_mem_of_not_mem hc ha)]

/-- Inserting in front of `b` in one direction: the node before `b` is made to point at
the new one. -/
theorem Linked.insertBefore (h : Linked next p (l1 ++ b :: l2)) (ha : a ∉ l1 ++ b :: l2) :
    Linked (setAt (update next a (some b)) l1.getLast? (some a))
      (if p = some b then some a else p) (l1 ++ a :: b :: l2) := by
  have hs : ∀ c ∈ l1 ++ b :: l2, l1.getLast? ≠ some c →
      setAt (update next a (some b)) l1.getLast? (some a) c = next c := by
    intro c hc hn
    rw [setAt_of_ne hn, update_of_ne (ne_of_mem_of_not_mem hc ha)]
  have hr : Linked next (some b) (b :: l2) := ⟨rfl, linked_append_cons h⟩
  refine h.splice ⟨rfl, ?_⟩ (fun c hc hn => hs c (List.mem_append_left _ hc) hn)
    (fun c hc => by simp [hc, setAt]) (fun hni => if_pos (h.start_iff.mpr hni))
    (fun hn => if_neg fun hp => hn (h.start_iff.mp hp))
  rw [setAt_of_ne fun he => ha (List.mem_append_left _ (List.mem_of_getLast? he)), update_self]
  exact hr.congr fun c hc => hs c (List.mem_append_right _ hc) (h.getLast?_ne hc)

theorem Linked.insertAfter (h : Linked next p (l1 ++ b :: l2)) (ha : a ∉ l1 ++ b :: l2) :
    Linked (update (update next a (next b)) b (some a)) p
      (l1 ++ b :: a :: l2) := by
  rw [List.append_cons] at h ha ⊢
  have hs : ∀ c ∈ l1 ++ [b] ++ l2, c ≠ b →
      update (update next a (next b)) b (some a) c = next c := by
    intro c hc hcb
    rw [update_of_ne hcb, update_of_ne (ne_of_mem_of_not_mem hc ha)]
  have hab : a ≠ b := fun he => ha (by simp [he])
  have hr : Linked next (next b) l2 := linked_append_cons (by rwa [← List.append_cons] at h)
  refine h.splice ⟨rfl, ?_⟩ (fun c hc hn => hs c (List.mem_append_left _ hc) ?_)
    (fun c hc => ?_) (by simp) (fun _ => rfl)
  · rw [update_of_ne hab, update_self]
    refine hr.congr fun c hc => hs c (List.mem_append_right _ hc) ?_
    rintro rfl
    exact h.getLast?_ne hc (by simp)
  · rintro rfl
    exact hn (by simp)
  · obtain rfl : b = c := by simpa using hc
    exact update_self ..

/-- Putting `b` in the place of `a` in one direction: the node before `a` is made to point
at `b`, and `b` points where `a` did. -/
theorem Linked.replace (h : Linked next p (l1 ++ a :: l2)) (hb : b ∉ l1 ++ a :: l2) :
    Linked (update (setAt next l1.getLast? (some b)) b (next a))
      (if p = some a then some b else p) (l1 ++ b :: l2) := by
  have hs : ∀ c ∈ l1 ++ a :: l2, l1.getLast? ≠ some c →
      update (setAt next l1.getLast? (some b)) b (next a) c = next c := by
    intro c hc hn
    rw [update_of_ne (ne_of_mem_of_not_mem hc hb), setAt_of_ne hn]
  refine h.splice ⟨rfl, ?_⟩ (fun c hc hn => hs c (List.mem_append_left _ hc) hn)
    (fun c hc => ?_) (fun hni => if_pos (h.start_iff.mpr hni))
    (fun hn => if_neg fun hp => hn (h.start_iff.mp hp))
  · rw [update_self]
    refine (linked_append_cons h).congr fun c hc => ?_
    have hc' := List.mem_cons_of_mem a hc
    exact hs c (List.mem_append_right _ hc') (h.getLast?_ne hc')
  · have hm : c ∈ l1 ++ a :: l2 := List.mem_append_left _ (List.mem_of_getLast? hc)
    simp [update_of_ne (ne_of_mem_of_not_mem hm hb), hc, setAt]

end Changes

/-! ## Memories of lists -/

/-- The pointers of a family of doubly linked lists. -/
structure DMem (ι α : Type*) where
  head : ι → Option α
  tail : ι → Option α
  next : α → Option α
  prev : α → Option α

namespace DMem

section Operations

variable [DecidableEq ι] [DecidableEq α]

def pushHead (m : DMem ι α) (i : ι) (a : α) : DMem ι α where
  head := update m.head i (some a)
  tail := update m.tail i (if m.tail i = none then some a else m.tail i)
  next := update m.next a (m.head i)
  prev := setAt (update m.prev a none) (m.head i) (some a)

/-- Unlinks `a` from list `i`; its own pointers stay as they are. -/
def unlink (m : DMem ι α) (i : ι) (a : α) : DMem ι α where
  head := update m.head i (if m.head i = some a then m.next a else m.head i)
  tail := update m.tail i (if m.tail i = some a then m.prev a else m.tail i)
  next := setAt m.next (m.prev a) (m.next a)
  prev := setAt m.prev (m.next a) (m.prev a)

/-- Takes the first node off list `i`; its own pointers stay as they are. -/
def popHead (m : DMem ι α) (i : ι) (a : α) : DMem ι α where
  head := update m.head i (m.next a)
  tail := update m.tail i (if m.tail i = some a then none else m.tail i)
  next := m.next
  prev := setAt m.prev (m.next a) none

/-- Forgets list `i`; its nodes are in no list any more. -/
def drop (m : DMem ι α) (i : ι) : DMem ι α :=
  { m with head := update m.head i none, tail := update m.tail i none }

def pushTail (m : DMem ι α) (i : ι) (a : α) : DMem ι α where
  head := update m.head i (if m.head i = none then some a else m.head i)
  tail := update m.tail i (some a)
  next := setAt (update m.next a none) (m.tail i) (some a)
  prev := update m.prev a (m.tail i)

def insertBefore (m : DMem ι α) (i : ι) (b a : α) : DMem ι α where
  head := update m.head i (if m.head i = some b then some a else m.head i)
  tail := m.tail
  next := setAt (update m.next a (some b)) (m.prev b) (some a)
  prev := update (update m.prev a (m.prev b)) b (some a)

def flip (m : DMem ι α) : DMem ι α where
  head := m.tail
  tail := m.head
  next := m.prev
  prev := m.next

end Operations

/-- The walks over each list in both directions visit the nodes that `place` puts
there. -/
def Placed (m : DMem ι α) (place : α → Option ι) : Prop :=
  ∀ i, ∃ l, Linked m.next (m.head i) l ∧ Linked m.prev (m.tail i) l.reverse ∧
    ∀ a, a ∈ l ↔ place a = some i

namespace Placed

variable {m : DMem ι α} {place : α → Option ι}

theorem congr_place {place' : α → Option ι} (h : m.Placed place)
    (he : ∀ a i, place' a = some i ↔ place a = some i) : m.Placed place' := by
  intro i
  obtain ⟨l, hn, hp, hm⟩ := h i
  exact ⟨l, hn, hp, fun a => (hm a).trans (he a i).symm⟩

theorem congr_ptrs {m' : DMem ι α} (h : m.Placed place) (hh : m'.head = m.head)
    (ht : m'.tail = m.tail) (hn : ∀ a, place a ≠ none → m'.next a = m.next a)
    (hp : ∀ a, place a ≠ none → m'.prev a = m.prev a) : m'.Placed place := by
  intro i
  obtain ⟨l, hl, hl', hm⟩ := h i
  have hne : ∀ a ∈ l, place a ≠ none := fun a ha => by simp [(hm a).mp ha]
  rw [hh, ht]
  exact ⟨l, hl.congr fun a ha => hn a (hne a ha),
    hl'.congr fun a ha => hp a (hne a (List.mem_reverse.mp ha)), hm⟩

variable {i : ι} {a : α}

section

variable (h : m.Placed place)
include h

theorem place_of_head (ha : m.head i = some a) : place a = some i := by
  obtain ⟨l, hn, -, hm⟩ := h i
  have hh := hn.head?_eq
  rw [ha] at hh
  exact (hm a).mp (List.mem_of_head? hh)

theorem place_of_tail (ha : m.tail i = some a) : place a = some i := by
  obtain ⟨l, -, hp, hm⟩ := h i
  have hh := hp.head?_eq
  rw [ha] at hh
  exact (hm a).mp (List.mem_reverse.mp (List.mem_of_head? hh))

/-- The list of a node, cut at the node. -/
theorem split (ha : place a = some i) :
    ∃ l1 l2, Linked m.next (m.head i) (l1 ++ a :: l2) ∧
      Linked m.prev (m.tail i) (l2.reverse ++ a :: l1.reverse) ∧
      m.next a = l2.head? ∧ m.prev a = l1.getLast? ∧
      ∀ c, c ∈ l1 ++ a :: l2 ↔ place c = some i := by
  obtain ⟨l, hn, hp, hm⟩ := h i
  obtain ⟨l1, l2, rfl⟩ := List.append_of_mem ((hm a).mpr ha)
  have hr : (l1 ++ a :: l2).reverse = l2.reverse ++ a :: l1.reverse := by simp
  rw [hr] at hp
  refine ⟨l1, l2, hn, hp, (linked_append_cons hn).head?_eq.symm, ?_, hm⟩
  rw [← List.head?_reverse]
  exact (linked_append_cons hp).head?_eq.symm

theorem head_iff (ha : place a = some i) : m.head i = some a ↔ m.prev a = none := by
  obtain ⟨l1, l2, hn, -, -, hp, -⟩ := h.split ha
  rw [hn.start_iff, hp, List.getLast?_eq_none_iff]

theorem place_of_prev {a b : α} (ha : place a = some i)
    (hb : m.prev a = some b) : place b = some i := by
  obtain ⟨l1, l2, -, -, -, hp, hm⟩ := h.split ha
  rw [hb] at hp
  exact (hm b).mp (List.mem_append_left _ (List.mem_of_getLast? hp.symm))

theorem prev_ne (ha : place a = some i) : m.prev a ≠ some a := by
  obtain ⟨l1, l2, hn, -, -, hp, -⟩ := h.split ha
  rw [hp]
  exact hn.getLast?_ne (.head _)

theorem flip : m.flip.Placed place := by
  intro i
  obtain ⟨l, hn, hp, hm⟩ := h i
  refine ⟨l.reverse, hp, ?_, fun a => ?_⟩
  · rw [List.reverse_reverse]
    exact hn
  · rw [List.mem_reverse, hm]

end

variable [DecidableEq ι] [DecidableEq α]

theorem pushHead (h : m.Placed place) (ha : place a = none) :
    Placed (m.pushHead i a) (update place a (some i)) := by
  intro j
  obtain ⟨l, hn, hp, hm⟩ := h j
  have hal : a ∉ l := by simp [hm, ha]
  obtain rfl | hj := eq_or_ne j i
  · refine ⟨a :: l, ⟨by simp [DMem.pushHead], ?_⟩, ?_, fun c => ?_⟩
    · have hpu : Linked (update m.next a (m.head j)) (m.head j) l :=
        hn.congr fun b hb => update_of_ne (ne_of_mem_of_not_mem hb hal) _ _
      simpa [DMem.pushHead] using hpu
    · have hs := hp.snoc (a := a) (by simpa using hal)
      rw [List.getLast?_reverse, hn.head?_eq] at hs
      simpa [DMem.pushHead] using hs
    · obtain rfl | hc := eq_or_ne c a
      · simp
      · simpa [hc] using hm c
  -- no pointer of another list is touched
  obtain ⟨l', hn', -, hm'⟩ := h i
  refine ⟨l, ?_, ?_, fun c => ?_⟩
  · simp only [DMem.pushHead, update_of_ne hj]
    exact hn.congr fun b hb => update_of_ne (ne_of_mem_of_not_mem hb hal) _ _
  · simp only [DMem.pushHead, update_of_ne hj]
    refine hp.congr fun b hb => ?_
    have hbl : b ∈ l := List.mem_reverse.mp hb
    have hh : m.head i ≠ some b := by
      intro he
      have hb' : b ∈ l' := List.mem_of_head? (hn'.head?_eq.trans he)
      exact hj (Option.some.inj (((hm b).mp hbl).symm.trans ((hm' b).mp hb')))
    rw [setAt_of_ne hh, update_of_ne (ne_of_mem_of_not_mem hbl hal)]
  · obtain rfl | hc := eq_or_ne c a
    · simpa [hal] using Ne.symm hj
    · simpa [hc] using hm c

theorem unlink (h : m.Placed place) (ha : place a = some i) :
    Placed (m.unlink i a) (update place a none) := by
  obtain ⟨l1, l2, hne, hpr, hn, hp, hm⟩ := h.split ha
  have hno := hne.nodup
  have hal1 : a ∉ l1 := fun ha1 =>
    (List.nodup_append.mp hno).2.2 a ha1 a (.head _) rfl
  have ha2 : a ∉ l2 := (List.nodup_cons.mp (List.nodup_append.mp hno).2.1).1
  intro j
  obtain rfl | hj := eq_or_ne j i
  · refine ⟨l1 ++ l2, ?_, ?_, fun c => ?_⟩
    · have hf := hne.unlink
      simpa [DMem.unlink, hp] using hf
    · have hbw := hpr.unlink
      rw [List.getLast?_reverse, ← hn] at hbw
      simpa [DMem.unlink] using hbw
    · have hc := hm c
      obtain rfl | hca := eq_or_ne c a
      · simp [hal1, ha2]
      · simpa [hca] using hc
  -- another list shares no node with list `i`
  obtain ⟨l', hn', hp', hm'⟩ := h j
  have hd : ∀ b ∈ l', b ∉ l1 ++ a :: l2 := fun b hb hbi =>
    hj (Option.some.inj (((hm' b).mp hb).symm.trans ((hm b).mp hbi)))
  refine ⟨l', ?_, ?_, fun c => ?_⟩
  · simp only [DMem.unlink, update_of_ne hj]
    refine hn'.congr fun b hb => setAt_of_ne fun he => hd b hb ?_
    rw [hp] at he
    exact List.mem_append_left _ (List.mem_of_getLast? he)
  · simp only [DMem.unlink, update_of_ne hj]
    refine hp'.congr fun b hb => setAt_of_ne fun he => ?_
    rw [hn] at he
    exact hd b (List.mem_reverse.mp hb)
      (List.mem_append_right _ (.tail _ (List.mem_of_head? he)))
  · obtain rfl | hca := eq_or_ne c a
    · simpa [hm', ha] using Ne.symm hj
    · simpa [hca] using hm' c

theorem popHead (h : m.Placed place) (ha : m.head i = some a) :
    Placed (m.popHead i a) (update place a none) := by
  have hp := h.place_of_head ha
  have hf := (h.head_iff hp).mp ha
  have hpo : m.popHead i a = m.unlink i a := by
    simp [DMem.popHead, DMem.unlink, hf, ha, setAt]
  rw [hpo]
  exact h.unlink hp

omit [DecidableEq α] in
theorem drop (h : m.Placed place) (i : ι) :
    Placed (m.drop i) fun a => if place a = some i then none else place a := by
  intro j
  obtain ⟨l, hn, hp, hm⟩ := h j
  by_cases hj : j = i
  · refine ⟨[], ?_, ?_, fun a => ?_⟩
    · simp [DMem.drop, hj]
    · simp [DMem.drop, hj]
    rw [hj]
    show a ∈ [] ↔ (if place a = some i then none else place a) = some i
    split_ifs with ha
    · simp
    · simp [ha]
  · refine ⟨l, ?_, ?_, fun a => ?_⟩
    · simpa [DMem.drop, hj] using hn
    · simpa [DMem.drop, hj] using hp
    rw [hm]
    show place a = some j ↔ (if place a = some i then none else place a) = some j
    split_ifs with ha
    · simp [ha, Ne.symm hj]
    · rfl

theorem pushTail (h : m.Placed place) (ha : place a = none) :
    Placed (m.pushTail i a) (update place a (some i)) :=
  (h.flip.pushHead ha).flip

theorem insertBefore (h : m.Placed place) {a b : α} (hb : place b = some i) (ha : place a = none) :
    Placed (m.insertBefore i b a) (update place a (some i)) := by
  obtain ⟨l1, l2, hn, hpr, -, hp, hm⟩ := h.split hb
  have hal : a ∉ l1 ++ b :: l2 := by simp only [hm, ha, reduceCtorEq, not_false_eq_true]
  intro j
  obtain rfl | hj := eq_or_ne j i
  · refine ⟨l1 ++ a :: b :: l2, ?_, ?_, fun c => ?_⟩
    · simpa [DMem.insertBefore, hp] using hn.insertBefore hal
    · have hm' : a ∉ l2.reverse ++ b :: l1.reverse := by
        have hr : l2.reverse ++ b :: l1.reverse = (l1 ++ b :: l2).reverse := by simp
        rwa [hr, List.mem_reverse]
      simpa [DMem.insertBefore] using hpr.insertAfter hm'
    · obtain rfl | hca := eq_or_ne c a
      · simp
      · simpa [hca] using hm c
  -- another list shares no node with list `i`, and `a` is in none
  obtain ⟨l', hn', hp', hm'⟩ := h j
  have ha' : a ∉ l' := by simp [hm', ha]
  have hd : ∀ c ∈ l', c ∉ l1 ++ b :: l2 := fun c hc hci =>
    hj (Option.some.inj (((hm' c).mp hc).symm.trans ((hm c).mp hci)))
  refine ⟨l', ?_, ?_, fun c => ?_⟩
  · simp only [DMem.insertBefore, update_of_ne hj]
    refine hn'.congr fun c hc => ?_
    have hl : m.prev b ≠ some c := by
      intro he
      rw [hp] at he
      exact hd c hc (List.mem_append_left _ (List.mem_of_getLast? he))
    rw [setAt_of_ne hl, update_of_ne (ne_of_mem_of_not_mem hc ha')]
  · refine hp'.congr fun c hc => ?_
    have hcl : c ∈ l' := List.mem_reverse.mp hc
    have hcb : c ≠ b := fun he => hd c hcl (by simp [he])
    simp only [DMem.insertBefore]
    rw [update_of_ne hcb, update_of_ne (ne_of_mem_of_not_mem hcl ha')]
  · obtain rfl | hca := eq_or_ne c a
    · simpa [ha'] using Ne.symm hj
    · simpa [hca] using hm' c

end Placed

end DMem

end Lib
