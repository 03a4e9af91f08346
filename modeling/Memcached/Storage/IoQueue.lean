import Memcached.Assoc.Model
import Memcached.Lib.DList
import Memcached.Lib.Run
import Mathlib.Algebra.Order.Group.Nat

/-!
# The queue of an IO thread (`extstore.c`)

`extstore_submit` puts a stack of ios at the end of a thread's queue; the thread takes up to
`io_depth` of them from its front. It sets `queue_tail` to null only when it finds the end of
the queue before it has counted to `io_depth`. The callers submit no empty stack, which would
make `queue_tail` a null pointer.

Results:
* `io_queue_exact`: every submitted io is delivered once and in order, and the queue's depth
  and tail are exact
-/

namespace Memcached.Storage.IoQueue

open Lib
open Function (update update_self update_of_ne)

variable {Io : Type*} [DecidableEq Io] [Fintype Io]

/-! ## Model -/

/-- `store_io_thread`, the `next` pointers of the ios, and `cur_io`; the ios submitted and
delivered so far are collected. -/
structure IoThread (Io : Type*) where
  next : Io → Option Io
  queue : Option Io := none
  queueTail : Option Io := none
  depth : ℕ := 0
  curIo : Option Io := none
  submitted : List Io := []
  delivered : List Io := []

/-- The loop of `extstore_submit` that finds the tail and counts (lines 614-621). -/
def walkStack (next : Io → Option Io) : ℕ → Option Io → Option Io × ℕ → Option Io × ℕ
  | _, none, r => r
  | 0, some _, r => r
  | fuel + 1, some tio, r => walkStack next fuel (next tio) (some tio, r.2 + 1)

/-- `extstore_submit` (lines 611-644). There is no result if a null pointer is followed or,
in a build without `NDEBUG`, an assertion fails. -/
def extstoreSubmit (ndebug : Bool) (t : IoThread Io) (io : Option Io) : Option (IoThread Io) :=
  let r := walkStack t.next (Fintype.card Io) io (none, 0)
  let t := { t with depth := (t.depth + r.2) % 2 ^ 32 }
  match t.queue, t.queueTail with
  | none, _ => some { t with queue := io, queueTail := r.1 }
  | some _, some last =>
    if ndebug ∨ (r.1.any (t.next · = none) ∧ t.next last = none) then
      some { t with next := update t.next last io, queueTail := r.1 }
    else none
  | some _, none => none

/-- `for (i = 1; i < e->io_depth; i++)` (lines 760-767): `end`, `i`, and whether the end of
the queue was found. -/
def batchEnd (next : Io → Option Io) : ℕ → Io → ℕ → Io × ℕ × Bool
  | 0, last, i => (last, i, false)
  | n + 1, last, i =>
    match next last with
    | some io => batchEnd next n io (i + 1)
    | none => (last, i, true)

/-- The batch that `extstore_io_thread` takes from the queue (lines 755-772). -/
def takeBatch (ioDepth : ℕ) (t : IoThread Io) : IoThread Io :=
  match t.queue with
  | none => t
  | some head =>
    let r := batchEnd t.next (ioDepth - 1) head 1
    { t with
      queueTail := if r.2.2 then none else t.queueTail
      depth := (t.depth + (2 ^ 32 - r.2.1 % 2 ^ 32)) % 2 ^ 32
      queue := t.next r.1
      next := update t.next r.1 none
      curIo := some head }

/-- The caller links the ios of a stack. -/
def linkStack (next : Io → Option Io) : List Io → Io → Option Io
  | [] => next
  | io :: stack => update (linkStack next stack) io stack.head?

inductive Op (Io : Type*) where
  | submit (stack : List Io)
  | batch
  | deliver

/-- A stack is submitted, or the thread takes a batch, or it runs the next io of its batch
(`next` is read before the callback, which may use the io again). -/
def step (ndebug : Bool) (ioDepth : ℕ) (t : IoThread Io) : Op Io → Option (IoThread Io × Unit)
  | .submit stack =>
    (extstoreSubmit ndebug { t with next := linkStack t.next stack } stack.head?).map fun t' =>
      ({ t' with submitted := t.submitted ++ stack }, ())
  | .batch => if t.curIo = none then some (takeBatch ioDepth t, ()) else none
  | .deliver =>
    match t.curIo with
    | none => none
    | some io => some ({ t with curIo := t.next io, delivered := t.delivered ++ [io] }, ())

def ioThreads (Io : Type*) [DecidableEq Io] [Fintype Io] (ndebug : Bool) (ioDepth : ℕ) :
    System (IoThread Io) (Op Io) Unit where
  init t := ∃ next, t = { next := next }
  step := step ndebug ioDepth

/-- The callers' contract: a stack is not empty, and an io is submitted again only after it
was delivered. -/
def Fresh (t : IoThread Io) : Op Io → Prop
  | .submit stack => stack ≠ [] ∧ stack.Nodup ∧
      ∀ io ∈ stack, t.submitted.count io = t.delivered.count io
  | _ => True

instance (t : IoThread Io) (op : Op Io) : Decidable (Fresh t op) := by
  delta Fresh
  induction op using Op.casesOn <;> infer_instance

/-- The ios are delivered in the order of submission: first those of the batch `b` that is
being run, then those of the queue `q`. -/
structure Holds (t : IoThread Io) (b q : List Io) : Prop where
  queue : Linked t.next t.queue q
  batch : Linked t.next t.curIo b
  nodup : (b ++ q).Nodup
  order : t.submitted = t.delivered ++ b ++ q
  depth : t.depth = q.length % 2 ^ 32
  tail : q ≠ [] → t.queueTail = q.getLast?

/-- What the thread does when nothing is submitted. -/
def threadStep (ioDepth : ℕ) (t : IoThread Io) : IoThread Io :=
  match step true ioDepth t .deliver with
  | some r => r.1
  | none => takeBatch ioDepth t

/-! ## Chains -/

section Chains

variable {next : Io → Option Io} {p : Option Io} {l l' : List Io} {a : Io}

section

omit [Fintype Io]

theorem linkStack_of_notMem (h : a ∉ l) : linkStack next l a = next a := by
  induction l with
  | nil => rfl
  | cons b l ih =>
    rw [List.mem_cons, not_or] at h
    rw [linkStack, update_of_ne h.1, ih h.2]

theorem linked_linkStack (h : l.Nodup) : Linked (linkStack next l) l.head? l := by
  induction l with
  | nil => rfl
  | cons b l ih =>
    obtain ⟨hb, hl⟩ := List.nodup_cons.mp h
    refine ⟨rfl, ?_⟩
    rw [linkStack, update_self]
    refine (ih hl).congr fun c hc => update_of_ne ?_ _ _
    rintro rfl
    exact hb hc

end

omit [DecidableEq Io] [Fintype Io] in
theorem walkStack_eq {fuel : ℕ} (tail : Option Io) (n : ℕ) (h : Linked next p l)
    (hf : l.length ≤ fuel) :
    walkStack next fuel p (tail, n) = (l.getLast?.or tail, n + l.length) := by
  induction l generalizing fuel p tail n with
  | nil =>
    obtain rfl := h
    cases fuel <;> rfl
  | cons b l ih =>
    obtain ⟨rfl, hl⟩ := h
    cases fuel with
    | zero => simp at hf
    | succ fuel =>
      rw [walkStack, ih _ _ hl (by simpa using hf)]
      cases l with
      | nil => rfl
      | cons c l =>
        simp only [List.getLast?_cons_cons, List.length_cons, Prod.mk.injEq]
        exact ⟨by simp [List.getLast?_cons], by omega⟩

section

omit [Fintype Io]

theorem linked_append (h : Linked next p (l ++ [a])) (h' : Linked next p' l')
    (hn : (l ++ [a] ++ l').Nodup) : Linked (update next a p') p (l ++ [a] ++ l') := by
  have hl : Linked next p (l ++ [a] ++ []) := by rwa [List.append_nil]
  refine hl.splice (h'.congr fun c hc => update_of_ne ?_ _ _)
    (fun c _ hne => update_of_ne ?_ _ _) (fun c hc => ?_) (by simp) (fun _ => rfl)
  · exact ((List.nodup_append.mp hn).2.2 a (by simp) c hc).symm
  · rintro rfl
    simp at hne
  · obtain rfl : a = c := by simpa using hc
    exact update_self ..

theorem linked_cut (h : Linked next p (l ++ a :: l')) :
    Linked (update next a none) p (l ++ [a]) ∧
      Linked (update next a none) (next a) l' := by
  have hr := linked_append_cons h
  rw [List.append_cons] at h
  have hs : ∀ c, (l ++ [a]).getLast? ≠ some c → update next a none c = next c := by
    intro c hne
    refine update_of_ne ?_ _ _
    rintro rfl
    simp at hne
  refine ⟨?_, hr.congr fun c hc => hs c (h.getLast?_ne hc)⟩
  have hn : Linked (update next a none) none [] := rfl
  simpa using h.splice hn (fun c _ => hs c)
    (fun c hc => by simp_all) (by simp) (fun _ => rfl)

end

omit [DecidableEq Io] [Fintype Io] in
theorem batchEnd_spec (n i : ℕ) (h : Linked next (next a) l) :
    ∃ l1 x l2 short, a :: l = l1 ++ x :: l2 ∧ batchEnd next n a i = (x, i + l1.length, short) ∧
      (short = true → l2 = []) := by
  induction n generalizing a i l with
  | zero => exact ⟨[], a, l, false, rfl, rfl, by simp⟩
  | succ n ih =>
    cases l with
    | nil => exact ⟨[], a, [], true, rfl, by simp [batchEnd, linked_nil.mp h], fun _ => rfl⟩
    | cons b l =>
      obtain ⟨hb, hl⟩ := h
      obtain ⟨l1, x, l2, short, heq, he, hs⟩ := ih (i + 1) hl
      refine ⟨a :: l1, x, l2, short, by rw [heq, List.cons_append], ?_, hs⟩
      rw [batchEnd, hb]
      simp only [he, List.length_cons, Prod.mk.injEq, true_and, and_true]
      omega

end Chains

/-! ## Steps -/

variable {t t' : IoThread Io} {b q stack : List Io} {ndebug : Bool} (ioDepth : ℕ)

omit [Fintype Io] in
theorem Holds.disjoint (h : Holds t b q) (hf : Fresh t (.submit stack)) :
    ∀ io ∈ stack, io ∉ b ++ q := by
  intro io hi hm
  have hc := hf.2.2 io hi
  rw [h.order, List.append_assoc, List.count_append] at hc
  have := List.count_pos_iff.mpr hm
  omega

theorem Holds.submit (h : Holds t b q) (hf : Fresh t (.submit stack)) :
    ∃ t', step ndebug ioDepth t (.submit stack) = some (t', ()) ∧
      Holds t' b (q ++ stack) := by
  have hne := h.disjoint hf
  have hs : Linked (linkStack t.next stack) stack.head? stack := linked_linkStack hf.2.1
  have hk : ∀ {p l}, Linked t.next p l → (∀ io ∈ l, io ∈ b ++ q) →
      Linked (linkStack t.next stack) p l :=
    fun hl hm => hl.congr fun io hi => linkStack_of_notMem fun hi' => hne io hi' (hm io hi)
  have hq := hk h.queue fun io hi => List.mem_append_right b hi
  have hb := hk h.batch fun io hi => List.mem_append_left q hi
  have hn : (b ++ (q ++ stack)).Nodup := by
    rw [← List.append_assoc, List.nodup_append]
    exact ⟨h.nodup, hf.2.1, fun io hi io' hi' heq => hne io' hi' (heq ▸ hi)⟩
  have hw := walkStack_eq none 0 hs hs.length_le_card
  rw [Option.or_none, Nat.zero_add] at hw
  have hd : (t.depth + stack.length) % 2 ^ 32 = (q ++ stack).length % 2 ^ 32 := by
    rw [h.depth, List.length_append]
    omega
  simp only [step, extstoreSubmit, hw]
  obtain rfl | ⟨q', last, rfl⟩ := List.eq_nil_or_concat' q
  · have hno : t.queue = none := h.queue
    rw [hno]
    exact ⟨_, rfl, hs, hb, hn, by simp [h.order], hd, fun _ => rfl⟩
  obtain ⟨head, hh⟩ : ∃ head, t.queue = some head := by
    rw [← h.queue.head?_eq, ← Option.isSome_iff_exists]
    simp
  have ht : t.queueTail = some last := by simpa using h.tail
  rw [hh, ht]
  obtain ⟨stack', io, rfl⟩ := (List.eq_nil_or_concat' stack).resolve_left hf.1
  have he : ∀ {p l x}, Linked (linkStack t.next (stack' ++ [io])) p (l ++ [x]) →
      linkStack t.next (stack' ++ [io]) x = none := by
    intro p l x hl
    exact linked_append_cons hl
  simp only [List.getLast?_append, List.getLast?_singleton, Option.some_or, Option.any_some,
    he hs, he hq, decide_true, and_self, or_true, if_true, Option.map_some, Option.some.injEq,
    Prod.mk.injEq, and_true, exists_eq_left']
  rw [hh] at hq
  refine ⟨linked_append hq hs ?_, ?_, hn, by simp [h.order], hd, fun _ => ?_⟩
  · exact (List.nodup_append.mp hn).2.1
  · refine hb.congr fun c hc => update_of_ne ?_ _ _
    rintro rfl
    exact (List.nodup_append.mp hn).2.2 c hc c (by simp) rfl
  · rw [List.getLast?_append, List.getLast?_append]
    rfl

omit [Fintype Io] in
theorem Holds.takeBatch (h : Holds t [] q) :
    ∃ b q', q = b ++ q' ∧ (q ≠ [] → b ≠ []) ∧ Holds (takeBatch ioDepth t) b q' := by
  cases q with
  | nil =>
    have hno : t.queue = none := h.queue
    refine ⟨[], [], rfl, by simp, ?_⟩
    rwa [IoQueue.takeBatch, hno]
  | cons head q =>
    obtain ⟨hh, hq⟩ := h.queue
    obtain ⟨l1, x, l2, short, he, hen, hs⟩ := batchEnd_spec (ioDepth - 1) 1 hq
    have hn : (l1 ++ x :: l2).Nodup := by simpa [he] using h.nodup
    have hqu : Linked t.next t.queue (l1 ++ x :: l2) := he ▸ h.queue
    obtain ⟨hb, hr⟩ := linked_cut hqu
    refine ⟨l1 ++ [x], l2, by simp [he], by simp, ?_⟩
    rw [IoQueue.takeBatch, hh]
    simp only [hen]
    have ho : t.submitted = t.delivered ++ (l1 ++ [x]) ++ l2 := by
      rw [h.order, he]
      simp
    have hl := h.depth
    rw [he] at hl
    refine ⟨hr, hh ▸ hb, by simpa using hn, ho, ?_, fun hne => ?_⟩
    · simp only [List.length_append, List.length_cons] at hl ⊢
      omega
    have hf : short = false := by
      cases short with
      | false => rfl
      | true => exact absurd (hs rfl) hne
    have ht := h.tail (by simp)
    rw [he] at ht
    obtain ⟨y, l, rfl⟩ := List.exists_cons_of_ne_nil hne
    simpa [hf, List.getLast?_cons] using ht

omit [DecidableEq Io] [Fintype Io] in
theorem Holds.deliver {io : Io} (h : Holds t (io :: b) q) :
    Holds { t with curIo := t.next io, delivered := t.delivered ++ [io] } b q where
  queue := h.queue
  batch := h.batch.2
  nodup := (List.nodup_cons.mp h.nodup).2
  order := by simp [h.order]
  depth := h.depth
  tail := h.tail

theorem Holds.threadStep (h : Holds t b q) (hn : b ++ q ≠ []) :
    ∃ b' q', Holds (threadStep ioDepth t) b' q' ∧
      2 * q'.length + b'.length < 2 * q.length + b.length ∧
      (IoQueue.threadStep ioDepth t).submitted = t.submitted := by
  cases b with
  | cons io b =>
    obtain ⟨hc, -⟩ := h.batch
    have he : IoQueue.threadStep ioDepth t =
        { t with curIo := t.next io, delivered := t.delivered ++ [io] } := by
      simp only [IoQueue.threadStep, step, hc]
    rw [he]
    exact ⟨b, q, h.deliver, by simp, rfl⟩
  | nil =>
    have hc : t.curIo = none := h.batch
    have he : IoQueue.threadStep ioDepth t = IoQueue.takeBatch ioDepth t := by
      simp only [IoQueue.threadStep, step, hc]
    rw [he]
    obtain ⟨b, q', rfl, hb, hh⟩ := h.takeBatch ioDepth
    have hp := List.length_pos_iff.mpr (hb (by simpa using hn))
    refine ⟨b, q', hh, by simp only [List.length_append, List.length_nil]; omega, ?_⟩
    unfold IoQueue.takeBatch
    split <;> rfl

theorem Holds.drains (h : Holds t b q) :
    ∃ n, ((IoQueue.threadStep ioDepth)^[n] t).delivered = t.submitted := by
  induction hm : 2 * q.length + b.length using Nat.strong_induction_on generalizing t b q with
  | _ m ih =>
    by_cases he : b ++ q = []
    · refine ⟨0, ?_⟩
      rw [h.order, List.append_assoc, he, List.append_nil]
      rfl
    · obtain ⟨b', q', hh, hl, hs⟩ := h.threadStep ioDepth he
      obtain ⟨n, hn⟩ := ih _ (hm ▸ hl) hh rfl
      exact ⟨n + 1, hn.trans hs⟩

/-! ## Runs -/

variable {ioDepth}

theorem step_holds {op : Op Io} (h : ∃ b q, Holds t b q) (hf : Fresh t op)
    (hs : step ndebug ioDepth t op = some (t', ())) : ∃ b q, Holds t' b q := by
  obtain ⟨b, q, h⟩ := h
  cases op with
  | submit stack =>
    obtain ⟨t1, he, hh⟩ := h.submit ioDepth hf
    rw [he] at hs
    cases hs
    exact ⟨b, _, hh⟩
  | batch =>
    obtain ⟨hcu, rfl, -⟩ := System.guarded_eq_some hs
    obtain rfl : b = [] := by
      have hb := h.batch
      rw [hcu] at hb
      exact hb.unique rfl
    obtain ⟨b, q', -, -, hh⟩ := h.takeBatch ioDepth
    exact ⟨b, q', hh⟩
  | deliver =>
    cases b with
    | nil =>
      have hcu : t.curIo = none := h.batch
      simp [step, hcu] at hs
    | cons io b =>
      obtain ⟨hcu, -⟩ := h.batch
      simp only [step, hcu, Option.some.injEq, Prod.mk.injEq, and_true] at hs
      subst hs
      exact ⟨b, q, h.deliver⟩

theorem reachable_holds (hr : (ioThreads Io ndebug ioDepth).Reachable Fresh t) :
    ∃ b q, Holds t b q := by
  refine hr.induct (fun s hi => ?_) fun h hf hs => step_holds h hf hs
  obtain ⟨next, rfl⟩ := hi
  exact ⟨[], [], rfl, rfl, List.nodup_nil, rfl, rfl, by simp⟩

/-- **The queue of an IO thread.** In every run the ios submitted are the delivered ones, those
of the batch and those of the queue, in this order and with the depth and the tail as they
should be; the thread gets to the end of them; and every further stack is accepted. -/
theorem io_queue_exact (hc : Fintype.card Io < 2 ^ 32)
    (hr : (ioThreads Io ndebug ioDepth).Reachable Fresh t) :
    (∃ b q, Holds t b q ∧ t.depth = q.length) ∧
      (∃ n, ((threadStep ioDepth)^[n] t).delivered = t.submitted) ∧
      ∀ stack, Fresh t (.submit stack) →
        ∃ t', step ndebug ioDepth t (.submit stack) = some (t', ()) := by
  obtain ⟨b, q, h⟩ := reachable_holds hr
  have hq : q.length ≤ Fintype.card Io :=
    (List.nodup_append.mp h.nodup).2.1.length_le_card
  refine ⟨⟨b, q, h, ?_⟩, h.drains ioDepth, fun stack hf => ?_⟩
  · rw [h.depth, Nat.mod_eq_of_lt (by omega)]
  · obtain ⟨t', he, -⟩ := h.submit ioDepth hf
    exact ⟨t', he⟩

/-- Two ios are submitted, one of them is taken, and another stack comes. -/
theorem io_queue_exact_three : ∃ t : IoThread (Fin 3),
    (ioThreads (Fin 3) false 1).Reachable Fresh t ∧
      (t.queue = some 1 ∧ Fresh t (.submit [2])) ∧ t.depth = 1 ∧
      (∃ n, ((threadStep 1)^[n] t).delivered = t.submitted) ∧
      ∃ t', step false 1 t (.submit [2]) = some (t', ()) := by
  have hi : (ioThreads (Fin 3) false 1).Reachable Fresh { next := fun _ => none } :=
    .of_init ⟨_, rfl⟩
  obtain ⟨t, hr, ⟨hq, hf⟩, hd⟩ := hi.exists_of_exec [.submit [0, 1], .batch]
    (p := fun t => (t.queue = some 1 ∧ Fresh t (.submit [2])) ∧ t.depth = 1)
    (by decide +kernel)
  have h := io_queue_exact (by decide) hr
  exact ⟨t, hr, ⟨hq, hf⟩, hd, h.2.1, h.2.2 _ hf⟩

end Memcached.Storage.IoQueue
