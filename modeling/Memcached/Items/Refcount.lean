import Memcached.Items.Overflow

/-!
# Reference counts are exact while they do not wrap

Every step of the item cache keeps the representation invariant as long as no
16-bit reference count is within two of its largest value when the step starts:
a lookup takes one reference for the caller and possibly one for a bump buffer.

Results:
* `refcounts_exact`: a count is the number of references, and what is free is not held
* `item_freed_while_linked`: unless it wraps
-/

namespace Memcached.Items

open Lib Assoc

variable {Addr : Type*} [DecidableEq Addr] [Fintype Addr] {S : Settings}
  {s s' : Store Addr} {a b : Addr}

/-! ## Every run -/

theorem reachable_inv {ok : Store Addr → Op Addr → Prop} (ho : ∀ s op, ok s op → CountsLow s)
    (hr : (system Addr S).Reachable ok s) : Inv S s :=
  hr.induct (fun _ hi => inv_of_init hi)
    fun h hs hst => step_inv h (ho _ _ hs) hst

/-- In every run that starts each operation with all counts low, each count is the number
of references held by callers and bump buffers plus one for the link, memory is
free iff nobody holds it, and `item_free` never ran for an item with a holder. -/
theorem refcounts_exact (hr : (system Addr S).Reachable (fun s _ => CountsLow s) s) :
    (∀ a, (s.items a).refcount =
      s.refs a + s.bumps.count a + if s.Linked a then 1 else 0) ∧
    (∀ a, s.Slabbed a ↔ ¬s.Linked a ∧ s.refs a = 0 ∧ a ∉ s.bumps) ∧
    ∀ f ∈ s.freed, f.linked = false ∧ f.slabbed = false ∧ f.holders = 0 := by
  have h := reachable_inv (fun _ _ => id) hr
  refine ⟨h.refcount, fun a => ?_, h.freed⟩
  rw [h.slabbed, Store.holders, ← List.count_eq_zero]
  by_cases hl : s.Linked a
  · simp [hl]
  · simp only [hl, if_false, not_false_eq_true, true_and]
    omega

/-- A value is stored, looked up by one client who keeps the reference, and replaced by
another. -/
def replaceTrace : List (Op (Fin 2)) :=
  storeOps 0 (ascii "k") (ascii "a\r\n") 0 .set 0 ++ [.get (ascii "k") true true] ++
    storeOps 1 (ascii "k") (ascii "b\r\n") 0 .set 0 ++ [.remove 0]

theorem refcounts_exact_replaceTrace :
    ∃ s : Store (Fin 2), ((∀ a, (s.items a).refcount =
        s.refs a + s.bumps.count a + if s.Linked a then 1 else 0) ∧
      (∀ a, s.Slabbed a ↔ ¬s.Linked a ∧ s.refs a = 0 ∧ a ∉ s.bumps) ∧
      ∀ f ∈ s.freed, f.linked = false ∧ f.slabbed = false ∧ f.holders = 0) ∧
      (s.items 0).refcount = 0 ∧ (s.items 1).refcount = 1 ∧ s.freed.length = 1 := by
  have hi := emptyStore_reachable 2 smallSettings fun s _ => CountsLow s
  exact ⟨_, refcounts_exact (hi.of_exec replaceTrace rfl), rfl, rfl, rfl⟩

/-! ## A count that wraps -/

/-- A value is stored, looked up 65536 times by clients who keep their references, and one
reference is dropped. The item is freed: it is linked, and 65535 references to it
are in use. -/
theorem item_freed_while_linked :
    ∃ s, (system (Fin 1) smallSettings).Reachable (fun _ _ => True) s ∧
      ∃ f ∈ s.freed, f.linked = true ∧ f.holders = 65535 := by
  have hi := emptyStore_reachable 1 smallSettings fun _ _ => True
  obtain ⟨s, he, hc, hli, hfi, hf⟩ : ∃ s,
      (system (Fin 1) smallSettings).exec (fun _ _ => True) (emptyStore 1)
        (storeOps 0 (ascii "k") (ascii "a\r\n") 0 .set 0) = some s ∧
      (s.items 0).refcount = 1 ∧ ¬s.Dead 0 ∧
      assocFind s.key s.assoc (ascii "k") 0 = some 0 ∧
      (wrapped s 0).freed = [⟨true, false, 65535⟩] :=
    ⟨_, rfl, rfl, by unfold Store.Dead; decide, rfl, rfl⟩
  obtain ⟨l, hl⟩ := steps_wrapped smallSettings (fun _ _ => True) (fun _ => trivial)
    trivial (by rw [hc]; decide) hfi hli
  refine ⟨wrapped s 0, (hi.of_exec _ he).steps hl, ⟨true, false, 65535⟩, ?_, rfl, rfl⟩
  rw [hf]
  exact List.mem_singleton_self _

end Memcached.Items
