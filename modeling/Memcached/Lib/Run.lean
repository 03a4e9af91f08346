import Mathlib.Logic.Relation
import Mathlib.Tactic.SplitIfs

/-!
# Runs of a partial step function

A system is given by its initial states and a step function that takes an action,
may refuse it, and gives an output. `System.Steps` is a finite run, with its
labels, all of whose steps satisfy a condition; `System.Reachable` are the states
at the end of such runs.

Results:
* `System.Steps.induct`, `System.Reachable.induct`: invariants of runs
* `System.Steps.of_exec`: a run can be computed
-/

namespace Lib

/-- Initial states and a step function that may refuse an action. -/
structure System (σ α ρ : Type*) where
  init : σ → Prop
  step : σ → α → Option (σ × ρ)

namespace System

variable {σ α ρ : Type*} {S : System σ α ρ} {ok : σ → α → Prop}

/-- A run from one state to another, each step of which meets the condition `ok`. -/
inductive Steps (S : System σ α ρ) (ok : σ → α → Prop) (s : σ) : List (α × ρ) → σ → Prop where
  | refl : Steps S ok s [] s
  | tail {l t a u r} (hs : Steps S ok s l t) (hok : ok t a) (hstep : S.step t a = some (u, r)) :
      Steps S ok s (l ++ [(a, r)]) u

/-- The states that runs from the initial states lead to. -/
def Reachable (S : System σ α ρ) (ok : σ → α → Prop) (t : σ) : Prop :=
  ∃ s l, S.init s ∧ S.Steps ok s l t

variable {s t : σ} {l : List (α × ρ)}

theorem Steps.induct {P : σ → Prop} (h : S.Steps ok s l t) (hs : P s)
    (hste : ∀ {s a t r}, P s → ok s a → S.step s a = some (t, r) → P t) : P t := by
  induction h with
  | refl => exact hs
  | tail _ ho hst ih => exact hste ih ho hst

theorem Steps.trans {s t u : σ} {l l' : List (α × ρ)} (h : S.Steps ok s l t)
    (h' : S.Steps ok t l' u) : S.Steps ok s (l ++ l') u := by
  induction h' with
  | refl => rwa [List.append_nil]
  | tail _ ho hs ih =>
    rw [← List.append_assoc]
    exact ih.tail ho hs

theorem Steps.mono {ok' : σ → α → Prop} (h : S.Steps ok s l t)
    (ho : ∀ s a, ok s a → ok' s a) : S.Steps ok' s l t := by
  induction h with
  | refl => exact .refl
  | tail _ ha hs ih => exact ih.tail (ho _ _ ha) hs

theorem Reachable.of_init {s : σ} (h : S.init s) : S.Reachable ok s := ⟨s, [], h, .refl⟩

theorem Reachable.mono {ok' : σ → α → Prop} {s : σ} (h : S.Reachable ok s)
    (ho : ∀ s a, ok s a → ok' s a) : S.Reachable ok' s := by
  obtain ⟨s0, l, hi, hl⟩ := h
  exact ⟨s0, l, hi, hl.mono ho⟩

theorem Reachable.steps (h : S.Reachable ok s) (hs : S.Steps ok s l t) : S.Reachable ok t := by
  obtain ⟨s0, l0, hi, hl⟩ := h
  exact ⟨s0, l0 ++ l, hi, hl.trans hs⟩

theorem Reachable.tail {a : α} {r : ρ} (h : S.Reachable ok s) (ho : ok s a)
    (hs : S.step s a = some (t, r)) : S.Reachable ok t :=
  h.steps (.tail .refl ho hs)

theorem Reachable.induct {P : σ → Prop} {t : σ} (h : S.Reachable ok t) (hi : ∀ s, S.init s → P s)
    (hst : ∀ {s a t r}, P s → ok s a → S.step s a = some (t, r) → P t) : P t := by
  obtain ⟨s, l, hs, hl⟩ := h
  exact hl.induct (hi s hs) hst

/-- The rule of a guarded step. -/
theorem guarded_eq_some {p : Prop} [Decidable p] {r r' : ρ}
    (h : (if p then some (s, r) else none) = some (t, r')) : p ∧ s = t ∧ r = r' := by
  split_ifs at h with hp
  cases h
  exact ⟨hp, rfl, rfl⟩

/-- The state after a list of actions, when none of them is refused and all of them meet
the condition. -/
def exec (S : System σ α ρ) (ok : σ → α → Prop) [∀ s a, Decidable (ok s a)] :
    σ → List α → Option σ
  | s, [] => some s
  | s, a :: as => if ok s a then (S.step s a).bind fun r => exec S ok r.1 as else none

theorem exists_exec (S : System σ α ρ) (ok : σ → α → Prop) [∀ s a, Decidable (ok s a)] (s : σ)
    (as : List α) (p : σ → Prop) [DecidablePred p]
    (h : ((S.exec ok s as).any fun t => decide (p t)) = true) :
    ∃ t, S.exec ok s as = some t ∧ p t := by
  obtain ⟨t, ht, hp⟩ := (Option.any_eq_true _ _).mp h
  exact ⟨t, ht, of_decide_eq_true hp⟩

theorem Steps.of_exec [∀ s a, Decidable (ok s a)] (as : List α)
    (he : S.exec ok s as = some t) : ∃ l, S.Steps ok s l t := by
  induction as generalizing s with
  | nil =>
    cases he
    exact ⟨[], .refl⟩
  | cons a as ih =>
    unfold exec at he
    split_ifs at he with ho
    obtain ⟨⟨u, r⟩, hs, hr⟩ := Option.bind_eq_some_iff.mp he
    obtain ⟨l, hl⟩ := ih hr
    exact ⟨_, (Steps.refl.tail ho hs).trans hl⟩

theorem Reachable.of_exec [∀ s a, Decidable (ok s a)] (as : List α)
    (h : S.Reachable ok s) (he : S.exec ok s as = some t) : S.Reachable ok t :=
  have ⟨_, hl⟩ := Steps.of_exec as he
  h.steps hl

theorem Reachable.exists_of_exec [∀ s a, Decidable (ok s a)] {s : σ} (h : S.Reachable ok s)
    (as : List α) {p : σ → Prop} [DecidablePred p]
    (he : ((S.exec ok s as).any fun t => decide (p t)) = true) :
    ∃ t, S.Reachable ok t ∧ p t := by
  obtain ⟨t, ht, hp⟩ := exists_exec S ok s as p he
  exact ⟨t, h.of_exec as ht, hp⟩

/-- The outputs of a list of actions and the state after it. -/
def outputs (S : System σ α ρ) (ok : σ → α → Prop) [∀ s a, Decidable (ok s a)] :
    σ → List α → Option (List ρ × σ)
  | s, [] => some ([], s)
  | s, a :: as =>
    if ok s a then (S.step s a).bind fun r => (outputs S ok r.1 as).map fun l => (r.2 :: l.1, l.2)
    else none

theorem outputs_cons [∀ s a, Decidable (ok s a)] {a : α} {as : List α} {rs : List ρ}
    (h : S.outputs ok s (a :: as) = some (rs, t)) :
    ∃ r rs' u, rs = r :: rs' ∧ ok s a ∧ S.step s a = some (u, r) ∧
      S.outputs ok u as = some (rs', t) := by
  unfold outputs at h
  split_ifs at h with ho
  obtain ⟨⟨u, r⟩, hs, hr⟩ := Option.bind_eq_some_iff.mp h
  obtain ⟨⟨rs', t'⟩, hl, he⟩ := Option.map_eq_some_iff.mp hr
  cases he
  exact ⟨r, rs', u, rfl, ho, hs, hl⟩

theorem Steps.of_outputs [∀ s a, Decidable (ok s a)] (as : List α) {rs : List ρ}
    (h : S.outputs ok s as = some (rs, t)) : S.Steps ok s (as.zip rs) t := by
  induction as generalizing s rs with
  | nil =>
    cases h
    exact .refl
  | cons a as ih =>
    obtain ⟨r, rs', u, rfl, ho, hs, hl⟩ := outputs_cons h
    exact (Steps.refl.tail ho hs).trans (ih hl)

end System

end Lib
