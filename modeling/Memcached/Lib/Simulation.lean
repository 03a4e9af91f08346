import Memcached.Lib.Run

/-!
# Forward simulation with hidden steps

Some steps of a system are seen by its clients, as events; the others are hidden.
`System.Trace` is a run with its events. A specification is a transition relation
whose steps are labelled with events, and `LabelledRun` are its runs.

Results:
* `System.Trace.of_observed`: the events of a list of actions are a trace
* `System.Trace.simulates`: a simulation gives a run of the specification
-/

namespace Lib

variable {σ α ρ μ ε : Type*}

inductive LabelledRun (R : μ → ε → μ → Prop) (m : μ) : List ε → μ → Prop where
  | refl : LabelledRun R m [] m
  | tail {l m' e m''} (h : LabelledRun R m l m') (hstep : R m' e m'') :
      LabelledRun R m (l ++ [e]) m''

theorem LabelledRun.snoc_iff {R : μ → ε → μ → Prop} {m m'' : μ} {l : List ε} {e : ε} :
    LabelledRun R m (l ++ [e]) m'' ↔ ∃ m', LabelledRun R m l m' ∧ R m' e m'' := by
  constructor
  · intro h
    generalize hl : l ++ [e] = l' at h
    cases h with
    | refl => simp at hl
    | tail h hs =>
      obtain ⟨rfl, rfl⟩ := List.append_inj' hl rfl |>.imp_right List.singleton_inj.mp
      exact ⟨_, h, hs⟩
  · rintro ⟨m', h, hs⟩
    exact h.tail hs

namespace System

/-- A run of a system with the events that are seen of it. -/
inductive Trace (S : System σ α ρ) (ok : σ → α → Prop) (observe : σ → α → ρ → σ → Option ε)
    (s : σ) : List ε → σ → Prop where
  | refl : Trace S ok observe s [] s
  | tail {l t a u r} (h : Trace S ok observe s l t) (hok : ok t a)
      (hstep : S.step t a = some (u, r)) :
      Trace S ok observe s (l ++ (observe t a r u).toList) u

section

variable {S : System σ α ρ} {ok : σ → α → Prop} {observe : σ → α → ρ → σ → Option ε} {s t u : σ}

theorem Trace.trans {l l' : List ε} (h : S.Trace ok observe s l t)
    (h' : S.Trace ok observe t l' u) : S.Trace ok observe s (l ++ l') u := by
  induction h' with
  | refl => rwa [List.append_nil]
  | tail _ ho hs ih =>
    rw [← List.append_assoc]
    exact ih.tail ho hs

theorem Steps.trace (observe : σ → α → ρ → σ → Option ε) {l : List (α × ρ)}
    (h : S.Steps ok s l t) : ∃ l', S.Trace ok observe s l' t := by
  induction h with
  | refl => exact ⟨[], .refl⟩
  | tail _ ho hs ih =>
    obtain ⟨l', hl'⟩ := ih
    exact ⟨_, hl'.tail ho hs⟩

end

/-- The events of a list of actions, and the state after them. -/
def observed (S : System σ α ρ) (ok : σ → α → Prop) [∀ s a, Decidable (ok s a)]
    (observe : σ → α → ρ → σ → Option ε) : σ → List α → Option (List ε × σ)
  | s, [] => some ([], s)
  | s, a :: as =>
    if ok s a then
      (S.step s a).bind fun r => (observed S ok observe r.1 as).map fun q =>
        ((observe s a r.2 r.1).toList ++ q.1, q.2)
    else none

theorem Trace.of_observed {S : System σ α ρ} {ok : σ → α → Prop} [∀ s a, Decidable (ok s a)]
    {observe : σ → α → ρ → σ → Option ε} {s t : σ} {l : List ε} (as : List α)
    (h : S.observed ok observe s as = some (l, t)) : S.Trace ok observe s l t := by
  induction as generalizing s l with
  | nil =>
    obtain ⟨rfl, rfl⟩ := Prod.ext_iff.mp (Option.some.inj h)
    exact .refl
  | cons a as ih =>
    unfold observed at h
    split_ifs at h with ho
    obtain ⟨⟨u, r⟩, hs, hr⟩ := Option.bind_eq_some_iff.mp h
    obtain ⟨⟨l', t'⟩, ht, he⟩ := Option.map_eq_some_iff.mp hr
    obtain ⟨rfl, rfl⟩ := Prod.ext_iff.mp he
    exact (Trace.refl.tail ho hs).trans (ih ht)

/-- One step of a simulation: a hidden step keeps the abstract state, the event of any
other is one of the specification. -/
def Matches (R : μ → ε → μ → Prop) (sim : μ → Prop) (m : μ) : Option ε → Prop
  | none => sim m
  | some e => ∃ m', R m e m' ∧ sim m'

theorem Trace.simulates {S : System σ α ρ} {ok : σ → α → Prop}
    {observe : σ → α → ρ → σ → Option ε} {R : μ → ε → μ → Prop} {s t : σ} {l : List ε} {m : μ}
    (h : S.Trace ok observe s l t) (sim : σ → μ → Prop) (hs : sim s m)
    (hste : ∀ {s m a t r}, sim s m → ok s a → S.step s a = some (t, r) →
      Matches R (sim t) m (observe s a r t)) :
    ∃ m', LabelledRun R m l m' ∧ sim t m' := by
  induction h with
  | refl => exact ⟨m, .refl, hs⟩
  | @tail l t a u r _ hok hst ih =>
    obtain ⟨m', hr, hsi⟩ := ih
    have hm := hste hsi hok hst
    cases ho : observe t a r u with
    | none =>
      rw [ho] at hm
      exact ⟨m', by simpa using hr, hm⟩
    | some e =>
      rw [ho] at hm
      obtain ⟨m'', hR, hs'⟩ := hm
      exact ⟨m'', hr.tail hR, hs'⟩

end System

end Lib
