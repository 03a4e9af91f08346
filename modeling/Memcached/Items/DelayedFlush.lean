import Memcached.Items.Flush

/-!
# Delayed `flush_all`

`flush_all d` is to hide, from the moment `T + d` on, the items whose time is before that
moment. `process_flush_all_command` keeps `T + d - 1` as `oldest_live`, and
`item_is_flushed` compares that number with the time of the item, which is right, and with
the clock, which is one second early.

Results:
* `delayed_flush_on_time_iff`: a delayed flush is on time but for one second
* `delayed_flush_early`: a key that is gone in that second
-/

namespace Memcached.Items

open Lib Assoc

variable {Addr : Type*} [DecidableEq Addr] [Fintype Addr] {S : Settings}
  {s s' : Store Addr} {op : Op Addr} {r : Reply Addr}

/-! ## Steps other than a flush -/

def Op.isFlush : Op Addr → Bool
  | .flushAll _ => true
  | _ => false

/-- The condition on the other steps: no `flush_all`, and no counter wraps. -/
def NoFlush (s : Store Addr) (op : Op Addr) : Prop := CountersLow s ∧ op.isFlush = false

instance : Decidable (NoFlush s op) := inferInstanceAs (Decidable (_ ∧ _))

/-- No linked item has a time in the future. -/
def TimesPast (s : Store Addr) : Prop := ∀ a, s.Linked a → (s.items a).time ≤ s.currentTime

theorem step_timesPast (hi : Inv S s) (hlo : CountsLow s)
    (hst : step S s op = some (s', r)) (h : TimesPast s) : TimesPast s' := by
  intro b hb
  cases step_change hi hlo hst with
  | serves L T hs _ =>
    rw [currentTime_of_clock hs.clock]
    obtain ⟨hl, -, ht | ⟨-, ht⟩⟩ := hs.linked b hb
    · exact ht.trans_le (h b hl)
    · exact ht.le
  | stores L new it hs _ _ =>
    rw [currentTime_of_clock hs.clock]
    by_cases hn : b = new
    · subst hn
      exact hs.time.le
    · obtain ⟨hl, -, -, ht⟩ := hs.others b hn hb
      exact ht.trans_le (h b hl)
  | edits a c n he _ _ =>
    rw [currentTime_of_clock he.clock]
    have hl := (he.linked b).mp hb
    by_cases hba : b = a
    · subst hba
      obtain ht | ht := he.time
      · exact ht.trans_le (h b hl)
      · exact ht.le
    · exact (he.others b hba hl).2.trans_le (h b hl)
  | tick now heq _ hno =>
    subst heq
    exact (h b hb).trans hno
  | flush exptime heq _ =>
    subst heq
    rw [Store.Linked, items_processFlushAll] at hb
    rw [items_processFlushAll, currentTime_processFlushAll]
    exact h b hb

theorem step_flushSettings (hi : Inv S s) (ho : NoFlush s op)
    (hst : step S s op = some (s', r)) :
    s'.oldestLive = s.oldestLive ∧ s'.oldestCas = s.oldestCas := by
  obtain ⟨hl, hop⟩ := ho
  cases step_change hi hl.1 hst with
  | serves L T hs _ => exact ⟨oldestLive_of_clock hs.clock, oldestCas_of_clock hs.clock⟩
  | stores L new it hs _ _ => exact ⟨oldestLive_of_clock hs.clock, oldestCas_of_clock hs.clock⟩
  | edits a c n he _ _ => exact ⟨oldestLive_of_clock he.clock, oldestCas_of_clock he.clock⟩
  | tick now heq _ _ =>
    subst heq
    exact ⟨rfl, rfl⟩
  | flush exptime _ hf =>
    subst hf
    cases hop

/-- What holds in every state while the flush settings stay as they are. -/
structure FlushSet (S : Settings) (oldestLive oldestCas : ℕ) (s : Store Addr) : Prop where
  inv : Inv S s
  casInv : CasInv s
  times : TimesPast s
  live : s.oldestLive = oldestLive
  cas : s.oldestCas = oldestCas

theorem FlushSet.step {oldestLive oldestCas : ℕ} (hu : S.useCas = true)
    (h : FlushSet S oldestLive oldestCas s) (ho : NoFlush s op)
    (hs : step S s op = some (s', r)) : FlushSet S oldestLive oldestCas s' := by
  obtain ⟨hl, hc⟩ := step_flushSettings h.inv ho hs
  exact
    { inv := step_inv h.inv ho.1.1 hs
      casInv := (step_tokens h.inv h.casInv hu ho.1 hs).casInv h.casInv
      times := step_timesPast h.inv ho.1.1 hs h.times
      live := hl.trans h.live
      cas := hc.trans h.cas }

theorem reachable_flushSet (hu : S.useCas = true)
    (hr : (system Addr S).Reachable NoFlush s) : FlushSet S 0 0 s := by
  refine hr.induct (P := FlushSet S 0 0) (fun t hi => ?_) fun h ho hs => h.step hu ho hs
  have hl : ∀ a, ¬t.Linked a := fun a => by simp [Store.Linked, (hi.items a).1]
  exact ⟨inv_of_init hi, casInv_of_init hi, fun a ha => absurd ha (hl a),
    hi.oldestLive, hi.oldestCas⟩

/-! ## The flush -/

section Flush

variable {d : ℕ} (hd : 0 < d) (hmax : d ≤ 60 * 60 * 24 * 30)
  (hclock : s.currentTime + d < 2 ^ 32)

include hd hmax hclock

section

omit [DecidableEq Addr] [Fintype Addr]

theorem sub32_realtime : sub32 (realtime S s d) 1 = s.currentTime + d - 1 := by
  have hr : realtime S s d = s.currentTime + d := by
    rw [realtime, realtimeMaxdelta, if_neg hd.ne', if_neg hmax.not_gt, Nat.add_comm]
    exact Nat.mod_eq_of_lt hclock
  rw [hr, sub32]
  omega

/-- The flush settings after `flush_all d`: only with a delay of one second does it take a
CAS value. -/
theorem flushSettings_delayed (hu : S.useCas = true) :
    (processFlushAll S s d).oldestLive = s.currentTime + d - 1 ∧
      (processFlushAll S s d).oldestCas = if d = 1 then s.nextCasId else s.oldestCas := by
  have hp : (d : ℤ) > 0 := by omega
  simp only [processFlushAll, hu, if_true, if_pos hp, Int.toNat_natCast,
    sub32_realtime hd hmax hclock]
  by_cases h : d = 1
  · rw [if_pos (by omega), if_pos h]
    exact ⟨rfl, rfl⟩
  · rw [if_neg (by omega), if_neg h]
    exact ⟨rfl, rfl⟩

end

theorem FlushSet.delayed (hu : S.useCas = true) (hlo : CountersLow s) (h : FlushSet S 0 0 s) :
    FlushSet S (s.currentTime + d - 1) (if d = 1 then s.nextCasId else 0)
      (processFlushAll S s d) := by
  have hs : Items.step S s (.flushAll d) = some (processFlushAll S s d, .done) := if_pos trivial
  obtain ⟨hl, hc⟩ := flushSettings_delayed (S := S) hd hmax hclock hu
  exact
    { inv := step_inv h.inv hlo.1 hs
      casInv := (step_tokens h.inv h.casInv hu hlo hs).casInv h.casInv
      times := step_timesPast h.inv hlo.1 hs h.times
      live := hl
      cas := by rw [hc, h.cas] }

end Flush

/-! ## The moment of the flush -/

/-- A `flush_all` with delay `d` at the time `T` is on time: before `T + d` no item is
hidden, from then on exactly the items whose time is before `T + d`. -/
def DelayedFlushOnTime (T d : ℕ) (s : Store Addr) : Prop :=
  (s.currentTime < T + d → ∀ a, s.Linked a → itemIsFlushed s (s.items a) = false) ∧
  (T + d ≤ s.currentTime →
    ∀ a, s.Linked a → (itemIsFlushed s (s.items a) = true ↔ (s.items a).time < T + d))

instance {T d : ℕ} : Decidable (DelayedFlushOnTime T d s) :=
  inferInstanceAs (Decidable ((_ → _) ∧ (_ → _)))

/-- The flush is on time in a state unless it is the second before `T + d` and there is an
item, or the delay is one second and an item that is older than the flush was
accessed after it. -/
theorem FlushSet.onTime_iff {T d cas : ℕ} (hT : 0 < T) (hd : 0 < d)
    (h : FlushSet S (T + d - 1) (if d = 1 then cas else 0) s) :
    DelayedFlushOnTime T d s ↔
      (s.currentTime + 1 = T + d → ∀ a, ¬s.Linked a) ∧
      (d = 1 → T + d ≤ s.currentTime → ∀ a, s.Linked a → T + d ≤ (s.items a).time →
        cas ≤ (s.items a).getCas) := by
  have hfl : ∀ a, s.Linked a → (itemIsFlushed s (s.items a) = true ↔
      T + d ≤ s.currentTime + 1 ∧
        ((s.items a).time < T + d ∨ d = 1 ∧ (s.items a).getCas < cas)) := by
    intro a ha
    have hp := h.casInv.pos a ha
    rw [itemIsFlushed_iff, CasFlushed, h.live, h.cas]
    by_cases h1 : d = 1
    · rw [if_pos h1]
      omega
    · rw [if_neg h1]
      omega
  constructor
  · rintro ⟨hb, haf⟩
    refine ⟨fun hn a ha => ?_, fun h1 hn a ha ht => ?_⟩
    · have hf : itemIsFlushed s (s.items a) = true := by
        have := h.times a ha
        exact (hfl a ha).mpr ⟨hn.ge, .inl (by omega)⟩
      rw [hb (by omega) a ha] at hf
      cases hf
    · by_contra hl
      have hf := (hfl a ha).mpr ⟨by omega, .inr ⟨h1, by omega⟩⟩
      have := (haf hn a ha).mp hf
      omega
  · rintro ⟨hs, ho⟩
    refine ⟨fun hn a ha => ?_, fun hn a ha => ?_⟩
    · rw [← Bool.not_eq_true, hfl a ha]
      rintro ⟨hle, -⟩
      exact hs (by omega) a ha
    rw [hfl a ha]
    constructor
    · rintro ⟨-, ht | ⟨h1, hl⟩⟩
      · exact ht
      by_contra ht
      have := ho h1 hn a ha (by omega)
      omega
    · intro ht
      exact ⟨by omega, .inl ht⟩

/-! ## Runs -/

/-- A `flush_all d` at the time `T`, with no other flush before or after it: at every
later moment the flush is on time if and only if that moment is not the second
before `T + d`, or there is no item then; and, with a delay of one second, no item
that is older than the flush by its CAS value was accessed since `T + d`. -/
theorem delayed_flush_on_time_iff (huse : S.useCas = true) {d : ℕ} (hd : 0 < d)
    (hmax : d ≤ 60 * 60 * 24 * 30) (hr : (system Addr S).Reachable NoFlush s)
    (hlow : CountersLow s) (hT : 0 < s.currentTime) (hclock : s.currentTime + d < 2 ^ 32)
    {l : List (Op Addr × Reply Addr)}
    (hs : (system Addr S).Steps NoFlush (processFlushAll S s d) l s') :
    DelayedFlushOnTime s.currentTime d s' ↔
      (s'.currentTime + 1 = s.currentTime + d → ∀ a, ¬s'.Linked a) ∧
      (d = 1 → s.currentTime + d ≤ s'.currentTime → ∀ a, s'.Linked a →
        s.currentTime + d ≤ (s'.items a).time → s.nextCasId ≤ (s'.items a).getCas) := by
  have hse := (reachable_flushSet huse hr).delayed hd hmax hclock huse hlow
  have hs' := hs.induct (P := FlushSet S _ _) hse fun h ho hst => h.step huse ho hst
  exact hs'.onTime_iff hT hd

/-- The key `a` is stored at the time 2, then comes `flush_all 5`. -/
def beforeFlush : List (Op (Fin 2)) := storeOps 0 (ascii "a") (ascii "1\r\n") 0 .set 0

/-- At the time 7 the key `b` is stored: `a` is hidden and `b` is not. -/
theorem delayed_flush_on_time_iff_seven : ∃ s s' : Store (Fin 2),
    (∃ l, (system (Fin 2) smallSettings).Steps NoFlush (processFlushAll smallSettings s (5 : ℕ))
      l s') ∧ s.currentTime = 2 ∧ s'.currentTime = 7 ∧ s'.Linked 0 ∧ s'.Linked 1 ∧
    DelayedFlushOnTime 2 5 s' := by
  have hi := emptyStore_reachable 2 smallSettings NoFlush
  obtain ⟨s, hs, hT, hlo, hr⟩ := hi.exists_of_exec beforeFlush
    (p := fun s => s.currentTime = 2 ∧ CountersLow s ∧
      ((system (Fin 2) smallSettings).exec NoFlush (processFlushAll smallSettings s (5 : ℕ))
        (.tick 7 :: storeOps 1 (ascii "b") (ascii "2\r\n") 0 .set 0)).any (fun s' =>
          s'.currentTime = 7 ∧ s'.Linked 0 ∧ s'.Linked 1) = true) (by decide +kernel)
  obtain ⟨s', hs', hn, hl, hl'⟩ := System.exists_exec _ _ _ _ _ hr
  obtain ⟨l, hst⟩ := System.Steps.of_exec _ hs'
  refine ⟨s, s', ⟨l, hst⟩, hT, hn, hl, hl', ?_⟩
  have hif := delayed_flush_on_time_iff rfl (by decide) (by decide) hs hlo
    (by rw [hT]; decide) (by rw [hT]; decide) hst
  rw [hT] at hif
  exact hif.mpr ⟨fun h => absurd h (by rw [hn]; decide), fun h => absurd h (by decide)⟩

/-- At the time 6, one second before the flush is due, the key `a` is not found any
more. -/
theorem delayed_flush_early : ∃ s s' : Store (Fin 2),
    (system (Fin 2) smallSettings).Reachable NoFlush s ∧ s.currentTime = 2 ∧ CountersLow s ∧
    (∃ l, (system (Fin 2) smallSettings).Steps NoFlush (processFlushAll smallSettings s (5 : ℕ))
      l s') ∧ s'.currentTime = 6 ∧ ¬DelayedFlushOnTime 2 5 s' ∧ s'.Linked 0 ∧
    s'.key 0 = ascii "a" ∧ (doItemGet smallSettings s' (ascii "a") true true).2 = none := by
  have hi := emptyStore_reachable 2 smallSettings NoFlush
  obtain ⟨s, hs, hT, hl, hru⟩ := hi.exists_of_exec beforeFlush
    (p := fun s => s.currentTime = 2 ∧ CountersLow s ∧
      ((system (Fin 2) smallSettings).exec NoFlush (processFlushAll smallSettings s (5 : ℕ))
        [.tick 6]).any (fun s' => s'.currentTime = 6 ∧ ¬DelayedFlushOnTime 2 5 s' ∧ s'.Linked 0 ∧
          s'.key 0 = ascii "a" ∧
          (doItemGet smallSettings s' (ascii "a") true true).2 = none) = true)
    (by decide +kernel)
  obtain ⟨s', hs', hr⟩ := System.exists_exec _ _ _ _ _ hru
  exact ⟨s, s', hs, hT, hl, System.Steps.of_exec _ hs', hr⟩

end Memcached.Items
