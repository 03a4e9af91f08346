import Memcached.Items.CasTokens

/-!
# Flushed items and later flushes and bumps

`flush_all` unlinks nothing: it sets `oldest_live`, and `oldest_cas` with it, and lookups
compare items with them. A later `flush_all` overwrites both, and the bump thread renews
access times without looking at them. `FlushOk` is the condition on these two.

Results:
* `flushed_stays_gone`: under the condition a flushed item is never found again
* `flushed_item_returns`: two runs in which one comes back
-/

namespace Memcached.Items

open Lib Assoc

variable {Addr : Type*} [DecidableEq Addr] [Fintype Addr] {S : Settings}
  {s s' : Store Addr} {a b : Addr} {key : Bytes}

/-! ## The condition -/

/-- The item is older than the last flush by its CAS value. -/
def CasFlushed (s : Store Addr) (it : Item) : Prop :=
  s.oldestCas ≠ 0 ∧ it.getCas ≠ 0 ∧ it.getCas < s.oldestCas

/-- The `oldest_live` of a `flush_all`. -/
def flushTime (S : Settings) (s : Store Addr) (exptime : ℤ) : ℕ :=
  let time := if exptime > 0 then realtime S s exptime.toNat else s.currentTime
  if S.useCas then sub32 time 1 else time

/-- The `flush_all` takes effect at once: the new `oldest_live` is neither 0 nor in the
future and, when there are no CAS values, not before the old one. -/
def FlushesNow (S : Settings) (s : Store Addr) (exptime : ℤ) : Prop :=
  let oldestLive := flushTime S s exptime
  0 < oldestLive ∧ oldestLive ≤ s.currentTime ∧ (S.useCas = false → s.oldestLive ≤ oldestLive)

/-- The condition on steps: a `flush_all` that does not take effect at once is only made
while no linked item is flushed, and no entry of a bump buffer is worked off whose
item is flushed by its access time alone, unless that was in this very second. -/
def FlushOk (S : Settings) (s : Store Addr) (op : Op Addr) : Prop :=
  CountersLow s ∧
  match op with
  | .flushAll exptime =>
    FlushesNow S s exptime ∨ ∀ b, s.Linked b → itemIsFlushed s (s.items b) = false
  | .bump a => s.Linked a → itemIsFlushed s (s.items a) = true →
      CasFlushed s (s.items a) ∨ s.currentTime ≤ s.oldestLive
  | _ => True

instance (it : Item) : Decidable (CasFlushed s it) := inferInstanceAs (Decidable (_ ∧ _ ∧ _))

instance (exptime : ℤ) : Decidable (FlushesNow S s exptime) :=
  inferInstanceAs (Decidable (_ ∧ _ ∧ (_ → _)))

instance (op : Op Addr) : Decidable (FlushOk S s op) := by
  delta FlushOk
  induction op using Op.casesOn <;> infer_instance

/-! ## Flushed items -/

omit [DecidableEq Addr] [Fintype Addr] in
theorem itemIsFlushed_iff {it : Item} : itemIsFlushed s it = true ↔
    s.oldestLive ≠ 0 ∧ s.oldestLive ≤ s.currentTime ∧
      (it.time ≤ s.oldestLive ∨ CasFlushed s it) := by
  unfold itemIsFlushed
  split_ifs with h
  · simp only [false_iff]
    omega
  rw [decide_eq_true_iff]
  unfold CasFlushed
  constructor
  · intro hf
    exact ⟨by omega, by omega, hf⟩
  · intro hf
    exact hf.2.2

/-- All items of the key are flushed. -/
def Gone (s : Store Addr) (key : Bytes) : Prop :=
  ∀ b, s.Linked b → s.key b = key → itemIsFlushed s (s.items b) = true

section

omit [DecidableEq Addr] [Fintype Addr]

theorem Gone.missing (h : Gone s key) : s.Missing key := fun b hb hk => .inl (h b hb hk)

theorem itemIsFlushed_congr {it it' : Item} (hc : s'.clock = s.clock)
    (ht : it'.time = it.time) (hca : it'.getCas = it.getCas) :
    itemIsFlushed s' it' = itemIsFlushed s it := by
  simp only [itemIsFlushed, oldestLive_of_clock hc, currentTime_of_clock hc,
    oldestCas_of_clock hc, ht, hca]

end

/-! ## One step -/

variable {exptime : ℤ}

section

omit [DecidableEq Addr] [Fintype Addr]

theorem currentTime_processFlushAll :
    (processFlushAll S s exptime).currentTime = s.currentTime := by
  simp only [processFlushAll]
  split_ifs <;> rfl

theorem oldestLive_processFlushAll :
    (processFlushAll S s exptime).oldestLive = flushTime S s exptime := by
  unfold processFlushAll flushTime
  cases S.useCas
  · rfl
  · simp only [if_true]
    split_ifs <;> rfl

theorem oldestCas_processFlushAll (hu : S.useCas = true)
    (h : flushTime S s exptime ≤ s.currentTime) :
    (processFlushAll S s exptime).oldestCas = s.nextCasId := by
  simp only [flushTime, hu, if_true] at h
  simp only [processFlushAll, hu, if_true, if_pos h]

theorem oldestCas_processFlushAll_of_not (hu : S.useCas = false) :
    (processFlushAll S s exptime).oldestCas = s.oldestCas := by
  simp only [processFlushAll, hu, Bool.false_eq_true, if_false]

theorem flushesNow_flushed (hl : CountersLow s) (hca : S.useCas = true → CasInv s)
    (hn : FlushesNow S s exptime) (hb : s.Linked b) (hf : itemIsFlushed s (s.items b) = true) :
    itemIsFlushed (processFlushAll S s exptime) (s.items b) = true := by
  obtain ⟨hp, hle, ho⟩ := hn
  obtain ⟨-, -, hw⟩ := itemIsFlushed_iff.mp hf
  rw [itemIsFlushed_iff, currentTime_processFlushAll, oldestLive_processFlushAll]
  refine ⟨hp.ne', hle, ?_⟩
  cases hu : S.useCas with
  | true =>
    -- every linked item has a CAS value below the one the flush takes
    right
    unfold CasFlushed
    rw [oldestCas_processFlushAll hu hle, hl.nextCasId]
    have h1 := (hca hu).pos b hb
    have h2 := (hca hu).le b hb
    omega
  | false =>
    obtain ht | hc := hw
    · exact .inl (ht.trans (ho hu))
    right
    unfold CasFlushed at hc ⊢
    rwa [oldestCas_processFlushAll_of_not hu]

end

variable {r : Reply Addr}

/-- A step that does not store a missing key leaves its items as they are: it keeps the clock,
and at most the bump of the item sets its access time; or it only changes the clock. -/
theorem step_keyed (hin : Inv S s) (hlt : CountsLow s) {op : Op Addr}
    (hst : ¬StoresKey S s op key) (hm : s.Missing key)
    (hste : step S s op = some (s', r)) (hb : s'.Linked b) (hk : s'.key b = key) :
    s.Linked b ∧ s.key b = key ∧ (s'.items b).content = (s.items b).content ∧
      (s'.clock = s.clock ∧ ((s'.items b).time = (s.items b).time ∨
          op = .bump b ∧ (s'.items b).time = s.currentTime) ∨
        (∃ now, s.currentTime ≤ now ∧ s' = { s with currentTime := now }) ∨
        ∃ exptime, op = .flushAll exptime ∧ s' = processFlushAll S s exptime) := by
  cases step_change hin hlt hste with
  | serves L T hs hT =>
    obtain ⟨hl, hc, hti⟩ := hs.linked b hb
    have hkb : s.key b = key := (Item.key_eq hc).symm.trans hk
    refine ⟨hl, hkb, hc, .inl ⟨hs.clock, hti.imp_right fun ht => ⟨?_, ht.2⟩⟩⟩
    obtain ⟨-, hli⟩ | ho := hT b ht.1
    · exact absurd (hm b hl hkb) hli
    · exact ho
  | stores L new it hs _ hby =>
    by_cases hn : b = new
    · subst hn
      have hit : it.key = key := hs.key_eq.symm.trans hk
      rw [hit] at hby
      obtain hby | hby := hby
      · exact absurd hby hst
      cases op with
      | addDelta k =>
        obtain ⟨-, a, hh⟩ := hby
        exact absurd (hm a hh.linked hh.key) hh.live
      | _ => exact hby.elim
    · obtain ⟨hl, -, hc, hti⟩ := hs.others b hn hb
      exact ⟨hl, (Item.key_eq hc).symm.trans hk, hc, .inl ⟨hs.clock, .inl hti⟩⟩
  | edits a c n he hli _ =>
    have hl := (he.linked b).mp hb
    by_cases hba : b = a
    · subst hba
      have hkb : s.key b = key := by
        rw [← hk, ← he.key, ← he.item]
        rfl
      exact absurd (hm b hl hkb) hli
    · obtain ⟨hc, hti⟩ := he.others b hba hl
      exact ⟨hl, (Item.key_eq hc).symm.trans hk, hc, .inl ⟨he.clock, .inl hti⟩⟩
  | tick now heq _ hno =>
    subst heq
    exact ⟨hb, hk, rfl, .inr (.inl ⟨now, hno, rfl⟩)⟩
  | flush exptime heq ho =>
    have hi : s'.items = s.items := heq ▸ items_processFlushAll
    rw [Store.Linked, hi] at hb
    rw [Store.key, hi] at hk
    exact ⟨hb, hk, by rw [hi], .inr (.inr ⟨exptime, ho, heq⟩)⟩

theorem step_gone (hi : Inv S s) (hca : S.useCas = true → CasInv s) {op : Op Addr}
    (hok : FlushOk S s op) (hs : ¬StoresKey S s op key)
    (hst : step S s op = some (s', r)) (h : Gone s key) : Gone s' key := by
  obtain ⟨hlo, ho⟩ := hok
  intro b hb hk
  obtain ⟨hl, hkb, hco, hh⟩ :=
    step_keyed hi hlo.1 hs h.missing hst hb hk
  have hf := h b hl hkb
  have hg : (s'.items b).getCas = (s.items b).getCas := Item.proj_eq Item.getCas hco
  obtain ⟨hc, ht | ⟨rfl, ht⟩⟩ | ⟨now, hno, rfl⟩ | ⟨exptime, rfl, rfl⟩ := hh
  · rwa [itemIsFlushed_congr hc ht hg]
  · -- the bump sets the access time to the current time
    obtain ⟨hne, hle, -⟩ := itemIsFlushed_iff.mp hf
    rw [itemIsFlushed_iff, CasFlushed, oldestLive_of_clock hc, currentTime_of_clock hc,
      oldestCas_of_clock hc, hg, ht]
    exact ⟨hne, hle, (ho hl hf).symm⟩
  · obtain ⟨hne, hle, hw⟩ := itemIsFlushed_iff.mp hf
    exact itemIsFlushed_iff.mpr ⟨hne, hle.trans hno, hw⟩
  · rw [items_processFlushAll]
    obtain hno | hn := ho
    · exact flushesNow_flushed hlo hca hno hl hf
    · exact absurd hf (by rw [hn b hl]; decide)

theorem step_missing (hi : Inv S s) (hca : S.useCas = true → CasInv s) {op : Op Addr}
    (ho : FlushOk S s op) (hs : ¬StoresKey S s op key)
    (hst : step S s op = some (s', r)) (h : s.Missing key) : s'.Missing key := by
  intro b hb hk
  obtain ⟨hl, hkb, hco, hh⟩ := step_keyed hi ho.1.1 hs h hst hb hk
  obtain hf | he := h b hl hkb
  · have hg : Gone s key := fun c hc hkc => by
      rwa [hi.eq_of_key hc hl (hkc.trans hkb.symm)]
    exact .inl (step_gone hi hca ho hs hst hg b hb hk)
  right
  have hexp : (s'.items b).exptime = (s.items b).exptime := Item.proj_eq Item.exptime hco
  have ht : s.currentTime ≤ s'.currentTime := by
    obtain ⟨hcl, -⟩ | ⟨now, hn, rfl⟩ | ⟨exptime, -, rfl⟩ := hh
    · exact (currentTime_of_clock hcl).ge
    · exact hn
    · rw [currentTime_processFlushAll]
  simp only [Item.expiredAt, hexp, Bool.and_eq_true, decide_eq_true_eq] at he ⊢
  exact ⟨he.1, he.2.trans ht⟩

/-! ## Runs -/

/-- Once a linked item is flushed, every later lookup of its key misses, in every run
whose steps meet the condition and in which the key is not stored again. -/
theorem flushed_stays_gone (hr : (system Addr S).Reachable (FlushOk S) s) (ha : s.Linked a)
    (hf : itemIsFlushed s (s.items a) = true) {l : List (Op Addr × Reply Addr)}
    (hs : (system Addr S).Steps
      (fun t op => FlushOk S t op ∧ ¬StoresKey S t op (s.key a)) s l s')
    {doUpdate room : Bool} (hget : FlushOk S s' (.get (s.key a) doUpdate room)) :
    (doItemGet S s' (s.key a) doUpdate room).2 = none := by
  have hl : ∀ (t : Store Addr) op, FlushOk S t op → CountersLow t := fun _ _ ho => ho.1
  have hi : Inv S s := reachable_inv (fun t op ho => (hl t op ho).1) hr
  have hc : S.useCas = true → CasInv s := fun hu =>
    (reachable_casInv hu (hr.mono hl)).2
  have hg : Gone s (s.key a) := fun b hb hk => by
    rwa [hi.eq_of_key hb ha hk]
  obtain ⟨hi', -, hg'⟩ := hs.induct
    (P := fun t => Inv S t ∧ (S.useCas = true → CasInv t) ∧ Gone t (s.key a))
    ⟨hi, hc, hg⟩ fun {t op u r} ⟨hi, hc, hg⟩ ⟨ho, hsto⟩ hst =>
      ⟨step_inv hi ho.1.1 hst,
        fun hu => (step_tokens hi (hc hu) hu ho.1 hst).casInv (hc hu),
        step_gone hi hc ho hsto hst hg⟩
  obtain ⟨_, he, -⟩ := doItemGet_of_missing hi' hget.1.1 hg'.missing doUpdate room
  rw [he]

/-- Steps that meet the condition and do not store the key `k`. -/
def FlushOkNotStored (s : Store (Fin 1)) (op : Op (Fin 1)) : Prop :=
  FlushOk smallSettings s op ∧ ¬StoresKey smallSettings s op (ascii "k")

instance (s : Store (Fin 1)) (op : Op (Fin 1)) : Decidable (FlushOkNotStored s op) :=
  inferInstanceAs (Decidable (_ ∧ _))

theorem flushed_stays_gone_touch : ∃ (s s' : Store (Fin 1)) (l : List (Op (Fin 1) × Reply (Fin 1))),
    s.Linked 0 ∧ s.key 0 = ascii "k" ∧ itemIsFlushed s (s.items 0) = true ∧
    s'.Linked 0 ∧ s'.currentTime = 50 ∧
    (system (Fin 1) smallSettings).Steps FlushOkNotStored s l s' ∧
    (doItemGet smallSettings s' (ascii "k") true true).2 = none := by
  have hi := emptyStore_reachable 1 smallSettings (FlushOk smallSettings)
  obtain ⟨s, hs, hl, hk, hf, hr⟩ := hi.exists_of_exec
    (storeOps 0 (ascii "k") (ascii "a\r\n") 0 .set 0 ++ [.flushAll 0])
    (p := fun s => s.Linked 0 ∧ s.key 0 = ascii "k" ∧ itemIsFlushed s (s.items 0) = true ∧
      ((system (Fin 1) smallSettings).exec FlushOkNotStored s
        [.tick 49, .flushAll (-1), .tick 50]).any (fun s' => s'.Linked 0 ∧ s'.currentTime = 50 ∧
          FlushOk smallSettings s' (.get (ascii "k") true true)) = true) (by decide +kernel)
  obtain ⟨s', hs', hl', hn, hge⟩ := System.exists_exec _ _ _ _ _ hr
  obtain ⟨l, hst⟩ := System.Steps.of_exec _ hs'
  rw [← hk] at hge
  have hg := flushed_stays_gone hs hl hf
    (hst.mono fun t op ho => ⟨ho.1, by rw [hk]; exact ho.2⟩) hge
  rw [hk] at hg
  exact ⟨s, s', l, hl, hk, hf, hl', hn, hst, hg⟩

/-- Steps without a counter that wraps that do not store the key `k`. -/
def NotStored (s : Store (Fin 1)) (op : Op (Fin 1)) : Prop :=
  CountersLow s ∧ ¬StoresKey smallSettings s op (ascii "k")

instance (s : Store (Fin 1)) (op : Op (Fin 1)) : Decidable (NotStored s op) :=
  inferInstanceAs (Decidable (_ ∧ _))

/-- A flushed item of the key `k` is found again after the steps `ops`. -/
def ReturnsAfter (ops : List (Op (Fin 1))) : Prop :=
  ∃ s s', (system (Fin 1) smallSettings).Reachable (fun s _ => CountersLow s) s ∧ s.Linked 0 ∧
    s.key 0 = ascii "k" ∧ itemIsFlushed s (s.items 0) = true ∧
    (system (Fin 1) smallSettings).exec NotStored s ops = some s' ∧
    (doItemGet smallSettings s' (ascii "k") true true).2 = some 0

theorem returnsAfter_of_exec (before ops : List (Op (Fin 1)))
    (h : ((system (Fin 1) smallSettings).exec (fun s _ => CountersLow s) (emptyStore 1) before).any
      (fun s => s.Linked 0 ∧ s.key 0 = ascii "k" ∧ itemIsFlushed s (s.items 0) = true ∧
        ((system (Fin 1) smallSettings).exec NotStored s ops).any (fun s' =>
          (doItemGet smallSettings s' (ascii "k") true true).2 = some 0) = true) = true) :
    ReturnsAfter ops := by
  have hi := emptyStore_reachable 1 smallSettings fun s _ => CountersLow s
  obtain ⟨s, hs, hl, hk, hf, hr⟩ := System.exists_exec _ _ _ _ _ h
  obtain ⟨s', hs', hg⟩ := System.exists_exec _ _ _ _ _ hr
  exact ⟨s, s', hi.of_exec _ hs, hl, hk, hf, hs', hg⟩

/-- A value is stored and, with `flush_all`, flushed; `flush_all 100` brings it back. A value
that was read from the cold list is flushed by a delayed `flush_all`; the entry in
the bump buffer brings it back. -/
theorem flushed_item_returns : ReturnsAfter [.flushAll 100] ∧ ReturnsAfter [.bump 0] := by
  constructor
  · exact returnsAfter_of_exec
      (storeOps 0 (ascii "k") (ascii "a\r\n") 0 .set 0 ++ [.flushAll 0]) _ (by decide +kernel)
  exact returnsAfter_of_exec
    (storeOps 0 (ascii "k") (ascii "a\r\n") 0 .set 0 ++
      [.get (ascii "k") true true, .remove 0, .pullTail { id := 1, curLru := .hot } fun _ _ => true,
       .get (ascii "k") true true, .remove 0, .flushAll 5, .tick 10]) _ (by decide +kernel)

end Memcached.Items
