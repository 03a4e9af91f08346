import Memcached.Items.Refcount

/-!
# CAS values identify the contents of items

With CAS values on, everything that changes the value or the client flags of a linked item
gives it the next value of the counter (`Tokens`, for one step). So a value belongs to one
content for the rest of the run (`Since`), and a store that names it replaced this content.

Results:
* `cas_tokens_sound`: a CAS value belongs to one content
* `cas_tokens_broken`: three ways around that
-/

namespace Memcached.Items

open Lib Assoc

variable {Addr : Type*} [DecidableEq Addr] [Fintype Addr] {S : Settings}
  {s s' s'' : Store Addr} {a b : Addr} {key : Bytes}

/-- The hash table finds the item `a` for a key. -/
def Store.Holds (S : Settings) (s : Store Addr) (key : Bytes) (a : Addr) : Prop :=
  assocFind s.key s.assoc key (S.hash key) = some a

/-- What clients get to see of an item, and its key. -/
def Item.face (it : Item) : Bytes × Bytes × ℕ × ℕ := (it.key, it.data, it.flagsConv, it.getCas)

structure CasInv (s : Store Addr) : Prop where
  pos : ∀ a, s.Linked a → 0 < (s.items a).getCas
  le : ∀ a, s.Linked a → (s.items a).getCas ≤ s.casId
  inj : ∀ a b, s.Linked a → s.Linked b → (s.items a).getCas = (s.items b).getCas → a = b

/-- The counters do not wrap in the next step. -/
def CountersLow (s : Store Addr) : Prop := CountsLow s ∧ s.casId + 1 < 2 ^ 64

instance : Decidable (CountersLow s) := inferInstanceAs (Decidable (_ ∧ _))

omit [DecidableEq Addr] [Fintype Addr] in
theorem CountersLow.nextCasId (h : CountersLow s) : s.nextCasId = s.casId + 1 :=
  Nat.mod_eq_of_lt h.2

/-! ## One step -/

/-- The linked items of the new state: old ones, and at most one with the next CAS
value. -/
structure Tokens (s s' : Store Addr) : Prop where
  le : s.casId ≤ s'.casId
  item : ∀ b, s'.Linked b → (s.Linked b ∧ (s'.items b).face = (s.items b).face) ∨
    ((s'.items b).getCas = s.casId + 1 ∧ s.casId + 1 ≤ s'.casId)
  unique : ∀ a b, s'.Linked a → s'.Linked b → (s'.items a).getCas = s.casId + 1 →
    (s'.items b).getCas = s.casId + 1 → a = b

section

omit [Fintype Addr]

theorem Tokens.of_others (h : CasInv s) (hle : s.casId ≤ s'.casId) (a : Addr)
    (hs : s'.Linked a → (s.Linked a ∧ (s'.items a).face = (s.items a).face) ∨
      ((s'.items a).getCas = s.casId + 1 ∧ s.casId + 1 ≤ s'.casId))
    (ho : ∀ b, b ≠ a → s'.Linked b → s.Linked b ∧ (s'.items b).face = (s.items b).face) :
    Tokens s s' := by
  have hol : ∀ b, b ≠ a → s'.Linked b → (s'.items b).getCas ≠ s.casId + 1 := by
    intro b hn hb hcas
    obtain ⟨hl, hf⟩ := ho b hn hb
    have hc' : (s'.items b).getCas = (s.items b).getCas := congrArg (·.2.2.2) hf
    have := h.le b hl
    omega
  refine ⟨hle, fun b hb => ?_, fun b c hb hc hbc hcc => ?_⟩
  · by_cases hn : b = a
    · subst hn
      exact hs hb
    · exact .inl (ho b hn hb)
  have hba : b = a := by
    by_contra hn
    exact hol b hn hb hbc
  have hca : c = a := by
    by_contra hn
    exact hol c hn hc hcc
  rw [hba, hca]

theorem Tokens.of_kept (h : CasInv s) (hle : s.casId ≤ s'.casId)
    (hk : ∀ b, s'.Linked b → s.Linked b ∧ (s'.items b).face = (s.items b).face) :
    Tokens s s' := by
  refine ⟨hle, fun b hb => .inl (hk b hb), fun b _ hb _ hc _ => ?_⟩
  obtain ⟨hl, hf⟩ := hk b hb
  have hc' : (s'.items b).getCas = (s.items b).getCas := congrArg (·.2.2.2) hf
  have := h.le b hl
  omega

end

omit [DecidableEq Addr] [Fintype Addr] in
theorem Tokens.casInv (h : CasInv s) (ht : Tokens s s') : CasInv s' := by
  have ho : ∀ b, s.Linked b → (s'.items b).face = (s.items b).face →
      (s'.items b).getCas = (s.items b).getCas := fun b _ hf => congrArg (·.2.2.2) hf
  refine ⟨fun b hb => ?_, fun b hb => ?_, fun b c hb hc he => ?_⟩
  · obtain ⟨hl, hf⟩ | ⟨hca, -⟩ := ht.item b hb
    · rw [ho b hl hf]
      exact h.pos b hl
    · omega
  · obtain ⟨hl, hf⟩ | ⟨hca, hle⟩ := ht.item b hb
    · rw [ho b hl hf]
      exact (h.le b hl).trans ht.le
    · omega
  obtain ⟨hl, hf⟩ | ⟨hca, -⟩ := ht.item b hb
  · obtain ⟨hl', hf'⟩ | ⟨hc', -⟩ := ht.item c hc
    · rw [ho b hl hf, ho c hl' hf'] at he
      exact h.inj b c hl hl' he
    · exact ht.unique b c hb hc (he.trans hc') hc'
  · exact ht.unique b c hb hc hca (he.symm.trans hca)

theorem face_eq_of_content {it it' : Item} (h : it.content = it'.content) : it.face = it'.face :=
  Item.proj_eq Item.face h

theorem Stores.tokens {L : Addr → Prop} {new : Addr} {it : Item} (hs : Stores S L s s' new it)
    (h : CasInv s) (hu : S.useCas = true) (hlo : CountersLow s)
    (hca : it.flags.cas = S.useCas) : Tokens s s' := by
  have hi : s'.casId = s.casId + 1 := (hs.casId_eq hu hca).trans hlo.nextCasId
  refine .of_others h (by omega) new (fun _ => .inr ⟨?_, hi.ge⟩) fun b hn hb => ?_
  · rw [hs.getCas_eq hu hca, hlo.nextCasId]
  · obtain ⟨hl, -, hc, -⟩ := hs.others b hn hb
    exact ⟨hl, face_eq_of_content hc⟩

theorem Edits.tokens {c : Item} {n : ℕ} (he : Edits S s s' a c n) (hc : EditOf S s a c n)
    (hi : Inv S s) (h : CasInv s) (hu : S.useCas = true) (hlo : CountersLow s) :
    Tokens s s' := by
  have ho : ∀ b, b ≠ a → s'.Linked b →
      s.Linked b ∧ (s'.items b).face = (s.items b).face := by
    intro b hn hb
    have hl := (he.linked b).mp hb
    exact ⟨hl, face_eq_of_content (he.others b hn hl).1⟩
  obtain ⟨exptime, rfl, rfl⟩ | ⟨hcas, hfl, -, rfl, -⟩ := hc
  · refine .of_others h he.casId.ge a (fun _ => .inl ⟨he.self, ?_⟩) ho
    have hf : (s'.items a).content.face = (s.items a).content.face := by
      rw [he.item]
      rfl
    exact hf
  have hca : (s.items a).flags.cas = true :=
    (hi.cas a (hi.not_slabbed_of_linked he.self)).trans hu
  have hid : s'.casId = s.casId + 1 := by
    rw [he.casId, casIdAfter, if_pos ⟨hca, hu⟩, hlo.nextCasId]
  refine .of_others h (by omega) a (fun _ => .inr ⟨?_, hid.ge⟩) ho
  have hg : (s'.items a).content.getCas = s.casId + 1 := by
    rw [he.item, getCas_of_flag (hfl.trans hca), hcas, freshCas, if_pos hca,
      if_pos hu, hlo.nextCasId]
  exact hg

omit [DecidableEq Addr] [Fintype Addr] in
theorem casId_processFlushAll {exptime : ℤ} : (processFlushAll S s exptime).casId = s.casId ∨
    (processFlushAll S s exptime).casId = s.nextCasId := by
  simp only [processFlushAll]
  split_ifs
  all_goals first | exact .inl rfl | exact .inr rfl

theorem step_tokens (hin : Inv S s) (h : CasInv s) (hu : S.useCas = true)
    (hlo : CountersLow s) {op : Op Addr} {r : Reply Addr} (hst : step S s op = some (s', r)) :
    Tokens s s' := by
  cases step_change hin hlo.1 hst with
  | serves L T hs _ =>
    refine .of_kept h hs.casId.ge fun b hb => ?_
    obtain ⟨hl, hco, -⟩ := hs.linked b hb
    exact ⟨hl, face_eq_of_content hco⟩
  | stores L new it hs hca _ => exact hs.tokens h hu hlo hca
  | edits a c n he _ hc => exact he.tokens hc hin h hu hlo
  | tick now heq _ _ =>
    subst heq
    exact .of_kept h le_rfl fun b hb => ⟨hb, rfl⟩
  | flush exptime heq _ =>
    have hid := hlo.nextCasId
    have hi : s'.items = s.items := heq ▸ items_processFlushAll
    have hle : s.casId ≤ s'.casId := by
      obtain heq | heq := heq ▸ casId_processFlushAll <;> omega
    refine .of_kept h hle fun b hb => ?_
    rw [Store.Linked, hi] at hb
    exact ⟨hb, by rw [hi]⟩

/-! ## Runs -/

/-- Items with a CAS value from before the state `s` have the content they had there. -/
structure Since (s s' : Store Addr) : Prop where
  casInv : CasInv s'
  le : s.casId ≤ s'.casId
  item : ∀ b, s'.Linked b → (s'.items b).getCas ≤ s.casId →
    s.Linked b ∧ (s'.items b).face = (s.items b).face

section

omit [DecidableEq Addr] [Fintype Addr]

theorem Since.refl (h : CasInv s) : Since s s := ⟨h, le_rfl, fun _ hb _ => ⟨hb, rfl⟩⟩

theorem Since.tail (h : Since s s') (ht : Tokens s' s'') : Since s s'' := by
  refine ⟨ht.casInv h.casInv, h.le.trans ht.le, fun b hb hle => ?_⟩
  obtain ⟨hl, hf⟩ | ⟨hc, -⟩ := ht.item b hb
  · have hc : (s''.items b).getCas = (s'.items b).getCas := congrArg (·.2.2.2) hf
    obtain ⟨hl', hf'⟩ := h.item b hl (hc ▸ hle)
    exact ⟨hl', hf.trans hf'⟩
  · have := h.le
    omega

theorem Since.face_eq (h : Since s s') (hs : CasInv s) (ha : s.Linked a) (hb : s'.Linked b)
    (he : (s.items a).getCas = (s'.items b).getCas) : (s.items a).face = (s'.items b).face := by
  obtain ⟨hl, hf⟩ := h.item b hb (he ▸ hs.le a ha)
  have hc : (s'.items b).getCas = (s.items b).getCas := congrArg (·.2.2.2) hf
  obtain rfl := hs.inj a b ha hl (he.trans hc)
  exact hf.symm

theorem casInv_of_init (h : Init s) : CasInv s := by
  have hl : ∀ a, ¬s.Linked a := fun a => by simp [Store.Linked, (h.items a).1]
  exact ⟨fun a ha => absurd ha (hl a), fun a ha => absurd ha (hl a), fun a _ ha => absurd ha (hl a)⟩

end

theorem reachable_casInv (hu : S.useCas = true)
    (hr : (system Addr S).Reachable (fun s _ => CountersLow s) s) : Inv S s ∧ CasInv s :=
  hr.induct (P := fun t => Inv S t ∧ CasInv t) (fun _ hi => ⟨inv_of_init hi, casInv_of_init hi⟩)
    fun ⟨hin, h⟩ hl hs =>
      ⟨step_inv hin hl.1 hs, (step_tokens hin h hu hl hs).casInv h⟩

theorem steps_since (hu : S.useCas = true) (hi : Inv S s) (h : CasInv s)
    {l : List (Op Addr × Reply Addr)}
    (hs : (system Addr S).Steps (fun s _ => CountersLow s) s l s') : Inv S s' ∧ Since s s' :=
  hs.induct (P := fun t => Inv S t ∧ Since s t) ⟨hi, .refl h⟩
    fun ⟨hi, h⟩ hl hst =>
      ⟨step_inv hi hl.1 hst, h.tail (step_tokens hi h.casInv hu hl hst)⟩

/-! ## Checked stores -/

/-- A store with a token: `cas`, or a meta set with a `C` token and a mode other than
`E`. -/
def Checked (comm : Comm) : Prop :=
  comm = .cas ∨ ∃ mode, mode ≠ 69 ∧ msetComm mode true = some comm

theorem Checked.ne {comm : Comm} (h : Checked comm) :
    comm = .cas ∨ comm = .append ∨ comm = .prepend := by
  obtain rfl | ⟨mode, hm, he⟩ := h
  · exact .inl rfl
  have hn : mode.toNat ≠ 69 := fun h => hm (UInt8.toNat_inj.mp h)
  unfold msetComm at he
  split at he <;> simp_all

theorem doStoreItem_checked (h : Inv S s) (hlt : CountsLow s) (hr : 0 < s.refs a)
    (hl : ¬s.Linked a) {comm : Comm} (hco : Checked comm) (rounds : ℕ → Round Addr)
    (env : CopyEnv) {cas : Option ℕ}
    (he : doStoreItem S s a comm false rounds env = (s', .stored, cas))
    (hn : (s.items a).getCas ≠ 0) :
    ∃ old, s.Hit (s.key a) old ∧ (s.items old).getCas = (s.items a).getCas ∧
      ∃ L new it, Stores S L s s' new it ∧ it.key = s.key a ∧ it.flags.cas = S.useCas := by
  obtain hmi | ⟨old, hh⟩ := missing_or_hit s (s.key a)
  · obtain ⟨s1, r, cas1, he1, -, hs⟩ :=
      doStoreItem_of_missing h hlt hr hl hmi comm false rounds env
    rw [he] at he1
    obtain ⟨rfl, rfl, rfl⟩ := he1
    obtain rfl | rfl | rfl := hco.ne <;> simp at hs
  refine ⟨old, hh, ?_⟩
  obtain ⟨s1, r, cas1, he1, hs⟩ :=
    doStoreItem_of_hit h hlt hr hl hh comm false rounds env
  rw [he] at he1
  obtain ⟨rfl, rfl, rfl⟩ := he1
  have hc : Concatenates S s s' a old comm env .stored cas →
      (s.items old).getCas = (s.items a).getCas ∧
        ∃ L new it, Stores S L s s' new it ∧ it.key = s.key a ∧ it.flags.cas = S.useCas := by
    rintro (_ | _ | ⟨new, it, hme, hst, hm, -, -⟩)
    simp only [List.mem_cons, hn, false_or, List.not_mem_nil, or_false] at hme
    exact ⟨hme.symm, _, new, it, hst, hm.key.trans hh.key, hm.cas⟩
  obtain rfl | rfl | rfl := hco.ne
  · by_cases hca : (s.items a).getCas = (s.items old).getCas
    · simp only [casTest, if_neg hn, if_pos hca] at hs
      exact ⟨hca.symm, _, a, _, hs.2.2, rfl, h.cas a (h.not_slabbed_of_refs hr)⟩
    · simp [casTest, hn, hca] at hs
  · exact hc hs
  · exact hc hs

/-- In every run whose counters do not wrap, with CAS values on: the CAS values of the
linked items are non-zero, distinct and at most the counter; a key that has one CAS
value at two moments has the same value and client flags; and a checked store
that answers `STORED` replaced the value and flags that were read with its
token, whenever that was. -/
theorem cas_tokens_sound (huse : S.useCas = true)
    (hr : (system Addr S).Reachable (fun s _ => CountersLow s) s) :
    CasInv s ∧ ∀ {l : List (Op Addr × Reply Addr)} {s' : Store Addr},
      (system Addr S).Steps (fun s _ => CountersLow s) s l s' →
      (∀ key a b, s.Holds S key a → s'.Holds S key b →
        (s.items a).getCas = (s'.items b).getCas →
        (s.items a).data = (s'.items b).data ∧ (s.items a).flagsConv = (s'.items b).flagsConv) ∧
      ∀ new comm rounds env s'' cas, Checked comm → CountersLow s' →
        step S s' (.store new comm false rounds env) = some (s'', .stored .stored cas) →
        ∀ a, s.Holds S (s'.key new) a → (s.items a).getCas = (s'.items new).getCas →
          ∃ old b, s'.Holds S (s'.key new) old ∧ s''.Holds S (s'.key new) b ∧
            (s'.items old).data = (s.items a).data ∧
            (s'.items old).flagsConv = (s.items a).flagsConv ∧
            (s'.items old).getCas = (s.items a).getCas ∧
            (s'.items old).getCas < (s''.items b).getCas := by
  obtain ⟨hi, hca⟩ := reachable_casInv huse hr
  refine ⟨hca, fun {l s'} hste => ?_⟩
  obtain ⟨hi', hs⟩ := steps_since huse hi hca hste
  refine ⟨fun key a b ha hb he => ?_, ?_⟩
  · have hf := hs.face_eq hca (hi.find_eq_some_iff.mp ha).1
      (hi'.find_eq_some_iff.mp hb).1 he
    exact ⟨congrArg (·.2.1) hf, congrArg (·.2.2.1) hf⟩
  intro new comm rounds env s'' cas hc hlo hstep a ha he
  obtain ⟨⟨hre, hl⟩, hap⟩ := step_eq hstep
  have hli : s.Linked a := (hi.find_eq_some_iff.mp ha).1
  have hn : (s'.items new).getCas ≠ 0 := he ▸ (hca.pos a hli).ne'
  have hsto : doStoreItem S s' new comm false rounds env = (s'', .stored, cas) := by
    simp only [apply, Prod.mk.injEq, Reply.stored.injEq] at hap
    ext1
    · exact hap.1
    · exact Prod.ext hap.2.1 hap.2.2
  obtain ⟨old, hh, ho, L, b, it, hst, hk, hfl⟩ := doStoreItem_checked hi' hlo.1 hre
    (by simp [Store.Linked, hl]) hc rounds env hsto hn
  have hf := hs.face_eq hca hli hh.linked (he.trans ho.symm)
  refine ⟨old, b, hi'.find_eq_some_iff.mpr ⟨hh.linked, hh.key⟩,
    hst.inv.find_eq_some_iff.mpr ⟨hst.linked, hst.key_eq.trans hk⟩,
    (congrArg (·.2.1) hf).symm, (congrArg (·.2.2.1) hf).symm,
    (congrArg (·.2.2.2) hf).symm, ?_⟩
  rw [hst.getCas_eq huse hfl, hlo.nextCasId]
  exact Nat.lt_succ_of_le (hs.casInv.le old hh.linked)

theorem cas_tokens_sound_cas : ∃ (s s' s'' : Store (Fin 2)) (cas : Option ℕ),
    step smallSettings s' (.store 1 .cas false (slabAt 1) {}) =
      some (s'', .stored .stored cas) ∧
    s.Holds smallSettings (s'.key 1) 0 ∧ (s.items 0).getCas = (s'.items 1).getCas ∧
    CasInv s ∧ ∃ old b, s'.Holds smallSettings (s'.key 1) old ∧
      s''.Holds smallSettings (s'.key 1) b ∧ (s'.items old).data = (s.items 0).data ∧
      (s'.items old).flagsConv = (s.items 0).flagsConv ∧
      (s'.items old).getCas = (s.items 0).getCas ∧
      (s'.items old).getCas < (s''.items b).getCas := by
  have hi := emptyStore_reachable 2 smallSettings fun s _ => CountersLow s
  obtain ⟨s, hs, hh, hc, s', hs', hlo, hk, hc', hr⟩ : ∃ s,
      (system (Fin 2) smallSettings).exec (fun s _ => CountersLow s) (emptyStore 2)
        (storeOps 0 (ascii "k") (ascii "a\r\n") 0 .set 0) = some s ∧
      s.Holds smallSettings (ascii "k") 0 ∧ (s.items 0).getCas = 1 ∧ ∃ s',
      (system (Fin 2) smallSettings).exec (fun s _ => CountersLow s) s
        [.alloc (ascii "k") 0 0 3 (slabAt 1), .fill 1 (ascii "b\r\n") 1] = some s' ∧
      CountersLow s' ∧ s'.key 1 = ascii "k" ∧ (s'.items 1).getCas = 1 ∧
      (step smallSettings s' (.store 1 .cas false (slabAt 1) {})).map (·.2) =
        some (.stored .stored (some 2)) :=
    ⟨_, rfl, rfl, rfl, _, rfl, by decide, rfl, rfl, by decide +kernel⟩
  obtain ⟨⟨s'', _⟩, hst, rfl⟩ := Option.map_eq_some_iff.mp hr
  obtain ⟨l, hl⟩ := System.Steps.of_exec _ hs'
  obtain ⟨hin, ha⟩ := cas_tokens_sound rfl (hi.of_exec _ hs)
  rw [← hk] at hh
  have he := hc.trans hc'.symm
  exact ⟨s, s', s'', some 2, hst, hh, he, hin,
    (ha hl).2 1 .cas _ _ s'' _ (.inl rfl) hlo hst 0 hh he⟩

/-- Three ways around the tokens. A meta set of mode `E` stores with the token of an item
that is gone. After 65536 lookups the item is freed and its memory used again while
the hash table still has it, so that clients find another value with the same
token. After 2^64 stores there is an item with CAS value 0. -/
theorem cas_tokens_broken :
    (∃ (s s' s'' : Store (Fin 1)) (l : List (Op (Fin 1) × Reply (Fin 1))) (cas : Option ℕ),
      (system (Fin 1) smallSettings).Reachable (fun _ _ => True) s ∧
      (system (Fin 1) smallSettings).Steps (fun _ _ => True) s l s' ∧
      msetComm 69 true = some .add ∧
      step smallSettings s' (.store 0 .add false (slabAt 0) {}) =
        some (s'', .stored .stored cas) ∧
      s.Holds smallSettings (s'.key 0) 0 ∧ (s.items 0).getCas = (s'.items 0).getCas ∧
      ∀ old, ¬s'.Holds smallSettings (s'.key 0) old) ∧
    (∃ (s s' : Store (Fin 1)) (l : List (Op (Fin 1) × Reply (Fin 1))),
      (system (Fin 1) smallSettings).Reachable (fun _ _ => True) s ∧
      (system (Fin 1) smallSettings).Steps (fun _ _ => True) s l s' ∧
      s.Holds smallSettings (ascii "k") 0 ∧ s'.Holds smallSettings (ascii "k") 0 ∧
      (s.items 0).getCas = (s'.items 0).getCas ∧ (s.items 0).data ≠ (s'.items 0).data) ∧
    ∃ s : Store (Fin 1), (system (Fin 1) smallSettings).Reachable (fun _ _ => True) s ∧
      s.Linked 0 ∧ (s.items 0).getCas = 0 := by
  have hi := emptyStore_reachable 1 smallSettings fun _ _ => True
  refine ⟨?_, ?_, ?_⟩
  · obtain ⟨s, hs, hh, hca, s', hs', hk, hc', hg, hr⟩ : ∃ s,
        (system (Fin 1) smallSettings).exec (fun _ _ => True) (emptyStore 1)
          (storeOps 0 (ascii "k") (ascii "a\r\n") 0 .set 0) = some s ∧
        s.Holds smallSettings (ascii "k") 0 ∧ (s.items 0).getCas = 1 ∧ ∃ s',
        (system (Fin 1) smallSettings).exec (fun _ _ => True) s
          [.delete (ascii "k"), .alloc (ascii "k") 0 0 3 (slabAt 0),
           .fill 0 (ascii "b\r\n") 1] = some s' ∧
        s'.key 0 = ascii "k" ∧ (s'.items 0).getCas = 1 ∧
        assocFind s'.key s'.assoc (ascii "k") 0 = none ∧
        (step smallSettings s' (.store 0 .add false (slabAt 0) {})).map (·.2) =
          some (.stored .stored (some 2)) :=
      ⟨_, rfl, rfl, rfl, _, rfl, rfl, rfl, by decide +kernel, by decide +kernel⟩
    obtain ⟨⟨s'', _⟩, hst, rfl⟩ := Option.map_eq_some_iff.mp hr
    obtain ⟨l, hl⟩ := System.Steps.of_exec _ hs'
    refine ⟨s, s', s'', l, some 2, hi.of_exec _ hs, hl, rfl, hst, ?_⟩
    rw [hk, hca, hc']
    refine ⟨hh, rfl, fun old ho => ?_⟩
    exact absurd (hg.symm.trans ho) (by simp)
  · obtain ⟨s, hs, hc, hliv, hh, hca, hd, s', hs', hh', hc', hd'⟩ : ∃ s,
        (system (Fin 1) smallSettings).exec (fun _ _ => True) (emptyStore 1)
          (storeOps 0 (ascii "k") (ascii "a\r\n") 0 .set 0) = some s ∧
        (s.items 0).refcount = 1 ∧ ¬s.Dead 0 ∧ s.Holds smallSettings (ascii "k") 0 ∧
        (s.items 0).getCas = 1 ∧ (s.items 0).data = ascii "a\r\n" ∧ ∃ s',
        (system (Fin 1) smallSettings).exec (fun _ _ => True) (wrapped s 0)
          [.alloc (ascii "k") 0 0 3 (slabAt 0), .fill 0 (ascii "b\r\n") 1] = some s' ∧
        s'.Holds smallSettings (ascii "k") 0 ∧ (s'.items 0).getCas = 1 ∧
        (s'.items 0).data = ascii "b\r\n" :=
      ⟨_, rfl, rfl, by unfold Store.Dead; decide, rfl, rfl, rfl, _, rfl, rfl, rfl, rfl⟩
    obtain ⟨l, hl⟩ := steps_wrapped smallSettings (fun _ _ => True) (fun _ => trivial)
      trivial (by rw [hc]; decide) hh hliv
    obtain ⟨l', hl'⟩ := System.Steps.of_exec _ hs'
    refine ⟨s, s', _, hi.of_exec _ hs, hl.trans hl', hh, hh', hca.trans hc'.symm, ?_⟩
    rw [hd, hd']
    decide
  · obtain ⟨l, s, s', hl, hst, -, hli, hca⟩ := steps_casId_zero
    exact ⟨s', (hi.steps (hl.mono fun _ _ _ => trivial)).tail trivial hst, hli, hca⟩

end Memcached.Items
