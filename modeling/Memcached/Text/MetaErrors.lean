import Memcached.Text.MetaEffects
import Memcached.Items.CasTokens

/-!
# Meta commands that fail

A meta command that is answered with `CLIENT_ERROR` is meant to change no item. But an `O`
token that is too long is only noticed when the loop over the flags comes to it: `mg` has
then created its item, or set the expiry time of a `T` token, and `ma` has incremented its
item or created it. `md` looks at its `O` token first.

Results:
* `meta_error_same_items`: which commands change nothing when they fail
* `failed_mg_sets_ttl`: two that do
-/

namespace Memcached.Text

open Lib Assoc Items Util Proto

variable {Addr : Type*} [DecidableEq Addr] [Fintype Addr] {s s' s'' : Store Addr} {a b : Addr}
  {L T : Addr → Prop}

/-! ## The same items -/

/-- The same items are linked, with the same values, flags, expiry times, CAS values and
marks. -/
def SameItems (s s' : Store Addr) : Prop :=
  ∀ b, (s'.Linked b ↔ s.Linked b) ∧ (s.Linked b → (s'.items b).content = (s.items b).content)

instance : Decidable (SameItems s s') := inferInstanceAs (Decidable (∀ _, (_ ↔ _) ∧ (_ → _)))

section

omit [DecidableEq Addr] [Fintype Addr]

theorem SameItems.refl (s : Store Addr) : SameItems s s := fun _ => ⟨Iff.rfl, fun _ => rfl⟩

theorem SameItems.trans (h : SameItems s s') (h' : SameItems s' s'') : SameItems s s'' :=
  fun b => ⟨(h' b).1.trans (h b).1, fun hb =>
    ((h' b).2 ((h b).1.mpr hb)).trans ((h b).2 hb)⟩

theorem SameItems.symm (h : SameItems s s') : SameItems s' s :=
  fun b => ⟨(h b).1.symm, fun hb => ((h b).2 ((h b).1.mp hb)).symm⟩

end

theorem sameItems_of_quiet {S : Settings} (h : Quiet S nothing T s s') : SameItems s s' :=
  fun b =>
    have hl : s'.Linked b ↔ s.Linked b :=
      ⟨h.linked b, fun hb => (h.lost b hb).resolve_right id⟩
    ⟨hl, fun hb => h.content b (h.inv.not_slabbed_of_linked (hl.mpr hb))⟩

theorem sameItems_of_published_iff {S : Settings} (h : Published S L s s') :
    SameItems s s' ↔ ∀ b, s.Linked b → s'.Linked b := by
  constructor
  · exact fun hs b hb => (hs b).1.mpr hb
  · exact fun ha b => ⟨⟨fun hb => (h.linked b hb).1, ha b⟩,
      fun hb => (h.linked b (ha b hb)).2.1⟩

omit [Fintype Addr] in
theorem sameItems_setExptime_iff (hl : s.Linked a) (e : ℕ) :
    SameItems s (setExptime s a e) ↔ (s.items a).exptime = e := by
  constructor
  · intro hs
    have hc := (hs a).2 hl
    rw [items_setExptime, if_pos rfl] at hc
    exact (congrArg Item.exptime hc).symm
  · rintro rfl
    rw [setExptime_self]
    exact .refl s

omit [DecidableEq Addr] [Fintype Addr] in
theorem not_sameItems_of_newCas (hcas : CasInv s) (hlow : CountersLow s) (hl : s'.Linked b)
    (hn : (s'.items b).getCas = s.nextCasId) : ¬SameItems s s' := by
  intro hs
  have hb := (hs b).1.mp hl
  have hle := hcas.le b hb
  rw [← Item.proj_eq Item.getCas ((hs b).2 hb), hn, hlow.nextCasId] at hle
  omega

/-! ## The commands -/

inductive MetaCommand where
  | mg
  | ms
  | md
  | ma
deriving DecidableEq

/-- The answer to a meta command, and to `ms` with its data block. -/
def metaAnswer (S : TextSettings) (env : Env Addr) (s : Store Addr) (t : Tokens) (data : Bytes) :
    MetaCommand → Answer Addr
  | .mg => processMgetCommand S env s t
  | .ms =>
    match (processMsetCommand S.toSettings env s t).next with
    | .nread u =>
      completeNreadAscii S env (processMsetCommand S.toSettings env s t).store u data
    | _ => processMsetCommand S.toSettings env s t
  | .md => processMdeleteCommand S s t
  | .ma => processMarithmeticCommand S env s t

def ClientError (ans : Answer Addr) : Prop := ascii "CLIENT_ERROR" <+: ans.resp.bytes

instance (ans : Answer Addr) : Decidable (ClientError ans) :=
  inferInstanceAs (Decidable (_ <+: _))

section

omit [DecidableEq Addr] [Fintype Addr]

theorem not_clientError {ans : Answer Addr} (h : ans.resp.bytes.head? ≠ some 67) :
    ¬ClientError ans := by
  rintro ⟨rest, hr⟩
  rw [← hr] at h
  exact h rfl

theorem outResp_head {text : Bytes} (h : (outLine text).head? ≠ some 67) (noreply : Bool) :
    (outResp noreply text : Resp Addr).bytes.head? ≠ some 67 := by
  cases noreply
  · exact h
  · exact fun hn => by cases hn

theorem not_clientError_outString {text : Bytes} (h : (outLine text).head? ≠ some 67)
    {noreply : Bool} : ¬ClientError (outString s noreply text) :=
  not_clientError (outResp_head h noreply)

end

theorem head_of_startsWith {p q : Bytes} (hp : p ≠ []) (h : p <+: q) : q.head? = p.head? := by
  obtain ⟨rest, rfl⟩ := h
  obtain ⟨c, p, rfl⟩ := List.exists_cons_of_ne_nil hp
  rfl

theorem nominal_head (S : TextSettings) : nominal S ≠ [] ∧ (nominal S).head? ≠ some 67 := by
  unfold nominal
  cases S.metaResponseOld <;> exact ⟨by decide, by decide⟩

/-- `mg` has come to its item: its flags and its key. -/
def mgetParsed (S : Settings) (s : Store Addr) (t : Tokens) : Option (MetaFlags × Bytes) :=
  if 3 < t.ntokens ∧ t.ntokens ≤ mflagMaxOptLength ∧ (t.tok 1).length ≤ keyMaxLength then
    (metaFlagPreparse (realtime S s) t 2 {}).toOption
  else none

/-- `ma` has come to its item: its flags, its key and its direction. -/
def marithmeticParsed (S : Settings) (s : Store Addr) (t : Tokens) :
    Option (MetaFlags × Bytes × Bool) :=
  if 3 ≤ t.ntokens ∧ t.ntokens ≤ mflagMaxOptLength ∧ (t.tok 1).length ≤ keyMaxLength then
    match metaFlagPreparse (realtime S s) t 2 { delta := 1 } with
    | .error _ => none
    | .ok (of, key) => (marithmeticIncr of).map fun incr => (of, key, incr)
  else none

/-- The condition, for a command that is answered with `CLIENT_ERROR`. `mg` has not come to
its item, or the key has a live item and no `T` token before the one that is too long
gives another expiry time. `ms` has not allocated its item, or nothing was evicted for
it. `ma` has not come to its item, or the key has a live one that it refuses, or none
at all and it is not to create one. -/
def FailsCleanly (S : TextSettings) (env : Env Addr) (s : Store Addr) (t : Tokens) :
    MetaCommand → Prop
  | .mg => ∀ of key, mgetParsed S.toSettings s t = some (of, key) → ∃ a, s.Hit key a ∧
      (setsTtl (t.toks.drop 2) = true → (s.items a).exptime = of.exptime)
  | .ms => ∀ vlen of key comm s' it,
      parseMset (realtime S.toSettings s) t = .upload vlen of key comm →
      doItemAlloc S.toSettings s key of.clientFlags of.exptime vlen env.rounds = (s', some it) →
      ∀ b, s.Linked b → s'.Linked b
  | .md => True
  | .ma => ∀ of key incr, marithmeticParsed S.toSettings s t = some (of, key, incr) →
      (∃ a, s.Hit key a ∧ (s.items a).NoDelta of.reqCasId) ∨
        of.vivify = false ∧ ∀ b, s.Linked b → s.key b ≠ key

/-- What is proved for each command: the condition is enough, and with CAS values it is
exact. -/
def Exact (S : Settings) (clean : Prop) (s s' : Store Addr) : Prop :=
  (clean → SameItems s s') ∧ (S.useCas = true → SameItems s s' → clean)

section

omit [DecidableEq Addr] [Fintype Addr]

theorem Exact.of_same {S : Settings} {clean : Prop} (hc : clean) (h : SameItems s s') :
    Exact S clean s s' := ⟨fun _ => h, fun _ _ => hc⟩

theorem Exact.of_changed {S : Settings} {clean : Prop} (hc : ¬clean)
    (h : S.useCas = true → ¬SameItems s s') : Exact S clean s s' :=
  ⟨fun hcl => absurd hcl hc, fun hu hs => absurd hs (h hu)⟩

end

/-! ## `mg` -/

variable {S : TextSettings} {env : Env Addr} {t : Tokens}

theorem processMgetCommand_unparsed (h : mgetParsed S.toSettings s t = none) :
    (processMgetCommand S env s t).store = s := by
  unfold processMgetCommand
  split_ifs with h1 h2 h3 h4
  · rfl
  · rfl
  · rfl
  · rfl
  rw [mgetParsed, if_pos ⟨by omega, by omega, by omega⟩] at h
  rcases hp : metaFlagPreparse (realtime S.toSettings s) t 2 {} with e | ⟨of, key⟩
  · simp only
    rfl
  · rw [hp] at h
    cases h

variable {of : MetaFlags} {key : Bytes}

theorem processMgetCommand_parsed (h : mgetParsed S.toSettings s t = some (of, key)) :
    processMgetCommand S env s t = mgetAnswer S env s of key (t.toks.drop 2) := by
  unfold mgetParsed at h
  split_ifs at h with hc
  obtain ⟨h1, h2, h3⟩ := hc
  rcases hp : metaFlagPreparse (realtime S.toSettings s) t 2 {} with e | r
  · rw [hp] at h
    cases h
  rw [hp] at h
  obtain rfl : r = (of, key) := Option.some.inj h
  unfold processMgetCommand
  rw [if_neg (by omega), if_neg (by omega), if_neg (by omega), if_neg (by omega)]
  simp only [hp]

theorem metaStart_head (S : TextSettings) (value : Bool) (n : Bytes) :
    (if value then ascii "VA " ++ n else nominal S) ≠ [] ∧
      (if value then ascii "VA " ++ n else nominal S).head? ≠ some 67 := by
  cases value
  · exact nominal_head S
  · exact ⟨by simp [ascii], by simp [ascii]⟩

theorem mget_flags_error {created : Bool} (hparsed : mgetParsed S.toSettings s t = some (of, key))
    (hi : mgetItem S.toSettings env s of key = (s', some a, created, false))
    (herr : ClientError (processMgetCommand S env s t)) :
    (processMgetCommand S env s t).store =
      releaseRef (flagsStore of a created (t.toks.drop 2) s') a := by
  rw [processMgetCommand_parsed hparsed, mgetAnswer, hi] at herr ⊢
  simp only at herr ⊢
  set start := if of.value then ascii "VA " ++ itoaU64 ((s'.items a).nbytes - 2) else nominal S
    with hst
  obtain ⟨hs, -, hp⟩ := mgetFlags_spec a of created
    (t.toks.drop 2) { store := s', p := start }
  rcases hf : mgetFlags of a created (t.toks.drop 2) { store := s', p := start } with ⟨m, ok⟩
  rw [hf] at hs hp herr
  cases ok with
  | false =>
    simp only at hs ⊢
    rw [hs]
    rfl
  | true =>
    refine absurd herr (not_clientError ?_)
    obtain ⟨hn, hh⟩ := metaStart_head S of.value (itoaU64 ((s'.items a).nbytes - 2))
    rw [← hst] at hn hh
    have hp' : start <+: (mgetMarks m a).p := by
      simp only [mgetMarks, List.append_assoc]
      exact hp.trans (List.prefix_append _ _)
    simp only
    rw [List.append_assoc, head_of_startsWith hn (hp'.trans (List.prefix_append _ _))]
    exact hh

theorem not_sameItems_of_item {S : Settings} (hcas : CasInv s) (hlow : CountersLow s)
    (hi' : Inv S s') (hr : 0 < s'.refs a) (e : ℕ) (hl : s'.Linked b)
    (hn : (s'.items b).getCas = s.nextCasId) :
    ¬SameItems s (releaseRef (setExptime s' a e) a) := by
  have hre := sameItems_of_quiet (releaseRef_quiet (a := a) (setExptime_inv hi' hr e) hr)
  have hl' : (setExptime s' a e).Linked b := (linked_setExptime e).mpr hl
  refine not_sameItems_of_newCas hcas hlow ((hre b).1.mpr hl') ?_
  rw [Item.proj_eq Item.getCas ((hre b).2 hl'),
    proj_of_items Item.getCas (items_setExptime (s := s') (a := a) e) rfl b]
  exact hn

theorem mget_exact (hinv : Inv S.toSettings s) (hlow : CountersLow s)
    (hcas : S.useCas = true → CasInv s) (env : Env Addr) (t : Tokens)
    (herr : ClientError (processMgetCommand S env s t)) :
    Exact S.toSettings (FailsCleanly S env s t .mg) s (processMgetCommand S env s t).store := by
  rcases hparsed : mgetParsed S.toSettings s t with _ | ⟨of, key⟩
  · rw [processMgetCommand_unparsed hparsed]
    refine .of_same (fun of key h => ?_) (.refl s)
    rw [hparsed] at h
    cases h
  have hc : FailsCleanly S env s t .mg ↔ ∃ a, s.Hit key a ∧
      (setsTtl (t.toks.drop 2) = true → (s.items a).exptime = of.exptime) := by
    constructor
    · exact fun h => h of key hparsed
    intro h of' key' heq
    rw [hparsed] at heq
    cases heq
    exact h
  have hf := mgetItem_found hinv hlow.1 env of key
  rcases hi : mgetItem S.toSettings env s of key with ⟨s1, it, created, overflow⟩
  rw [hi] at hf
  cases hf with
  | overflow | miss =>
    rw [processMgetCommand_parsed hparsed, mgetAnswer, hi] at herr
    exact absurd herr (not_clientError_outString (by decide))
  | hit _ a hh hq hr =>
    rw [mget_flags_error hparsed hi herr, flagsStore_old]
    have hl1 : s1.Linked a := (hq.lost a hh.linked).resolve_right id
    have hs := sameItems_of_quiet hq
    have hexp : (s1.items a).exptime = (s.items a).exptime :=
      Item.proj_eq Item.exptime ((hs a).2 hh.linked)
    have hif : SameItems s (releaseRef (if setsTtl (t.toks.drop 2) = true then
        setExptime s1 a of.exptime else s1) a) ↔
        (setsTtl (t.toks.drop 2) = true → (s.items a).exptime = of.exptime) := by
      by_cases hT : setsTtl (t.toks.drop 2) = true
      · simp only [hT, if_true, true_imp_iff, ← hexp]
        have hre := sameItems_of_quiet (releaseRef_quiet (a := a)
          (setExptime_inv hq.inv hr of.exptime) hr)
        rw [← sameItems_setExptime_iff hl1]
        exact ⟨fun h => hs.symm.trans (h.trans hre.symm), fun h => hs.trans (h.trans hre)⟩
      · rw [if_neg hT]
        exact iff_of_true (hs.trans (sameItems_of_quiet (releaseRef_quiet hq.inv hr)))
          fun h => absurd h hT
    have ho : FailsCleanly S env s t .mg ↔
        (setsTtl (t.toks.drop 2) = true → (s.items a).exptime = of.exptime) := by
      rw [hc]
      constructor
      · rintro ⟨a', hh', he'⟩
        obtain rfl : a' = a :=
          hinv.eq_of_key hh'.linked hh.linked (hh'.key.trans hh.key.symm)
        exact he'
      · exact fun h => ⟨a, hh, h⟩
    exact ⟨fun h => hif.mpr (ho.mp h), fun _ h => ho.mpr (hif.mp h)⟩
  | created _ a it L hm hst hca _ _ _ hr =>
    rw [mget_flags_error hparsed hi herr]
    refine .of_changed ?_ fun hu => ?_
    · rw [hc]
      rintro ⟨a', hh', -⟩
      exact hh'.live (hm a' hh'.linked hh'.key)
    · obtain ⟨e, he⟩ := flagsStore_exptime a of true (t.toks.drop 2) s1
      rw [he]
      exact not_sameItems_of_item (hcas hu) hlow hst.inv hr e hst.linked
        (hst.getCas_eq hu hca)

/-! ## `ms` and `md` -/

theorem allocError_head (S : Settings) (nkey flags nbytes : ℕ) :
    (outLine (allocError S nkey flags nbytes)).head? ≠ some 67 := by
  unfold allocError
  split_ifs <;> decide

/-- Where `ms` leaves its answer: with nothing done, with an error that is none of the
client's, or with an item that waits for its data. -/
theorem processMsetCommand_cases {S : Settings} (hinv : Inv S s) (hl : CountsLow s)
    (env : Env Addr) (t : Tokens) :
    ((∀ vlen of key comm, parseMset (realtime S s) t ≠ .upload vlen of key comm) ∧
        (processMsetCommand S env s t).store = s ∧
        ∀ u, (processMsetCommand S env s t).next ≠ .nread u) ∨
      (¬ClientError (processMsetCommand S env s t) ∧
        ∀ u, (processMsetCommand S env s t).next ≠ .nread u) ∨
      ∃ vlen of key comm s' it u, parseMset (realtime S s) t = .upload vlen of key comm ∧
        doItemAlloc S s key of.clientFlags of.exptime vlen env.rounds = (s', some it) ∧
        (processMsetCommand S env s t).next = .nread u ∧
        (∀ b, (processMsetCommand S env s t).store.Linked b ↔ s'.Linked b) ∧
        Created S (Lockable S env.rounds s) s (processMsetCommand S env s t).store u.item key
          of.keyBinary := by
  unfold processMsetCommand
  rcases hp : parseMset (realtime S s) t with text | ⟨vlen, text⟩ | ⟨vlen, of, key, comm⟩
  · exact .inl ⟨fun _ _ _ _ => by simp, rfl, fun _ => by simp [outErrstring, outString]⟩
  · exact .inl ⟨fun _ _ _ _ => by simp, rfl, fun _ => by simp⟩
  simp only
  rcases ha : doItemAlloc S s key of.clientFlags of.exptime vlen env.rounds with ⟨s1, _ | it⟩
  · refine .inr (.inl ⟨not_clientError ?_, fun _ => by simp⟩)
    exact allocError_head S key.length of.clientFlags vlen
  have hc := (doItemAlloc_created hinv hl ha).setCas of.reqCasId
  have hs : ∀ b, (setCas s1 it of.reqCasId).Linked b ↔ s1.Linked b := fun b =>
    Eq.congr_left (proj_of_items (fun it => it.flags.linked) (items_setCas _) (by split <;> rfl) b)
  refine .inr (.inr ⟨vlen, of, key, comm, s1, it, _, rfl, ha, rfl, ?_⟩)
  simp only [msetUpload]
  cases of.keyBinary
  · exact ⟨hs, hc⟩
  · refine ⟨fun b => Iff.trans ?_ (hs b), hc.setKeyBinary⟩
    show (setKeyBinary _ it).Linked b ↔ _
    exact Eq.congr_left (proj_of_items (fun it => it.flags.linked) (items_modify _) (by rfl) b)

theorem mset_exact (hinv : Inv S.toSettings s) (hlt : CountsLow s)
    (env : Env Addr) (t : Tokens) (data : Bytes)
    (herr : ClientError (metaAnswer S env s t data .ms)) :
    Exact S.toSettings (FailsCleanly S env s t .ms) s (metaAnswer S env s t data .ms).store := by
  have ho : ∀ {ans : Answer Addr}, (∀ u, ans.next ≠ .nread u) →
      (match ans.next with
        | .nread u => completeNreadAscii S env ans.store u data
        | _ => ans) = ans := by
    intro ans h
    obtain ⟨s1, resp, next⟩ := ans
    cases next with
    | nread u => exact absurd rfl (h u)
    | _ => rfl
  rcases processMsetCommand_cases hinv hlt env t with
    ⟨hup, hs, hn⟩ | ⟨hno, hn⟩ | ⟨vlen, of, key, comm, s0, it, u, hup, ha, hn, hs0, hc⟩
  · rw [metaAnswer, ho hn, hs]
    exact .of_same (fun _ _ _ _ _ _ hu => absurd hu (hup _ _ _ _)) (.refl s)
  · rw [metaAnswer, ho hn] at herr
    exact absurd herr hno
  simp only [metaAnswer, hn] at herr ⊢
  set s1 := (processMsetCommand S.toSettings env s t).store with hs1
  by_cases hb : lastTwo data ≠ ascii "\r\n"
  · have hst : (completeNreadAscii S env s1 u data).store =
        releaseRef (setData s1 u.item data) u.item := by
      simp only [completeNreadAscii, completeChecked, hb, decide_false, Bool.false_eq_true,
        if_false]
      rfl
    have hd := hc.setData data
    have hr := releaseRef_quiet hd.published.inv hd.refs
    rw [hst]
    have hl : ∀ b, (releaseRef (setData s1 u.item data) u.item).Linked b ↔ s1.Linked b := by
      intro b
      rw [(sameItems_of_quiet hr b).1]
      exact Eq.congr_left (proj_of_items (fun it => it.flags.linked) (items_setData data) rfl b)
    have hi : SameItems s (releaseRef (setData s1 u.item data) u.item) ↔
        FailsCleanly S env s t .ms := by
      rw [sameItems_of_published_iff (hd.published.trans hr.published)]
      simp only [hl, hs0]
      refine ⟨fun h vlen' of' key' comm' s2 it' hup' ha' => ?_, fun h => h _ _ _ _ _ _ hup ha⟩
      rw [hup] at hup'
      cases hup'
      rw [ha] at ha'
      cases ha'
      exact h
    exact ⟨hi.mpr, fun _ => hi.mp⟩
  · refine absurd herr (not_clientError ?_)
    rw [ne_eq, not_not] at hb
    simp only [completeNreadAscii, completeChecked, hb, decide_true, if_true]
    rcases doStoreItem S.toSettings (setData s1 u.item data) u.item u.cmd u.setStale env.rounds'
      env.copy with ⟨s2, ret, cas⟩
    cases u.msetRes with
    | none =>
      have hh : (outLine (storedText ret)).head? ≠ some 67 := by cases ret <;> decide
      exact outResp_head hh u.noreply
    | some stash =>
      simp only [finalizeMset, List.append_assoc]
      cases ret
      · simp [ascii]
      · cases S.metaResponseOld <;> simp [ascii]
      · simp [ascii]
      · simp [ascii]

theorem mdelete_unchanged (s : Store Addr) (t : Tokens)
    (herr : ClientError (processMdeleteCommand S s t)) :
    (processMdeleteCommand S s t).store = s := by
  revert herr
  unfold processMdeleteCommand
  split_ifs with h1 h2 h3
  · exact fun _ => rfl
  · exact fun _ => rfl
  · exact fun _ => rfl
  obtain e | ⟨of, key⟩ := metaFlagPreparse (realtime S.toSettings s) t 2 {}
  · exact fun _ => rfl
  simp only
  obtain _ | flags := echoFlags of key (t.toks.drop 2)
  · exact fun _ => rfl
  refine fun herr => absurd herr (not_clientError ?_)
  simp only [List.append_assoc]
  obtain ⟨hn, hh⟩ := nominal_head S
  obtain ⟨s1, result⟩ := (processMdelete S.toSettings s key _ _ _)
  cases result with
  | notFound => simp [ascii]
  | «exists» => simp [ascii]
  | done =>
    rw [head_of_startsWith hn (List.prefix_append _ _)]
    exact hh

/-! ## `ma` -/

theorem processMarithmeticCommand_unparsed (h : marithmeticParsed S.toSettings s t = none) :
    (processMarithmeticCommand S env s t).store = s := by
  unfold processMarithmeticCommand
  split_ifs with h1 h2 h3
  · rfl
  · rfl
  · rfl
  rw [marithmeticParsed, if_pos ⟨by omega, by omega, by omega⟩] at h
  rcases hp : metaFlagPreparse (realtime S.toSettings s) t 2 { delta := 1 } with e | ⟨of, key⟩
  · simp only
    rfl
  simp only [hp] at h ⊢
  rcases hi : marithmeticIncr of with _ | incr
  · rfl
  · rw [hi] at h
    cases h

theorem processMarithmeticCommand_parsed {incr : Bool} {reply : DeltaReply Addr}
    (h : marithmeticParsed S.toSettings s t = some (of, key, incr))
    (hd : doAddDelta S.toSettings s key incr of.delta of.reqCasId true env.rounds =
      (s', reply)) :
    processMarithmeticCommand S env s t =
      marithmeticAnswer S env s' of key (t.toks.drop 2) reply := by
  unfold marithmeticParsed at h
  split_ifs at h with hc
  obtain ⟨h1, h2, h3⟩ := hc
  rcases hp : metaFlagPreparse (realtime S.toSettings s) t 2 { delta := 1 } with e | ⟨of', key'⟩
  · rw [hp] at h
    cases h
  simp only [hp] at h
  obtain ⟨incr', hi, he⟩ := Option.map_eq_some_iff.mp h
  cases he
  unfold processMarithmeticCommand
  rw [if_neg (by omega), if_neg (by omega), if_neg (by omega)]
  simp only [hp, hi, hd]

omit [Fintype Addr] in
theorem marithmeticItem_store (S : TextSettings) (s : Store Addr) (a : Addr) (of : MetaFlags)
    (key : Bytes) (tokens : List Bytes) (created skip : Bool) (value : Bytes) :
    ∃ e, (marithmeticItem S s of key tokens a created skip value).store =
      releaseRef (setExptime s a e) a := by
  obtain ⟨e, he⟩ := flagsStore_exptime a of created tokens s
  refine ⟨e, ?_⟩
  unfold marithmeticItem
  simp only
  set start := if of.value then ascii "VA " ++ itoaU64 value.length else nominal S
  obtain ⟨hs, -, -⟩ := marithmeticFlags_spec a of key created tokens (s, start)
  rcases hf : marithmeticFlags of key a created tokens (s, start) with ⟨⟨s1, p⟩, ok⟩
  rw [hf] at hs
  obtain rfl : s1 = setExptime s a e := hs.trans he
  cases ok <;> rfl

omit [DecidableEq Addr] [Fintype Addr] in
theorem marithmeticMiss_store {tokens : List Bytes}
    {status : Bytes} : (marithmeticMiss s of key tokens status).store = s := by
  unfold marithmeticMiss
  obtain _ | flags := echoFlags of key tokens <;> rfl

section Marithmetic

variable {incr : Bool} (hparsed : marithmeticParsed S.toSettings s t = some (of, key, incr))

include hparsed

theorem failsCleanly_ma_iff (env : Env Addr) :
    FailsCleanly S env s t .ma ↔ (∃ a, s.Hit key a ∧ (s.items a).NoDelta of.reqCasId) ∨
      of.vivify = false ∧ ∀ b, s.Linked b → s.key b ≠ key := by
  refine ⟨fun h => h of key incr hparsed, fun h of' key' incr' he => ?_⟩
  rw [hparsed] at he
  cases he
  exact h

variable (hinv : Inv S.toSettings s) (hlow : CountersLow s) (hcas : S.useCas = true → CasInv s)
  (herr : ClientError (processMarithmeticCommand S env s t))

include hinv hlow hcas herr

theorem marithmetic_exact_of_missing (hm : s.Missing key) :
    Exact S.toSettings (FailsCleanly S env s t .ma) s
      (processMarithmeticCommand S env s t).store := by
  rcases hd : doAddDelta S.toSettings s key incr of.delta of.reqCasId true env.rounds with
    ⟨s1, reply⟩
  have hcl := failsCleanly_ma_iff hparsed env
  have hno : ∀ b, ¬s.Hit key b := fun b hb => hb.live (hm b hb.linked hb.key)
  rw [processMarithmeticCommand_parsed hparsed hd, marithmeticAnswer] at herr ⊢
  obtain ⟨s2, hg, hq, hl2, hn⟩ := doItemGet_miss hinv hlow.1 hm false false
  have hre : s1 = s2 ∧ reply = { result := .itemNotFound } := by
    simp only [doAddDelta, doAddDeltaIn, hg] at hd
    cases hd
    exact ⟨rfl, rfl⟩
  obtain ⟨rfl, rfl⟩ := hre
  simp only at herr ⊢
  by_cases hv : of.vivify = true
  · rw [if_pos hv] at herr ⊢
    have hdi : ¬FailsCleanly S env s t .ma := by
      rw [hcl]
      rintro (⟨b, hb, -⟩ | ⟨h, -⟩)
      · exact hno b hb
      · rw [hv] at h
        cases h
    rcases ha : doItemAlloc S.toSettings s1 key 0 0 ((itoaU64 of.initial).length + 2)
      (lockHeld (S.hash key) env.rounds) with ⟨s2, _ | a⟩
    · rw [ha] at herr
      exact absurd herr (not_clientError_outString (by decide))
    obtain ⟨hc, s4, cas, hs, hr, hsp⟩ := add_new hq.inv hl2 hn ha
      (itoaU64 of.initial ++ ascii "\r\n") env.rounds' env.copy
    simp only
    rw [hs]
    obtain ⟨e, he⟩ := marithmeticItem_store S s4 a of key (t.toks.drop 2)
      (decide (StoreItemType.stored ≠ .notStored)) false (itoaU64 of.initial)
    simp only
    rw [he]
    refine .of_changed hdi fun hu => ?_
    have hst := Stores.of_published (hq.published.trans hc.published) hsp
    exact not_sameItems_of_item (hcas hu) hlow hst.inv hr e hst.linked (hst.getCas_eq hu
      (hc.published.inv.cas a (hc.published.inv.not_slabbed_of_refs hc.refs)))
  · rw [if_neg hv] at herr ⊢
    rw [marithmeticMiss_store]
    have hi : SameItems s s1 ↔ FailsCleanly S env s t .ma := by
      rw [sameItems_of_published_iff hq.published, hcl]
      constructor
      · intro h
        refine .inr ⟨Bool.eq_false_iff.mpr hv, fun b hb hk => ?_⟩
        exact hn b (h b hb) ((hq.published.key_eq (h b hb)).trans hk)
      · rintro (⟨b', hb', -⟩ | ⟨-, h⟩) b hb
        · exact absurd hb' (hno b')
        · exact (hq.lost b hb).resolve_right fun hl => h b hb hl.1
    exact ⟨hi.mpr, fun _ => hi.mp⟩

theorem marithmetic_exact_of_hit (hh : s.Hit key a) :
    Exact S.toSettings (FailsCleanly S env s t .ma) s
      (processMarithmeticCommand S env s t).store := by
  rcases hd : doAddDelta S.toSettings s key incr of.delta of.reqCasId true env.rounds with
    ⟨s1, reply⟩
  have hcl : FailsCleanly S env s t .ma ↔
      reply.result = .nonNumeric ∨ reply.result = .casMismatch := by
    have hre := doAddDelta_refused_iff hinv hlow.1 hh incr of.delta of.reqCasId true env.rounds
    rw [hd] at hre
    rw [failsCleanly_ma_iff hparsed env, ← hre]
    refine ⟨?_, fun h => .inl ⟨a, hh, h⟩⟩
    rintro (⟨b, hb, hn⟩ | ⟨-, h⟩)
    · obtain rfl := hinv.eq_of_key hb.linked hh.linked (hb.key.trans hh.key.symm)
      exact hn
    · exact absurd hh.key (h a hh.linked)
  rw [processMarithmeticCommand_parsed hparsed hd, marithmeticAnswer] at herr ⊢
  obtain ⟨s2, reply', heq, ho, -⟩ := doAddDelta_outcome hinv hlow.1 hh incr of.delta
    of.reqCasId true env.rounds
  rw [hd] at heq
  cases heq
  have hn : reply.result = .ok → ¬FailsCleanly S env s t .ma := by
    intro hok
    rw [hcl, hok]
    rintro (h | h) <;> cases h
  cases ho with
  | refused hre hq =>
    refine .of_same (hcl.mpr hre) ?_
    obtain hre | hre := hre
    · simp only [hre]
      exact sameItems_of_quiet hq
    · simp only [hre, marithmeticMiss_store]
      exact sameItems_of_quiet hq
  | noMemory hre hp =>
    simp only [hre] at herr
    exact absurd herr (not_clientError_outString (by decide))
  | edited buf hre he hk =>
    obtain ⟨hret, hr⟩ := hk rfl
    simp only [hre, hret]
    obtain ⟨e, hs⟩ := marithmeticItem_store S s1 a of key (t.toks.drop 2) false of.noReply
      reply.value
    rw [hs]
    refine .of_changed (hn hre) fun hu => ?_
    refine not_sameItems_of_item (hcas hu) hlow he.inv hr e ((he.linked a).mpr he.self) ?_
    have hf := (hinv.cas a (hinv.not_slabbed_of_linked hh.linked)).trans hu
    have hc : (s1.items a).content = Item.content { s.items a with
        data := paddedData (s.items a) buf, casUnique := freshCas S.toSettings s a } := he.item
    rw [Item.proj_eq Item.getCas hc]
    simp [Item.getCas, freshCas, hf, hu]
  | replaced value new it' hre _ _ hne hst hm _ hk =>
    obtain ⟨hret, hr⟩ := hk rfl
    simp only [hre, hret]
    obtain ⟨e, hs⟩ := marithmeticItem_store S s1 a of key (t.toks.drop 2) false of.noReply
      reply.value
    rw [hs]
    refine .of_changed (hn hre) fun hu => ?_
    exact not_sameItems_of_item (hcas hu) hlow hst.inv hr e hst.linked
      (hst.getCas_eq hu hm.cas)

end Marithmetic

theorem marithmetic_exact (hinv : Inv S.toSettings s) (hlow : CountersLow s)
    (hcas : S.useCas = true → CasInv s) (env : Env Addr) (t : Tokens)
    (herr : ClientError (processMarithmeticCommand S env s t)) :
    Exact S.toSettings (FailsCleanly S env s t .ma) s
      (processMarithmeticCommand S env s t).store := by
  rcases hparsed : marithmeticParsed S.toSettings s t with _ | ⟨of, key, incr⟩
  · rw [processMarithmeticCommand_unparsed hparsed]
    refine .of_same (fun of key incr h => ?_) (.refl s)
    rw [hparsed] at h
    cases h
  obtain hm | ⟨a, hh⟩ := missing_or_hit s key
  · exact marithmetic_exact_of_missing hparsed hinv hlow hcas herr hm
  · exact marithmetic_exact_of_hit hparsed hinv hlow hcas herr hh

/-! ## All commands -/

/-- **Errors.** A meta command, with any flags in any order, that is answered with
`CLIENT_ERROR` changes no item if it fails cleanly; and where items have CAS values, it
changes none only if it fails cleanly. -/
theorem meta_error_same_items {S : TextSettings} (hinv : Inv S.toSettings s)
    (hlow : CountersLow s) (hcas : S.useCas = true → CasInv s) (env : Env Addr) (t : Tokens)
    (data : Bytes) (cmd : MetaCommand) (herr : ClientError (metaAnswer S env s t data cmd)) :
    (FailsCleanly S env s t cmd → SameItems s (metaAnswer S env s t data cmd).store) ∧
      (S.useCas = true → SameItems s (metaAnswer S env s t data cmd).store →
        FailsCleanly S env s t cmd) := by
  cases cmd with
  | mg => exact mget_exact hinv hlow hcas env t herr
  | ms => exact mset_exact hinv hlow.1 env t data herr
  | md =>
    rw [metaAnswer, mdelete_unchanged s t herr]
    exact Exact.of_same (S := S.toSettings) trivial (.refl s)
  | ma => exact marithmetic_exact hinv hlow hcas env t herr

def longOpaque : Bytes := List.replicate 33 79

def oneRoom : Env (Fin 1) := ⟨fun _ => true, slabAt 0, slabAt 0, {}⟩

def numberStored : List (Op (Fin 1)) := storeOps 0 (ascii "n") (ascii "5\r\n") 0 .set 0

/-- `mg n t` with an opaque token that is too long. -/
theorem meta_error_same_items_mg : ∃ s : Store (Fin 1), s.Linked 0 ∧
    ClientError (metaAnswer textSettings oneRoom s
      ⟨[ascii "mg", ascii "n", ascii "t", longOpaque], none⟩ [] .mg) ∧
    SameItems s (metaAnswer textSettings oneRoom s
      ⟨[ascii "mg", ascii "n", ascii "t", longOpaque], none⟩ [] .mg).store := by
  have hi := emptyStore_reachable 1 smallSettings fun s _ => CountersLow s
  obtain ⟨s, hs, hlow, hh, herr, hparsed⟩ := hi.exists_of_exec numberStored
    (p := fun s => CountersLow s ∧ s.Hit (ascii "n") 0 ∧
      ClientError (metaAnswer textSettings oneRoom s
        ⟨[ascii "mg", ascii "n", ascii "t", longOpaque], none⟩ [] .mg) ∧
      mgetParsed smallSettings s ⟨[ascii "mg", ascii "n", ascii "t", longOpaque], none⟩ =
        some ({}, ascii "n")) (by decide +kernel)
  obtain ⟨hinv, hcas⟩ := reachable_casInv rfl hs
  refine ⟨s, hh.linked, herr,
    (meta_error_same_items (S := textSettings) hinv hlow (fun _ => hcas) oneRoom _ [] .mg
      herr).1 ?_⟩
  intro of key he
  rw [show mgetParsed textSettings.toSettings s
    ⟨[ascii "mg", ascii "n", ascii "t", longOpaque], none⟩ = _ from hparsed] at he
  cases he
  exact ⟨0, hh, fun h => absurd h (by decide)⟩

/-- `mg n T100` with an opaque token that is too long sets the expiry time, and `ma n` with
one increments the value; both are answered with `CLIENT_ERROR`. -/
theorem failed_mg_sets_ttl : ∃ s : Store (Fin 1),
    (system (Fin 1) smallSettings).Reachable (fun s _ => CountersLow s) s ∧ CountersLow s ∧
    (ClientError (metaAnswer textSettings oneRoom s
        ⟨[ascii "mg", ascii "n", ascii "T100", longOpaque], none⟩ [] .mg) ∧
      ¬SameItems s (metaAnswer textSettings oneRoom s
        ⟨[ascii "mg", ascii "n", ascii "T100", longOpaque], none⟩ [] .mg).store ∧
      ((metaAnswer textSettings oneRoom s
        ⟨[ascii "mg", ascii "n", ascii "T100", longOpaque], none⟩ [] .mg).store.items 0).exptime =
          102) ∧
    ClientError (metaAnswer textSettings oneRoom s
      ⟨[ascii "ma", ascii "n", longOpaque], none⟩ [] .ma) ∧
    ¬SameItems s (metaAnswer textSettings oneRoom s
      ⟨[ascii "ma", ascii "n", longOpaque], none⟩ [] .ma).store ∧
    ((metaAnswer textSettings oneRoom s
      ⟨[ascii "ma", ascii "n", longOpaque], none⟩ [] .ma).store.items 0).data = ascii "6\r\n" := by
  exact (emptyStore_reachable 1 _ _).exists_of_exec numberStored (by decide +kernel)

end Memcached.Text
