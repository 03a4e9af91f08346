import Memcached.Text.Pipeline

/-!
# What the meta commands do to the store

`mg` and `ma` go through the flags of their line one by one, after they have looked up,
incremented or created their item. Two kinds of flags write to the item: `T` sets its
expiry time, and `N` that of an item that is new. An `O` token that is too long ends the
loop where it stands.

Results:
* `mgetItem_found`: the item of `mg`
* `mgetFlags_spec`, `marithmeticFlags_spec`: what the flags do to it
-/

namespace Memcached.Text

open Lib Assoc Items Util Proto

variable {Addr : Type*} [DecidableEq Addr] {S : Settings} {s s' : Store Addr} {a b : Addr}
  {of : MetaFlags} {key : Bytes} {created : Bool}

/-! ## Expiry times -/

theorem setExptime_self : setExptime s a (s.items a).exptime = s := by
  simp only [setExptime, Store.modify, Function.update_eq_self]

theorem setExptime_setExptime (e e' : ℕ) :
    setExptime (setExptime s a e) a e' = setExptime s a e' := by
  simp only [setExptime, Store.modify, Function.update_idem, Function.update_self]

theorem setExptime_inv [Fintype Addr] (h : Inv S s) (hr : 0 < s.refs a) (e : ℕ) :
    Inv S (setExptime s a e) :=
  h.of_held hr (items_setExptime e) rfl rfl (fun _ => rfl) ⟨rfl, rfl, rfl, rfl, rfl⟩

theorem linked_setExptime (e : ℕ) : (setExptime s a e).Linked b ↔ s.Linked b :=
  Eq.congr_left (proj_of_items (fun it => it.flags.linked) (items_setExptime e) rfl b)

/-! ## The loops over the flags -/

def isLongOpaque (token : Bytes) : Bool :=
  token.headD 0 == 79 && decide (mflagMaxOpaqueLength < token.length)

def flagsBefore (tokens : List Bytes) : List Bytes := tokens.takeWhile (!isLongOpaque ·)

def flagStore (of : MetaFlags) (a : Addr) (created : Bool) (s : Store Addr) (token : Bytes) :
    Store Addr :=
  match (token.headD 0).toNat with
  | 84 => setExptime s a of.exptime -- T
  | 78 => if created then setExptime s a of.autovivExptime else s -- N
  | _ => s

def flagsStore (of : MetaFlags) (a : Addr) (created : Bool) (tokens : List Bytes)
    (s : Store Addr) : Store Addr :=
  (flagsBefore tokens).foldl (flagStore of a created) s

variable {token : Bytes}

theorem flagsStore_cons_long (h : isLongOpaque token = true)
    (tokens : List Bytes) (s : Store Addr) : flagsStore of a created (token :: tokens) s = s := by
  simp [flagsStore, flagsBefore, h]

theorem flagsStore_cons (h : isLongOpaque token = false) (tokens : List Bytes)
    (s : Store Addr) : flagsStore of a created (token :: tokens) s =
      flagsStore of a created tokens (flagStore of a created s token) := by
  simp [flagsStore, flagsBefore, h]

theorem isLongOpaque_eq (h : (token.headD 0).toNat = 79) :
    isLongOpaque token = decide (mflagMaxOpaqueLength < token.length) := by
  have ho : token.headD 0 = 79 := UInt8.toNat_inj.mp h
  simp [isLongOpaque, ← ho]

theorem isLongOpaque_of_ne (h : (token.headD 0).toNat ≠ 79) : isLongOpaque token = false := by
  have ho : token.headD 0 ≠ 79 := fun he => h (by rw [he]; rfl)
  simp only [isLongOpaque, Bool.and_eq_false_iff, beq_eq_false_iff_ne]
  exact .inl ho

variable (a) (of) (created) in
theorem mgetFlag_spec (m : MgetLine Addr) (token : Bytes) :
    (isLongOpaque token = true ∧ mgetFlag of a created m token = none) ∨
    (isLongOpaque token = false ∧ ∃ m', mgetFlag of a created m token = some m' ∧
      m'.store = flagStore of a created m.store token ∧ m.p <+: m'.p) := by
  by_cases ho : (token.headD 0).toNat = 79
  · by_cases hl : token.length > mflagMaxOpaqueLength
    · refine .inl ⟨by rw [isLongOpaque_eq ho]; exact decide_eq_true hl, ?_⟩
      simp only [mgetFlag, ho, if_pos hl]
    · refine .inr ⟨by rw [isLongOpaque_eq ho]; exact decide_eq_false hl, ?_⟩
      simp only [mgetFlag, ho, if_neg hl, flagStore]
      exact ⟨_, rfl, rfl, by simp only [List.append_assoc]; exact List.prefix_append _ _⟩
  · refine .inr ⟨isLongOpaque_of_ne ho, ?_⟩
    unfold mgetFlag flagStore
    split
    case h_10 => exact absurd ‹_› ho
    all_goals simp only [*]
    all_goals try split_ifs
    all_goals exact ⟨_, rfl, rfl, by simp [List.append_assoc]⟩

variable (a) (of) (created) in
theorem mgetFlags_spec (tokens : List Bytes) (m : MgetLine Addr) :
    (mgetFlags of a created tokens m).1.store = flagsStore of a created tokens m.store ∧
      (mgetFlags of a created tokens m).2 = !tokens.any isLongOpaque ∧
      m.p <+: (mgetFlags of a created tokens m).1.p := by
  induction tokens generalizing m with
  | nil => exact ⟨rfl, rfl, List.prefix_refl _⟩
  | cons token tokens ih =>
    rcases mgetFlag_spec a of created m token with
      ⟨hl, hn⟩ | ⟨hsh, m', hso, hst, hp⟩
    · simp only [mgetFlags, hn, flagsStore_cons_long hl, List.any_cons, hl]
      exact ⟨trivial, rfl, List.prefix_refl _⟩
    · obtain ⟨hs, he, hp'⟩ := ih m'
      simp only [mgetFlags, hso, flagsStore_cons hsh, List.any_cons, hsh, ← hst]
      exact ⟨hs, he, hp.trans hp'⟩

variable (a) (of) (key) (created) in
theorem marithmeticFlag_spec (m : Store Addr × Bytes) (token : Bytes) :
    (isLongOpaque token = true ∧ marithmeticFlag of key a created m token = none) ∨
    (isLongOpaque token = false ∧ ∃ m', marithmeticFlag of key a created m token = some m' ∧
      m'.1 = flagStore of a created m.1 token ∧ m.2 <+: m'.2) := by
  by_cases ho : (token.headD 0).toNat = 79
  · by_cases hl : token.length > mflagMaxOpaqueLength
    · refine .inl ⟨by rw [isLongOpaque_eq ho]; exact decide_eq_true hl, ?_⟩
      simp only [marithmeticFlag, ho, if_pos hl]
    · refine .inr ⟨by rw [isLongOpaque_eq ho]; exact decide_eq_false hl, ?_⟩
      simp only [marithmeticFlag, ho, if_neg hl, flagStore]
      exact ⟨_, rfl, rfl, by simp only [List.append_assoc]; exact List.prefix_append _ _⟩
  · refine .inr ⟨isLongOpaque_of_ne ho, ?_⟩
    obtain ⟨s, p⟩ := m
    simp only [marithmeticFlag, flagStore]
    split
    case h_5 => exact absurd ‹_› ho
    all_goals simp only [*]
    all_goals exact ⟨_, rfl, rfl, by simp [List.append_assoc]⟩

variable (a) (of) (key) (created) in
theorem marithmeticFlags_spec (tokens : List Bytes) (m : Store Addr × Bytes) :
    (marithmeticFlags of key a created tokens m).1.1 = flagsStore of a created tokens m.1 ∧
      (marithmeticFlags of key a created tokens m).2 = !tokens.any isLongOpaque ∧
      m.2 <+: (marithmeticFlags of key a created tokens m).1.2 := by
  induction tokens generalizing m with
  | nil => exact ⟨rfl, rfl, List.prefix_refl _⟩
  | cons token tokens ih =>
    rcases marithmeticFlag_spec a of key created m token with
      ⟨hl, hn⟩ | ⟨hsh, m', hso, hst, hp⟩
    · simp only [marithmeticFlags, hn, flagsStore_cons_long hl, List.any_cons, hl]
      exact ⟨trivial, rfl, List.prefix_refl _⟩
    · obtain ⟨hs, he, hp'⟩ := ih m'
      simp only [marithmeticFlags, hso, flagsStore_cons hsh, List.any_cons, hsh, ← hst]
      exact ⟨hs, he, hp.trans hp'⟩

variable (s) (a) (of) (created) in
theorem flagStore_exptime (token : Bytes) :
    ∃ e, flagStore of a created s token = setExptime s a e := by
  unfold flagStore
  split
  · exact ⟨_, rfl⟩
  · split_ifs
    · exact ⟨_, rfl⟩
    · exact ⟨_, setExptime_self.symm⟩
  · exact ⟨_, setExptime_self.symm⟩

variable (a) (of) (created) in
theorem flagsStore_exptime (tokens : List Bytes) (s : Store Addr) :
    ∃ e, flagsStore of a created tokens s = setExptime s a e := by
  unfold flagsStore
  generalize flagsBefore tokens = flags
  induction flags generalizing s with
  | nil => exact ⟨_, setExptime_self.symm⟩
  | cons token flags ih =>
    obtain ⟨e, he⟩ := flagStore_exptime s a of created token
    obtain ⟨e', he'⟩ := ih (flagStore of a created s token)
    refine ⟨e', ?_⟩
    rw [List.foldl_cons, he', he, setExptime_setExptime]

/-- A `T` token stands before an `O` token that is too long. -/
def setsTtl (tokens : List Bytes) : Bool := (flagsBefore tokens).any fun token =>
  token.headD 0 == 84

theorem flagsStore_old (tokens : List Bytes) (s : Store Addr) :
    flagsStore of a false tokens s =
      if setsTtl tokens then setExptime s a of.exptime else s := by
  unfold flagsStore setsTtl
  generalize flagsBefore tokens = flags
  induction flags generalizing s with
  | nil => rfl
  | cons token flags ih =>
    rw [List.foldl_cons, ih, List.any_cons]
    by_cases ht : token.headD 0 = 84
    · have hf : flagStore of a false s token = setExptime s a of.exptime := by
        simp only [flagStore, ht]
        rfl
      simp only [hf, ht, setExptime_setExptime, beq_self_eq_true, Bool.true_or, if_true, ite_self]
    have hf : flagStore of a false s token = s := by
      unfold flagStore
      split
      · exact absurd (UInt8.toNat_inj.mp ‹_›) ht
      · rfl
      · rfl
    rw [hf, beq_false_of_ne ht, Bool.false_or]

/-! ## The item of `mg` -/

variable [Fintype Addr]

theorem doItemGet_miss (h : Inv S s) (hlt : CountsLow s) (hm : s.Missing key)
    (doUpdate room : Bool) :
    ∃ s', doItemGet S s key doUpdate room = (s', none) ∧
      Quiet S (fun b => s.key b = key ∧ s.Dead b) nothing s s' ∧ CountsLow s' ∧
      ∀ b, s'.Linked b → s'.key b ≠ key := by
  obtain ⟨s', hge, hq, hr, hbu, hg⟩ := doItemGet_of_missing h hlt hm doUpdate room
  refine ⟨s', hge, hq, fun b => ?_, fun b hb => ?_⟩
  · have := Quiet.refcount_le h hq hr hbu b
    have := hlt b
    omega
  · rw [hq.published.key_eq hb]
    exact hg b hb

/-- What `mg` finds: too many references, an item, nothing, or an item that it has
created. -/
inductive MgetFound (S : Settings) (s : Store Addr) (of : MetaFlags) (key : Bytes) :
    Store Addr × Option Addr × Bool × Bool → Prop where
  | overflow (s' : Store Addr) (a : Addr) (hhit : s.Hit key a)
      (h : Quiet S nothing (· = a) s s') : MgetFound S s of key (s', none, false, true)
  | hit (s' : Store Addr) (a : Addr) (hhit : s.Hit key a) (h : Quiet S nothing (· = a) s s')
      (hrefs : 0 < s'.refs a) : MgetFound S s of key (s', some a, false, false)
  | miss (s' : Store Addr) (hmiss : s.Missing key)
      (h : Published S (fun b => s.Dead b ∨ s.key b ≠ key) s s') :
      MgetFound S s of key (s', none, false, false)
  | created (s' : Store Addr) (a : Addr) (it : Item) (L : Addr → Prop) (hmiss : s.Missing key)
      (h : Stores S L s s' a it) (hcas : it.flags.cas = S.useCas) (hun : it.Unmarked)
      (hkey : it.key = key) (hvivify : of.vivify = true) (hrefs : 0 < s'.refs a) :
      MgetFound S s of key (s', some a, true, false)

variable (h : Inv S s) (hlt : CountsLow s)
include h hlt

theorem limitedGet_of_hit (hh : s.Hit key a) (doUpdate room : Bool) :
    ∃ s', Quiet S nothing (· = a) s s' ∧
      (limitedGet S s key none doUpdate room = (s', none, true) ∨
        limitedGet S s key none doUpdate room = (s', some a, false) ∧ 0 < s'.refs a) := by
  obtain ⟨s1, hg, hq, hre, -⟩ := doItemGet_of_hit h hlt hh doUpdate room
  have hq' : Quiet S nothing (· = a) s s1 := hq.mono (fun _ _ => id) fun _ => And.right
  have hr : 0 < s1.refs a := by
    rw [hre, if_pos rfl]
    omega
  simp only [limitedGet, hg]
  split_ifs
  · exact ⟨_, hq'.append (releaseRef_quiet hq.inv hr).of_nothing, .inl rfl⟩
  · exact ⟨_, hq', .inr ⟨rfl, hr⟩⟩

theorem link_new (hn : ∀ b, s.Linked b → s.key b ≠ key)
    {flags exptime nbytes : ℕ} {rounds : ℕ → Round Addr} {s1 : Store Addr}
    (hal : doItemAlloc S s key flags exptime nbytes rounds = (s1, some a)) (data : Bytes) :
    Stores S (Lockable S rounds s) s (doItemLink S (setData s1 a data) a) a
        ((setData s1 a data).items a) ∧
      ((setData s1 a data).items a).Unmarked ∧ ((setData s1 a data).items a).key = key ∧
      ((setData s1 a data).items a).flags.cas = S.useCas ∧
      0 < (doItemLink S (setData s1 a data) a).refs a := by
  have hc := (doItemAlloc_created h hlt hal).setData data
  set s2 := setData s1 a data with hs2
  have hu : (s2.items a).Unmarked := by
    obtain ⟨s0, hp, ha⟩ := doItemAlloc_some h hlt hal
    have hu1 := ha.unmarked hp.inv
    rw [hs2, items_setData, if_pos rfl]
    exact ⟨hu1.stale, hu1.tokenSent, hu1.keyBinary⟩
  have hab : ∀ b, s2.Linked b → s2.key b ≠ s2.key a := by
    intro b hb
    rw [hc.key, hc.published.key_eq hb]
    exact hn b (hc.published.linked b hb).1
  have hco : (s2.items a).refcount + 1 < 2 ^ 16 := by
    have := hc.low a
    omega
  have hs := doItemLink_stores hc.published.inv hc.linked hc.refs hab hco
  refine ⟨(Stores.of_published hc.published hs).mono fun b _ hb => .inr (hb.elim id False.elim),
    hu, hc.key, hc.published.inv.cas a (hc.published.inv.not_slabbed_of_refs hc.refs), ?_⟩
  rw [refs_doItemLink]
  exact hc.refs

/-- An item is made for a key without one and added. -/
theorem add_new (hn : ∀ b, s.Linked b → s.key b ≠ key)
    {flags exptime nbytes : ℕ} {rounds : ℕ → Round Addr} {s1 : Store Addr}
    (hal : doItemAlloc S s key flags exptime nbytes rounds = (s1, some a)) (data : Bytes)
    (rounds' : ℕ → Round Addr) (env : CopyEnv) :
    Created S (Lockable S rounds s) s (setData s1 a data) a key false ∧
      ∃ s2 cas, doStoreItem S (setData s1 a data) a .add false rounds' env =
          (s2, .stored, cas) ∧ 0 < s2.refs a ∧
        Stores S nothing (setData s1 a data) s2 a ((setData s1 a data).items a) := by
  have hc := (doItemAlloc_created h hlt hal).setData data
  have hm : (setData s1 a data).Missing ((setData s1 a data).key a) := by
    intro b hb hk
    rw [hc.key, hc.published.key_eq hb] at hk
    exact absurd hk (hn b (hc.published.linked b hb).1)
  obtain ⟨s2, r, cas, hs, hr, rfl, -, hst⟩ := doStoreItem_of_missing hc.published.inv hc.low
    hc.refs hc.linked hm .add false rounds' env
  exact ⟨hc, s2, cas, hs, by rw [hr.1]; exact hc.refs, hst⟩

theorem mgetItem_found (env : Env Addr) (of : MetaFlags)
    (key : Bytes) : MgetFound S s of key (mgetItem S env s of key) := by
  obtain hm | ⟨a, hh⟩ := missing_or_hit s key
  · obtain ⟨s1, hg, hq, hl1, hn⟩ :=
      doItemGet_miss h hlt hm (!of.locked && !of.noUpdate) (env.room 0)
    have hd : Published S (fun b => s.Dead b ∨ s.key b ≠ key) s s1 :=
      hq.published.mono fun b _ hb => .inl hb.2
    simp only [mgetItem, limitedGet, hg]
    split_ifs with hv
    · rcases ha : doItemAlloc S s1 key 0 0 2 (lockHeld (S.hash key) env.rounds) with
        ⟨s2, _ | a⟩
      · obtain ⟨hp, -⟩ := doItemAlloc_none hq.inv hl1 ha
        refine .miss s2 hm ((hd.trans hp).mono fun b hb hl => ?_)
        obtain hl | hlo := hl
        · exact hl
        obtain hb1 | hb1 := hq.lost b hb
        · rw [← hq.published.key_eq hb1]
          exact .inr (key_ne_of_lockable hlo)
        · exact .inl hb1.2
      · obtain ⟨hst, hu, hk, hc, hr⟩ := link_new hq.inv hl1 hn ha (ascii "\r\n")
        exact .created _ a _ _ hm (Stores.of_published hd hst) hc hu hk hv hr
    · exact .miss s1 hm hd
  · obtain ⟨s', hq, ho | ⟨hs, hr⟩⟩ :=
      limitedGet_of_hit h hlt hh (!of.locked && !of.noUpdate) (env.room 0)
    · simp only [mgetItem, ho]
      exact .overflow s' a hh hq
    · simp only [mgetItem, hs]
      exact .hit s' a hh hq hr

end Memcached.Text
