import Memcached.Items.TokenSent
import Memcached.Text.MetaErrors

/-!
# One client recaches (`proto_text.c`)

`mg` answers with flag `W` to tell one client to recache the item: after it has created the
item (flag `N`), when little of its time is left (flag `R`), or when it is stale. It marks the
item, and later answers carry `Z`. A client that stores the key, `md` with flag `I`, or the
deletion or expiry of the item take the token back. The steps are whole commands, since `mg`
hands out the token under the lock of the item.

Results:
* `one_recache_winner`: one client at a time is told to recache
* `two_recache_winners`: two are
-/

namespace Memcached.Text

open Lib Items Util Proto

variable {Addr : Type*} [DecidableEq Addr] [Fintype Addr]

/-! ## The steps -/

/-- The response line of `mg` before its marks, with the key and the item of the command; `none`
if `mg` answers with something else. -/
def mgetLine (S : TextSettings) (env : Env Addr) (s : Store Addr) (t : Tokens) :
    Option (Bytes × MgetLine Addr × Addr) :=
  match mgetParsed S.toSettings s t with
  | none => none
  | some (of, key) =>
    match mgetItem S.toSettings env s of key with
    | (s, some a, created, false) =>
      let start := if of.value then ascii "VA " ++ itoaU64 ((s.items a).nbytes - 2) else nominal S
      match mgetFlags of a created (t.toks.drop 2) { store := s, p := start } with
      | (m, true) => some (key, m, a)
      | (_, false) => none
    | _ => none

def mgetCreated (S : TextSettings) (env : Env Addr) (s : Store Addr) (t : Tokens) : Option Bytes :=
  match mgetParsed S.toSettings s t with
  | none => none
  | some (of, key) => if (mgetItem S.toSettings env s of key).2.2.1 then some key else none

def marithmeticCreated (S : TextSettings) (env : Env Addr) (s : Store Addr) (t : Tokens) :
    Option Bytes :=
  match marithmeticParsed S.toSettings s t with
  | none => none
  | some (of, key, incr) =>
    let (s, reply) := doAddDelta S.toSettings s key incr of.delta of.reqCasId true env.rounds
    let (_, it) := doItemAlloc S.toSettings s key 0 0 ((itoaU64 of.initial).length + 2)
      (lockHeld (S.hash key) env.rounds)
    if reply.result = .itemNotFound ∧ of.vivify = true ∧ it.isSome then some key else none

/-- What a step says about the token of the key: the answer of an `mg` has `W` or `Z`, or the
token is taken back. -/
structure Marks where
  w : Bool := false
  z : Bool := false
  resets : Bool := false
deriving DecidableEq

inductive WinOp (Addr : Type*) where
  | mg (env : Env Addr) (t : Tokens)
  | ma (env : Env Addr) (t : Tokens)
  | op (o : Op Addr)
  | keyBinary (it : Addr)
  | slabMove (chunks : ChunkMem Addr) (it : Addr) (ch new : Option Addr)

/-- One step, and what it says about the token of `key`. -/
def winStep (S : TextSettings) (key : Bytes) (s : Store Addr) :
    WinOp Addr → Option (Store Addr × Marks)
  | .mg env t =>
    let line := mgetLine S env s t
    some ((processMgetCommand S env s t).store,
      { w := line.any fun l => l.1 == key && (mgetMarks l.2.1 l.2.2).wonToken
        z := line.any fun l => l.1 == key && (l.2.1.store.items l.2.2).flags.tokenSent
        resets := mgetCreated S env s t == some key })
  | .ma env t =>
    some ((processMarithmeticCommand S env s t).store,
      { resets := marithmeticCreated S env s t == some key })
  | .op o => (step S.toSettings s o).map fun r =>
      (r.1, { resets := decide (TakesBack S.toSettings s o key) })
  | .keyBinary it =>
    if 0 < s.refs it ∧ (s.items it).flags.linked = false then some (setKeyBinary s it, {}) else none
  | .slabMove chunks it ch new =>
    if MoveGuard (takeRef s it) it ch new then
      some ((moveFromLru S.toSettings ⟨takeRef s it, chunks⟩ it ch new).store, {})
    else none

/-- The commands on a cache, as the holders of the token of `key` see them. -/
def winners (Addr : Type*) [DecidableEq Addr] [Fintype Addr] (S : TextSettings) (key : Bytes) :
    System (Store Addr) (WinOp Addr) Marks where
  init := Init
  step := winStep S key

/-- The condition on steps: no count is near its limit, and no increment puts a new item in the
place of one whose token is out. -/
def WinOk (S : TextSettings) (key : Bytes) (s : Store Addr) (op : WinOp Addr) : Prop :=
  CountsLow s ∧
    match op with
    | .ma _ t => ∀ p ∈ marithmeticParsed S.toSettings s t, p.2.1 = key →
        KeepsToken s key p.2.2 p.1.delta
    | .op o => o.KeepsMark s key
    | .mg .. | .keyBinary _ | .slabMove .. => True

instance (S : TextSettings) (key : Bytes) (s : Store Addr) (op : WinOp Addr) :
    Decidable (WinOk S key s op) := by
  delta WinOk
  split <;> infer_instance

/-! ## What commands keep -/

variable {S : TextSettings} {s s' s1 s'' : Store Addr} {a b : Addr} {key k : Bytes}
  {of : MetaFlags} {created : Bool} {env : Env Addr} {t : Tokens} {r : Marks}

/-- No item is linked, and no mark goes. -/
def Kept (s s' : Store Addr) : Prop :=
  ∀ b, s'.Linked b → s.Linked b ∧ s'.key b = s.key b ∧
    ((s.items b).flags.tokenSent = true → (s'.items b).flags.tokenSent = true)

omit [DecidableEq Addr] [Fintype Addr] in
theorem Kept.trans (h : Kept s s') (h' : Kept s' s'') : Kept s s'' := fun b hb =>
  have ⟨hb', hk', hm'⟩ := h' b hb
  have ⟨hb'', hk, hmark⟩ := h b hb'
  ⟨hb'', hk'.trans hk, fun hm => hm' (hmark hm)⟩

theorem kept_of_serves {S : Settings} {L T : Addr → Prop} (h : Serves S L T s s') : Kept s s' :=
  fun b hb =>
    have ⟨hl, hc, _⟩ := h.linked b hb
    ⟨hl, Item.key_eq hc, fun hm =>
      (Item.proj_eq (fun it => it.flags.tokenSent) hc).trans hm⟩

theorem kept_of_quiet {S : Settings} {L T : Addr → Prop} (h : Quiet S L T s s') : Kept s s' :=
  kept_of_serves h.serves

omit [Fintype Addr] in
theorem kept_of_items {it : Item} (hi : ∀ b, s'.items b = if b = a then it else s.items b)
    (hl : it.flags.linked = (s.items a).flags.linked) (hk : it.key = (s.items a).key)
    (hmark : (s.items a).flags.tokenSent = true → it.flags.tokenSent = true) : Kept s s' := by
  intro b hb
  rw [Store.Linked, proj_of_items (fun it => it.flags.linked) hi hl] at hb
  refine ⟨hb, proj_of_items Item.key hi hk b, ?_⟩
  rw [hi]
  split_ifs with hba
  · rw [hba]
    exact hmark
  · exact id

omit [DecidableEq Addr] [Fintype Addr] in
theorem Kept.awarded (h : Kept s s') (ha : Awarded s key) : Awarded s' key := fun b hb hk =>
  have ⟨hl, hkb, hmark⟩ := h b hb
  hmark (ha b hl (hkb.symm.trans hk))

/-! ## `mg` -/

section

omit [Fintype Addr]

theorem tokenSent_setExptime (e : ℕ) :
    ((setExptime s a e).items b).flags.tokenSent = (s.items b).flags.tokenSent :=
  proj_of_items (fun it => it.flags.tokenSent) (items_setExptime (s := s) (a := a) e) rfl b

theorem mgetFlag_won {m m' : MgetLine Addr} {token : Bytes}
    (h : mgetFlag of a created m token = some m') (hw : m'.wonToken = true) :
    m.wonToken = true ∨ created = true ∨ (m.store.items a).flags.tokenSent = false := by
  unfold mgetFlag at h
  simp only at h
  split at h
  case h_2 =>
    split_ifs at h with hc
    · exact .inr (.inl hc)
    · cases h
      exact .inl hw
  case h_3 =>
    split_ifs at h with hr
    · exact .inr (.inr hr.1)
    · cases h
      exact .inl hw
  case h_10 =>
    split_ifs at h
    cases h
    exact .inl hw
  all_goals
    cases h
    exact .inl hw

end

variable (a) (of) (created) in
omit [Fintype Addr] in
theorem mgetFlags_won (tokens : List Bytes) (m : MgetLine Addr)
    (hw : (mgetFlags of a created tokens m).1.wonToken = true) :
    m.wonToken = true ∨ created = true ∨ (m.store.items a).flags.tokenSent = false := by
  induction tokens generalizing m with
  | nil => exact .inl hw
  | cons token tokens ih =>
    obtain ⟨-, hn⟩ | ⟨-, m', hs, hst, -⟩ := mgetFlag_spec a of created m token
    · simp only [mgetFlags, hn] at hw
      exact .inl hw
    simp only [mgetFlags, hs] at hw
    obtain hw' | hc | hmark := ih m' hw
    · exact mgetFlag_won hs hw'
    · exact .inr (.inl hc)
    obtain ⟨e, he⟩ := flagStore_exptime m.store a of created token
    rw [hst, he, tokenSent_setExptime] at hmark
    exact .inr (.inr hmark)

structure InHand (S : Settings) (s : Store Addr) (a : Addr) : Prop where
  inv : Inv S s
  linked : s.Linked a
  refs : 0 < s.refs a
  count : (s.items a).refcount + 1 < 2 ^ 16

theorem inHand_modify {S : Settings} (h : InHand S s a) {f : Item → Item}
    (hh : (f (s.items a)).header = (s.items a).header)
    (hc : (f (s.items a)).flags.cas = (s.items a).flags.cas)
    (hb : (f (s.items a)).bytes = (s.items a).bytes) : InHand S (s.modify a f) a where
  inv := h.inv.of_held h.refs (items_modify f) hh hc (fun _ => hb)
    ⟨rfl, rfl, rfl, rfl, rfl⟩
  linked := by
    rw [Store.Linked, items_modify_self]
    exact (congrArg Header.linked hh).trans h.linked
  refs := h.refs
  count := by
    rw [items_modify_self, show (f (s.items a)).refcount = _ from congrArg Header.refcount hh]
    exact h.count

theorem InHand.flags {S : Settings} (h : InHand S s a) (of : MetaFlags) (created : Bool)
    (tokens : List Bytes) (p : Bytes) :
    InHand S (mgetFlags of a created tokens { store := s, p := p }).1.store a ∧
      Kept s (mgetFlags of a created tokens { store := s, p := p }).1.store := by
  obtain ⟨hs, -⟩ := mgetFlags_spec a of created tokens { store := s, p := p }
  obtain ⟨e, he⟩ := flagsStore_exptime a of created tokens s
  rw [hs, he]
  exact ⟨inHand_modify h rfl rfl rfl,
    kept_of_items (items_setExptime (s := s) (a := a) e) rfl rfl id⟩

variable {m : MgetLine Addr}

theorem InHand.marks {S : Settings} (h : InHand S m.store a) :
    InHand S (mgetMarks m a).store a ∧ Kept m.store (mgetMarks m a).store ∧
      ((mgetMarks m a).wonToken = true →
        ((mgetMarks m a).store.items a).flags.tokenSent = true) := by
  by_cases hw : (m.wonToken || ((m.store.items a).flags.stale &&
      !(m.store.items a).flags.tokenSent)) = true
  · simp only [mgetMarks, hw, if_true]
    refine ⟨inHand_modify h rfl rfl rfl, kept_of_items (items_modify _) rfl rfl fun _ => rfl, ?_⟩
    intro _
    rw [items_modify_self]
  · simp only [mgetMarks, hw, if_false, Bool.false_eq_true]
    exact ⟨h, fun b hb => ⟨hb, rfl, id⟩, fun h => absurd h (by simp)⟩

theorem InHand.bump {S : Settings} (h : InHand S s a) (bump room : Bool) :
    Quiet S nothing (· = a) s (if bump then doItemBump S s a room else s) := by
  cases bump
  · exact (Quiet.refl h.inv).of_nothing
  · exact doItemBump_quiet h.inv (h.inv.not_slabbed_of_linked h.linked) h.count room

omit [Fintype Addr] in
theorem mgetMarks_won (h : (mgetMarks m a).wonToken = true) :
    m.wonToken = true ∨ (m.store.items a).flags.tokenSent = false := by
  simp only [mgetMarks, Bool.or_eq_true, Bool.and_eq_true, Bool.not_eq_true'] at h
  exact h.imp_right And.right

theorem limitedGet_count {S : Settings} {touch : Option ℕ} {doUpdate room : Bool}
    (h : limitedGet S s k touch doUpdate room = (s1, some a, false)) :
    (s1.items a).refcount ≤ itRefcountLimit := by
  unfold limitedGet at h
  split at h
  · cases h
  split_ifs at h with hl
  · cases h
  simp only [Prod.mk.injEq, Option.some.injEq] at h
  obtain ⟨rfl, rfl, -⟩ := h
  exact not_lt.mp hl

theorem mgetItem_inHand {S : Settings} (hinv : Inv S s) (hlt : CountsLow s) {env : Env Addr}
    (he : mgetItem S env s of k = (s1, some a, created, false)) : InHand S s1 a := by
  have hf := mgetItem_found hinv hlt env of k
  rw [he] at hf
  cases hf with
  | hit _ _ hh hq hr =>
    have hl : s1.Linked a := (hq.lost a hh.linked).resolve_right id
    refine ⟨hq.inv, hl, hr, ?_⟩
    have hle : (s1.items a).refcount ≤ itRefcountLimit := by
      unfold mgetItem at he
      split at he
      · cases he
      · cases he
        exact limitedGet_count ‹_›
      · split_ifs at he
        · split at he <;> cases he
        · cases he
    unfold itRefcountLimit at hle
    omega
  | created _ _ it L hm hs _ _ _ hv hr =>
    refine ⟨hs.inv, hs.linked, hr, ?_⟩
    obtain ⟨s2, hg, hq, hl2, hn⟩ :=
      doItemGet_miss hinv hlt hm (!of.locked && !of.noUpdate) (env.room 0)
    simp only [mgetItem, limitedGet, hg, hv, if_true] at he
    rcases ha : doItemAlloc S s2 k 0 0 2 (lockHeld (S.hash k) env.rounds) with ⟨s3, _ | a'⟩
    · rw [ha] at he
      cases he
    rw [ha] at he
    cases he
    have hlo := ((doItemAlloc_created hq.inv hl2 ha).setData (ascii "\r\n")).low a
    rw [items_doItemLink, if_pos rfl]
    simp only [linkedItem]
    omega

theorem mget_noItem (hinv : Inv S.toSettings s) (hl : CountsLow s)
    (hn : ∀ of k s1 a created, mgetParsed S.toSettings s t = some (of, k) →
      mgetItem S.toSettings env s of k ≠ (s1, some a, created, false)) :
    Inv S.toSettings (processMgetCommand S env s t).store ∧
      Kept s (processMgetCommand S env s t).store ∧ mgetLine S env s t = none := by
  rcases hpa : mgetParsed S.toSettings s t with _ | ⟨of, k⟩
  · rw [processMgetCommand_unparsed hpa]
    refine ⟨hinv, fun b hb => ⟨hb, rfl, id⟩, ?_⟩
    simp only [mgetLine, hpa]
  have hf := mgetItem_found hinv hl env of k
  have hn' := fun s1 a created => hn of k s1 a created hpa
  rw [processMgetCommand_parsed hpa, mgetAnswer]
  simp only [mgetLine, hpa]
  rcases hi : mgetItem S.toSettings env s of k with ⟨s1, it, created, overflow⟩
  rw [hi] at hf hn'
  cases hf with
  | overflow _ a _ hq => exact ⟨hq.inv, kept_of_quiet hq, by trivial⟩
  | miss _ _ hp => exact ⟨hp.inv, kept_of_serves hp.serves, by trivial⟩
  | hit _ a => exact absurd rfl (hn' s1 a false)
  | created _ a => exact absurd rfl (hn' s1 a true)

theorem mget_item (hinv : Inv S.toSettings s) (hlt : CountsLow s)
    (hp : mgetParsed S.toSettings s t = some (of, k))
    (hi : mgetItem S.toSettings env s of k = (s1, some a, created, false)) :
    Inv S.toSettings (processMgetCommand S env s t).store ∧
      Kept s1 (processMgetCommand S env s t).store ∧
      ∀ l, mgetLine S env s t = some l → l.1 = k ∧ l.2.2 = a ∧
        (l.2.1.store.items a).flags.tokenSent = (s1.items a).flags.tokenSent ∧
        ((mgetMarks l.2.1 a).wonToken = true →
          (created = true ∨ (s1.items a).flags.tokenSent = false) ∧
          ((processMgetCommand S env s t).store.items a).flags.tokenSent = true) := by
  have hh := mgetItem_inHand hinv hlt hi
  rw [processMgetCommand_parsed hp, mgetAnswer]
  simp only [mgetLine, hp, hi]
  set start := if of.value then ascii "VA " ++ itoaU64 ((s1.items a).nbytes - 2) else nominal S
  obtain ⟨hh2, hk2⟩ := hh.flags of created (t.toks.drop 2) start
  have hwo := mgetFlags_won a of created (t.toks.drop 2) { store := s1, p := start }
  obtain ⟨hs, -⟩ := mgetFlags_spec a of created (t.toks.drop 2) { store := s1, p := start }
  obtain ⟨e, he⟩ := flagsStore_exptime a of created (t.toks.drop 2) s1
  rcases hf : mgetFlags of a created (t.toks.drop 2) { store := s1, p := start } with ⟨m, ok⟩
  rw [hf] at hh2 hk2 hwo hs
  have hmark : (m.store.items a).flags.tokenSent = (s1.items a).flags.tokenSent := by
    rw [show m.store = setExptime s1 a e from hs.trans he, tokenSent_setExptime]
  cases ok with
  | false =>
    have hq := releaseRef_quiet hh2.inv hh2.refs
    exact ⟨hq.inv, hk2.trans (kept_of_quiet hq), fun l hl => by cases hl⟩
  | true =>
    obtain ⟨hh3, hk3, hse⟩ := hh2.marks
    have hq := hh3.bump (of.locked && !of.noUpdate) (env.room 0)
    have hl := (hq.lost a hh3.linked).resolve_right id
    refine ⟨hq.inv, (hk2.trans hk3).trans (kept_of_quiet hq), ?_⟩
    intro l hli
    cases hli
    refine ⟨rfl, rfl, hmark, fun hw => ⟨?_, ?_⟩⟩
    · obtain hm | hm := mgetMarks_won hw
      · exact (hwo hm).resolve_left (by simp)
      · exact .inr (hmark.symm.trans hm)
    · exact (kept_of_quiet hq a hl).2.2 (hse hw)

variable (key) in
theorem mgetItem_token (hinv : Inv S.toSettings s) (hlt : CountsLow s)
    (hi : mgetItem S.toSettings env s of k = (s1, some a, created, false)) :
    s1.key a = k ∧ (created = true → (s1.items a).flags.tokenSent = false) ∧
      (Awarded s key → (created = true → k ≠ key) → Awarded s1 key) := by
  have hf := mgetItem_found hinv hlt env of k
  rw [hi] at hf
  cases hf with
  | hit _ _ hh hq _ =>
    have hl := (hq.lost a hh.linked).resolve_right id
    have hc := hq.content a (hq.inv.not_slabbed_of_linked hl)
    have hk : s1.key a = s.key a := Item.key_eq hc
    exact ⟨hk.trans hh.key, nofun, fun ha _ => ha.of_quiet hq⟩
  | created _ _ it L _ hs _ hu hk _ _ =>
    refine ⟨hs.key_eq.trans hk, fun _ => ?_, fun ha hn => ha.of_stores hs fun he => ?_⟩
    · have hfl := congrArg (fun it => it.flags.tokenSent) hs.item
      exact hfl.trans hu.tokenSent
    · exact absurd (hk.symm.trans he) (hn rfl)

theorem mget_step (hinv : Inv S.toSettings s) (hlt : CountsLow s)
    (hst : winStep S key s (.mg env t) = some (s', r)) :
    Inv S.toSettings s' ∧ (r.w = true → r.z = false ∧ Awarded s' key) ∧
      (Awarded s key → r.resets = false → Awarded s' key ∧ r.w = false) := by
  cases hst
  by_cases hin : ∃ of k s1 a created, mgetParsed S.toSettings s t = some (of, k) ∧
      mgetItem S.toSettings env s of k = (s1, some a, created, false)
  · obtain ⟨of, k, s1, a, created, hp, hi⟩ := hin
    obtain ⟨hi', hk, hli⟩ := mget_item hinv hlt hp hi
    obtain ⟨hke, hnew, ho⟩ := mgetItem_token key hinv hlt hi
    have hh := mgetItem_inHand hinv hlt hi
    have hcr : mgetCreated S env s t = if created then some k else none := by
      simp only [mgetCreated, hp, hi]
    refine ⟨hi', fun hw => ?_, fun ha hr => ?_⟩
    · obtain ⟨l, hl, hw⟩ := (Option.any_eq_true _ _).mp hw
      obtain ⟨rfl, rfl, hmark, hwo⟩ := hli l hl
      simp only [Bool.and_eq_true, beq_iff_eq] at hw
      obtain ⟨hf, hs⟩ := hwo hw.2
      have hn : (s1.items l.2.2).flags.tokenSent = false := hf.elim hnew id
      refine ⟨?_, fun b hb hkb => ?_⟩
      · simp [hl, hmark, hn]
      -- the item of the command is the only one that the key has
      obtain ⟨hb1, hk1, -⟩ := hk b hb
      obtain rfl : b = l.2.2 := hh.inv.eq_of_key hb1 hh.linked
        (hk1.symm.trans (hkb.trans (hw.1.symm.trans hke.symm)))
      exact hs
    · have hne : created = true → k ≠ key := by
        rintro rfl rfl
        simp [hcr] at hr
      have ha1 := ho ha hne
      refine ⟨hk.awarded ha1, Bool.eq_false_iff.mpr fun hw => ?_⟩
      obtain ⟨l, hl, hw⟩ := (Option.any_eq_true _ _).mp hw
      obtain ⟨rfl, rfl, -, hwo⟩ := hli l hl
      simp only [Bool.and_eq_true, beq_iff_eq] at hw
      obtain hc | hf := (hwo hw.2).1
      · exact hne hc hw.1
      · rw [ha1 l.2.2 hh.linked (hke.trans hw.1)] at hf
        cases hf
  · have hin : ∀ of k s1 a created, mgetParsed S.toSettings s t = some (of, k) →
        mgetItem S.toSettings env s of k ≠ (s1, some a, created, false) :=
      fun of k s1 a created hp hi => hin ⟨of, k, s1, a, created, hp, hi⟩
    obtain ⟨hi', hk, hli⟩ := mget_noItem hinv hlt hin
    simp only [hli]
    exact ⟨hi', fun h => absurd h (by simp), fun ha _ => ⟨hk.awarded ha, rfl⟩⟩

/-! ## `ma` -/

section

variable (hinv : Inv S.toSettings s)
include hinv

theorem marithmeticItem_kept (hr : 0 < s.refs a) (of : MetaFlags)
    (k : Bytes) (tokens : List Bytes) (created skip : Bool) (value : Bytes) :
    Inv S.toSettings (marithmeticItem S s of k tokens a created skip value).store ∧
      Kept s (marithmeticItem S s of k tokens a created skip value).store := by
  obtain ⟨e, he⟩ := marithmeticItem_store S s a of k tokens created skip value
  have hq := releaseRef_quiet (a := a) (setExptime_inv hinv hr e) hr
  rw [he]
  refine ⟨hq.inv, Kept.trans ?_ (kept_of_quiet hq)⟩
  exact kept_of_items (items_setExptime (s := s) (a := a) e) rfl rfl id

theorem marithmetic_missing (hl : CountsLow s) {incr : Bool}
    (hpa : marithmeticParsed S.toSettings s t = some (of, k, incr)) (hm : s.Missing k) :
    Inv S.toSettings (processMarithmeticCommand S env s t).store ∧
      (Awarded s key → marithmeticCreated S env s t ≠ some key →
        Awarded (processMarithmeticCommand S env s t).store key) := by
  obtain ⟨s1, hg, hq, hl1, hn⟩ := doItemGet_miss hinv hl hm false false
  have hd : doAddDelta S.toSettings s k incr of.delta of.reqCasId true env.rounds =
      (s1, { result := .itemNotFound }) := by
    simp only [doAddDelta, doAddDeltaIn, hg]
  rw [processMarithmeticCommand_parsed hpa hd, marithmeticAnswer]
  simp only [marithmeticCreated, hpa, hd]
  by_cases hv : of.vivify = true
  · rw [if_pos hv]
    rcases hal : doItemAlloc S.toSettings s1 k 0 0 ((itoaU64 of.initial).length + 2)
      (lockHeld (S.hash k) env.rounds) with ⟨s2, _ | a⟩
    · obtain ⟨hp, -⟩ := doItemAlloc_none hq.inv hl1 hal
      exact ⟨hp.inv, fun ha _ => (ha.of_quiet hq).of_published hp⟩
    obtain ⟨hc, s4, cas, hs, hr, hst⟩ := add_new hq.inv hl1 hn hal
      (itoaU64 of.initial ++ ascii "\r\n") env.rounds' env.copy
    simp only
    rw [hs]
    obtain ⟨hi', hk⟩ := marithmeticItem_kept (a := a) hst.inv hr of k (t.toks.drop 2)
      (decide (StoreItemType.stored ≠ .notStored)) false (itoaU64 of.initial)
    refine ⟨hi', fun ha hne => hk.awarded ?_⟩
    refine ((ha.of_quiet hq).of_published hc.published).of_stores hst fun hke => ?_
    refine absurd ?_ hne
    rw [if_pos ⟨by trivial, hv, by trivial⟩]
    exact congrArg some (hc.key.symm.trans hke)
  · rw [if_neg hv, marithmeticMiss_store]
    exact ⟨hq.inv, fun ha _ => ha.of_quiet hq⟩

theorem marithmetic_step (hok : WinOk S key s (.ma env t)) :
    Inv S.toSettings (processMarithmeticCommand S env s t).store ∧
      (Awarded s key → marithmeticCreated S env s t ≠ some key →
        Awarded (processMarithmeticCommand S env s t).store key) := by
  obtain ⟨hl, hke⟩ := hok
  rcases hp : marithmeticParsed S.toSettings s t with _ | ⟨of, k, incr⟩
  · rw [processMarithmeticCommand_unparsed hp]
    exact ⟨hinv, fun ha _ => ha⟩
  obtain hm | ⟨a, hh⟩ := missing_or_hit s k
  · exact marithmetic_missing hinv hl hp hm
  obtain ⟨s1, reply, hd, ho, -⟩ := doAddDelta_outcome hinv hl hh incr of.delta of.reqCasId
    true env.rounds
  have hs : step S.toSettings s (.addDelta k incr of.delta of.reqCasId true env.rounds) =
      some (s1, .delta reply) := by
    simp only [step, Guard, if_true, apply, hd]
  have hi1 := step_inv hinv hl hs
  have ha1 : Awarded s key → Awarded s1 key := fun ha => by
    have := ha.of_addDelta hinv hl (fun hk => hke (of, k, incr) hp hk) of.reqCasId true
      env.rounds
    rwa [hd] at this
  rw [processMarithmeticCommand_parsed hp hd, marithmeticAnswer]
  have hi : ∀ a, 0 < s1.refs a →
      Inv S.toSettings (marithmeticItem S s1 of k (t.toks.drop 2) a false of.noReply
        reply.value).store ∧ (Awarded s key → marithmeticCreated S env s t ≠ some key →
      Awarded (marithmeticItem S s1 of k (t.toks.drop 2) a false of.noReply
        reply.value).store key) := by
    intro a hr
    obtain ⟨hi', hkep⟩ := marithmeticItem_kept hi1 hr of k (t.toks.drop 2) false of.noReply
      reply.value
    exact ⟨hi', fun ha _ => hkep.awarded (ha1 ha)⟩
  cases ho with
  | refused hre _ =>
    obtain hre | hre := hre
    · simp only [hre]
      exact ⟨hi1, fun ha _ => ha1 ha⟩
    · simp only [hre, marithmeticMiss_store]
      exact ⟨hi1, fun ha _ => ha1 ha⟩
  | noMemory hre _ =>
    simp only [hre]
    exact ⟨hi1, fun ha _ => ha1 ha⟩
  | edited _ hre _ hke =>
    obtain ⟨hret, hr⟩ := hke rfl
    simp only [hre, hret]
    exact hi a hr
  | replaced _ _ _ hre _ _ _ _ _ _ hke =>
    obtain ⟨hret, hr⟩ := hke rfl
    simp only [hre, hret]
    exact hi a hr

end

/-! ## The other steps -/

theorem setKeyBinary_published (hinv : Inv S.toSettings s) (hr : 0 < s.refs a)
    (hl : (s.items a).flags.linked = false) :
    Published S.toSettings nothing s (setKeyBinary s a) := by
  have hn : ¬s.Linked a := by simp [Store.Linked, hl]
  have hi' : Inv S.toSettings (setKeyBinary s a) :=
    hinv.of_held hr (items_modify _) rfl rfl (absurd · hn) ⟨rfl, rfl, rfl, rfl, rfl⟩
  exact .of_items hi' (items_modify _) hn rfl rfl rfl

/-- **One step.** It keeps the invariant; an answer with `W` has no `Z`, and the token is then
out; and while it is, a step that does not take it back leaves it out and awards none. -/
theorem winStep_token (hinv : Inv S.toSettings s) {op : WinOp Addr} (ho : WinOk S key s op)
    (hs : winStep S key s op = some (s', r)) :
    Inv S.toSettings s' ∧ (r.w = true → r.z = false ∧ Awarded s' key) ∧
      (Awarded s key → r.resets = false → Awarded s' key ∧ r.w = false) := by
  have hlt := ho.1
  cases op with
  | mg env t => exact mget_step hinv hlt hs
  | ma env t =>
    obtain ⟨hi', ha'⟩ := marithmetic_step hinv ho
    cases hs
    exact ⟨hi', by rintro ⟨⟩, fun ha hre => ⟨ha' ha (by simpa using hre), rfl⟩⟩
  | op o =>
    simp only [winStep, Option.map_eq_some_iff, Prod.mk.injEq] at hs
    obtain ⟨⟨s1, reply⟩, hs, rfl, rfl⟩ := hs
    refine ⟨step_inv hinv hlt hs, by rintro ⟨⟩, fun ha hre => ⟨?_, rfl⟩⟩
    exact ha.of_step hinv hlt (by simpa using hre) ho.2 hs
  | keyBinary it =>
    obtain ⟨⟨hr, hl⟩, rfl, rfl⟩ := System.guarded_eq_some hs
    have hp := setKeyBinary_published hinv hr hl
    exact ⟨hp.inv, by rintro ⟨⟩, fun ha _ => ⟨ha.of_published hp, rfl⟩⟩
  | slabMove chunks it ch new =>
    obtain ⟨hg, rfl, rfl⟩ := System.guarded_eq_some hs
    have hon : (s.items it).refcount + 1 < 2 ^ 16 := by
      have := hlt it
      omega
    have hl : s.Linked it := linked_takeRef.mp hg.1
    have hi := idling_takeRef hinv hon hl hg.2.1
    have ht := takeRef_quiet hinv (hinv.not_slabbed_of_linked hl) hon
    refine ⟨?_, by rintro ⟨⟩, fun ha _ => ⟨?_, rfl⟩⟩
    · obtain ⟨n, hst⟩ | hp := moveFromLru_cases (m := ⟨takeRef s it, chunks⟩) hi hg
      · exact hst.inv
      · exact hp.inv
    · exact (ha.of_quiet ht).of_moveFromLru (m := ⟨takeRef s it, chunks⟩) hi hg

/-! ## Runs -/

theorem winners_inv (hr : (winners Addr S key).Reachable (WinOk S key) s) : Inv S.toSettings s :=
  hr.induct (fun _ hi => inv_of_init hi)
    fun hinv ho hs => (winStep_token hinv ho hs).1

theorem winners_awarded (hinv : Inv S.toSettings s) (ha : Awarded s key)
    {l : List (WinOp Addr × Marks)} (hl : (winners Addr S key).Steps (WinOk S key) s l s')
    (hn : ∀ e ∈ l, e.2.resets = false) : Inv S.toSettings s' ∧ Awarded s' key := by
  induction hl with
  | refl => exact ⟨hinv, ha⟩
  | @tail l _ op _ r _ ho hs ih =>
    obtain ⟨hi1, ha1⟩ := ih fun e he => hn e (List.mem_append_left _ he)
    obtain ⟨hi2, -, hk⟩ := winStep_token hi1 ho hs
    exact ⟨hi2, (hk ha1 (hn (op, r) (by simp))).1⟩

/-- **One winner.** In every run of commands in which no increment makes a new item while the
token is out: no answer has both `W` and `Z`, and after an answer with `W` no further `mg`
of the key is answered with `W` until the token is taken back. -/
theorem one_recache_winner :
    (∀ (s s' : Store Addr) op r, (winners Addr S key).Reachable (WinOk S key) s →
      WinOk S key s op → (winners Addr S key).step s op = some (s', r) →
      ¬(r.w = true ∧ r.z = true)) ∧
    ∀ (s1 s2 s3 s4 : Store Addr) op op' r r' (l : List (WinOp Addr × Marks)),
      (winners Addr S key).Reachable (WinOk S key) s1 → WinOk S key s1 op →
      (winners Addr S key).step s1 op = some (s2, r) → r.w = true →
      (winners Addr S key).Steps (WinOk S key) s2 l s3 → (∀ e ∈ l, e.2.resets = false) →
      WinOk S key s3 op' → (winners Addr S key).step s3 op' = some (s4, r') →
      r'.w = true → r'.resets = true := by
  constructor
  · rintro s s' op r hr ho hs ⟨hw, hz⟩
    have hn := ((winStep_token (winners_inv hr) ho hs).2.1 hw).1
    rw [hz] at hn
    cases hn
  intro s1 s2 s3 s4 op op' r r' l hr ho hs hw hl hn ho' hs' hw'
  obtain ⟨hi2, ha, -⟩ := winStep_token (winners_inv hr) ho hs
  obtain ⟨hi3, ha3⟩ := winners_awarded hi2 (ha hw).2 hl hn
  by_contra hre
  have hlo := ((winStep_token hi3 ho' hs').2.2 ha3 (by simpa using hre)).2
  rw [hw'] at hlo
  cases hlo

/-- Memory for a second item, in a server with two. -/
def secondRoom : Env (Fin 2) := ⟨fun _ => true, slabAt 1, slabAt 1, {}⟩

/-- A number with 100 seconds to live is stored. -/
def storeNine : List (WinOp (Fin 2)) :=
  (storeOps 0 (ascii "n") (ascii "9\r\n") 102 .set 0).map .op

def recacheLine : Tokens := ⟨[ascii "mg", ascii "n", ascii "R200"], none⟩

def vivifyLine : Tokens := ⟨[ascii "mg", ascii "n", ascii "N100"], none⟩

/-- After an answer with `W` the number is decremented in place and deleted: the next answer
with `W` comes with a new item. -/
theorem one_recache_winner_vivify :
    ∃ (s1 s2 s3 s4 : Store (Fin 2)) (r r' : Marks) (l : List (WinOp (Fin 2) × Marks)),
      (winners (Fin 2) textSettings (ascii "n")).step s1 (.mg secondRoom recacheLine) =
        some (s2, r) ∧ r.w = true ∧
      (winners (Fin 2) textSettings (ascii "n")).Steps (WinOk textSettings (ascii "n")) s2 l s3 ∧
      (winners (Fin 2) textSettings (ascii "n")).step s3 (.mg secondRoom vivifyLine) =
        some (s4, r') ∧ r'.w = true ∧ r'.resets = true := by
  have hi : (winners (Fin 2) textSettings (ascii "n")).Reachable
      (WinOk textSettings (ascii "n")) (emptyStore 2) := .of_init (emptyStore_init 2)
  obtain ⟨s1, he, hru⟩ := hi.exists_of_exec storeNine
    (p := fun s1 => ((winners (Fin 2) textSettings (ascii "n")).outputs
      (WinOk textSettings (ascii "n")) s1
      [.mg secondRoom recacheLine, .op (.remove 0),
        .op (.addDelta (ascii "n") false 1 0 false (slabAt 1)), .op (.delete (ascii "n")),
        .mg secondRoom vivifyLine]).any
          (fun x => x.1 = [{ w := true }, {}, {}, {}, { w := true, resets := true }]) = true)
    (by decide +kernel)
  have hr1 := he
  obtain ⟨⟨rs, s4⟩, ho, hr⟩ := (Option.any_eq_true _ _).mp hru
  obtain ⟨r, rs, s2, rfl, hok, hs, ho⟩ := System.outputs_cons ho
  obtain ⟨r1, rs, t1, rfl, ho1, hs1, ho⟩ := System.outputs_cons ho
  obtain ⟨r2, rs, t2, rfl, ho2, hs2, ho⟩ := System.outputs_cons ho
  obtain ⟨r3, rs, s3, rfl, ho3, hs3, ho⟩ := System.outputs_cons ho
  obtain ⟨r', rs, t4, rfl, ho', hs', ho⟩ := System.outputs_cons ho
  cases ho
  simp only [decide_eq_true_eq, List.cons.injEq, and_true] at hr
  obtain ⟨rfl, rfl, rfl, rfl, rfl⟩ := hr
  have hl := ((System.Steps.refl.tail ho1 hs1).tail ho2 hs2).tail ho3 hs3
  refine ⟨s1, s2, s3, s4, _, _, _, hs, rfl, hl, hs', rfl, ?_⟩
  exact one_recache_winner.2 s1 s2 s3 s4 _ _ _ _ _ hr1 hok hs rfl hl (by simp) ho' hs' rfl

/-- After an answer with `W` an increment from 9 to 10 makes a new item, and the next `mg` is
answered with `W` again: nobody stored the key or marked it stale in between. -/
theorem two_recache_winners :
    ∃ (l1 l2 : List (WinOp (Fin 2) × Marks)) (e e' : WinOp (Fin 2) × Marks) (s : Store (Fin 2)),
      (winners (Fin 2) textSettings (ascii "n")).Steps (fun s _ => CountsLow s) (emptyStore 2)
        (l1 ++ e :: l2 ++ [e']) s ∧ e.2.w = true ∧ e'.2.w = true ∧
      ∀ x ∈ l2 ++ [e'], x.2.resets = false := by
  obtain ⟨⟨rs, s⟩, ho, hrs⟩ := (Option.any_eq_true _ _).mp
    (show ((winners (Fin 2) textSettings (ascii "n")).outputs (fun s _ => CountsLow s)
      (emptyStore 2) (storeNine ++ [.mg secondRoom recacheLine, .op (.remove 0),
        .op (.addDelta (ascii "n") true 1 0 false (slabAt 1)), .mg secondRoom recacheLine])).any
          (fun x => x.1 = [{}, {}, { resets := true }, {}, { w := true }, {}, {}, { w := true }]) =
        true by decide +kernel)
  obtain rfl : rs = _ := of_decide_eq_true hrs
  have hr := System.Steps.of_outputs _ ho
  exact ⟨storeNine.zip [{}, {}, { resets := true }, {}],
    [(.op (.remove 0), {}), (.op (.addDelta (ascii "n") true 1 0 false (slabAt 1)), {})],
    (.mg secondRoom recacheLine, { w := true }), (.mg secondRoom recacheLine, { w := true }), s,
    hr, rfl, rfl, by simp⟩

end Memcached.Text
