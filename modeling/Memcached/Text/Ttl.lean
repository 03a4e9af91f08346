import Memcached.Text.Expiry
import Memcached.Text.MetaErrors

/-!
# The time that is left to an item (`proto_text.c`)

Flag `t` of `mg` and `ma` prints the expiry time of the item less the current time, as an
unsigned number. The same loop sets the expiry time: flag `T`, and flag `N` for an item that
the command has created. Times that are over are set too, and the item stays linked.

Results:
* `ttl_true_iff`: when the time that is printed is right
* `ttl_wraps`: one that is not
-/

namespace Memcached.Text

open Lib Items Util Proto

variable {Addr : Type*} {S : TextSettings} {s s' : Store Addr} {a : Addr} {key : Bytes}
  {of : MetaFlags} {t : Tokens}

/-! ## Specification -/

/-- What flag `t` prints for the item is true: it never expires, or what is left is not
negative and printed as a number. -/
def TtlTrue (s : Store Addr) (it : Item) : Prop :=
  (it.exptime = 0 ∧ ttlText s it = ascii "-1") ∨
    (it.exptime ≠ 0 ∧ s.currentTime ≤ it.exptime ∧
      ttlText s it = itoaU64 (it.exptime - s.currentTime))

def NotOver (now x : ℕ) : Prop := x = 0 ∨ now ≤ x

theorem ttlTrue_iff {it : Item} (h : it.exptime < 2 ^ 32) :
    TtlTrue s it ↔ NotOver s.currentTime it.exptime := by
  unfold TtlTrue NotOver ttlText
  by_cases hz : it.exptime = 0
  · simp [hz]
  simp only [hz, if_false, false_and, false_or, ne_eq, not_false_eq_true, true_and,
    and_iff_left_iff_imp]
  intro hl
  congr 1
  unfold sub32
  omega

/-! ## The loop over the flags -/

/-- The expiry time that the flags set so far: `T` always, `N` for an item that was created. -/
def flagExpiry (of : MetaFlags) (created : Bool) (x : Option ℕ) (token : Bytes) : Option ℕ :=
  match (token.headD 0).toNat with
  | 84 => some of.exptime -- T
  | 78 => if created then some of.autovivExptime else x -- N
  | _ => x

def lastExpiry (of : MetaFlags) (created : Bool) (tokens : List Bytes) : Option ℕ :=
  tokens.foldl (flagExpiry of created) none

/-- No flag `t` follows a flag that sets an expiry time that is over. -/
def NoTtlAfterOver (of : MetaFlags) (created : Bool) (now : ℕ) (tokens : List Bytes) : Prop :=
  ∀ pre token post, tokens = pre ++ token :: post → token.headD 0 = 116 →
    ∀ x, lastExpiry of created pre = some x → NotOver now x

/-- An opaque token that is too long, at which both loops stop. -/
def LongOpaque (token : Bytes) : Prop := isLongOpaque token = true

/-- The times of the flags are of the type `rel_time_t`. -/
def MetaFlags.Times32 (of : MetaFlags) : Prop := of.exptime < 2 ^ 32 ∧ of.autovivExptime < 2 ^ 32

theorem flagStore_expiry [DecidableEq Addr] (of : MetaFlags) (a : Addr) (created : Bool)
    (s : Store Addr) (token : Bytes) :
    (flagStore of a created s token).currentTime = s.currentTime ∧
      flagExpiry of created (some (s.items a).exptime) token =
        some ((flagStore of a created s token).items a).exptime := by
  have hs : ∀ e, (setExptime s a e).currentTime = s.currentTime ∧
      some e = some ((setExptime s a e).items a).exptime := by
    intro e
    rw [items_setExptime, if_pos rfl]
    exact ⟨rfl, rfl⟩
  unfold flagStore flagExpiry
  generalize (token.headD 0).toNat = n
  by_cases hT : n = 84
  · subst hT
    exact hs of.exptime
  by_cases hN : n = 78
  · subst hN
    cases created
    · exact ⟨rfl, rfl⟩
    · exact hs of.autovivExptime
  constructor
  all_goals
    repeat' split
    all_goals first | rfl | contradiction

theorem flagExpiry_lt {created : Bool} {x y : ℕ} {token : Bytes} (ht32 : MetaFlags.Times32 of)
    (hx : x < 2 ^ 32) (h : flagExpiry of created (some x) token = some y) : y < 2 ^ 32 := by
  unfold flagExpiry at h
  split at h
  · rw [← Option.some.inj h]
    exact ht32.1
  · split_ifs at h
    · rw [← Option.some.inj h]
      exact ht32.2
    · rwa [← Option.some.inj h]
  · rwa [← Option.some.inj h]

section Loop

variable [DecidableEq Addr] {σ : Type*} (flag : σ → Bytes → Option σ)

/-- The states in which the loop prints flag `t`. -/
def ttlStates : List Bytes → σ → List σ
  | [], _ => []
  | token :: tokens, m =>
    match flag m token with
    | none => []
    | some m' =>
      if token.headD 0 = 116 then m :: ttlStates tokens m' else ttlStates tokens m'

/-- The flags of a loop write to the item what `flagStore` says, and only an opaque token that
is too long ends it. -/
def FlagWrites (store : σ → Store Addr) (of : MetaFlags) (a : Addr) (created : Bool) : Prop :=
  ∀ m token, (isLongOpaque token = true ∧ flag m token = none) ∨
    (isLongOpaque token = false ∧ ∃ m', flag m token = some m' ∧
      store m' = flagStore of a created (store m) token)

variable {flag} {store : σ → Store Addr} {created : Bool}

/-- A loop that comes to its end prints true numbers exactly when the expiry time that the flags
before each flag `t` have set, or the one that the item had, is not over. -/
theorem ttlStates_true_iff (hspe : FlagWrites flag store of a created)
    (ht32 : MetaFlags.Times32 of) {now : ℕ} {tokens : List Bytes}
    (hen : ∀ token ∈ tokens, ¬LongOpaque token) (m : σ)
    (hno : (store m).currentTime = now) (h32 : ((store m).items a).exptime < 2 ^ 32) :
    (∀ x ∈ ttlStates flag tokens m, TtlTrue (store x) ((store x).items a)) ↔
      ∀ pre token post, tokens = pre ++ token :: post → token.headD 0 = 116 →
        NotOver now
          ((pre.foldl (flagExpiry of created) (some ((store m).items a).exptime)).getD 0) := by
  induction tokens generalizing m with
  | nil =>
    refine iff_of_true (by simp [ttlStates]) ?_
    intro pre token post he
    simp at he
  | cons token tokens ih =>
    obtain ⟨hs, hr⟩ := List.forall_mem_cons.mp hen
    rw [LongOpaque] at hs
    obtain ⟨m', hm, hst⟩ := ((hspe m token).resolve_left fun h => hs h.1).2
    obtain ⟨hc, hn⟩ := flagStore_expiry of a created (store m) token
    rw [← hst] at hc hn
    have hr := ih hr m' (hc.trans hno) (flagExpiry_lt ht32 h32 hn)
    -- the first flag, and those behind it
    have hsp : (∀ pre token' post, token :: tokens = pre ++ token' :: post →
          token'.headD 0 = 116 → NotOver now
            ((pre.foldl (flagExpiry of created) (some ((store m).items a).exptime)).getD 0)) ↔
        (token.headD 0 = 116 → NotOver now ((store m).items a).exptime) ∧
          ∀ pre token' post, tokens = pre ++ token' :: post → token'.headD 0 = 116 →
            NotOver now
              ((pre.foldl (flagExpiry of created) (some ((store m').items a).exptime)).getD 0) := by
      constructor
      · intro ha
        refine ⟨fun ht => ha [] token tokens rfl ht, ?_⟩
        intro pre token' post he ht
        have := ha (token :: pre) token' post (by rw [he]; rfl) ht
        rwa [List.foldl_cons, hn] at this
      rintro ⟨hf, ha⟩ pre token' post he ht
      cases pre with
      | nil =>
        obtain ⟨rfl, -⟩ := List.cons.inj he
        exact hf ht
      | cons c pre =>
        obtain ⟨rfl, hp⟩ := List.cons.inj he
        rw [List.foldl_cons, hn]
        exact ha pre token' post hp ht
    rw [hsp, ← hr, ttlStates, hm]
    simp only
    split_ifs with ht
    · simp only [List.forall_mem_cons, ht, true_imp_iff, ttlTrue_iff h32, hno]
    · simp only [ht, false_imp_iff, true_and]

end Loop

theorem foldl_flagExpiry (of : MetaFlags) (created : Bool) (x : ℕ) (tokens : List Bytes) :
    (tokens.foldl (flagExpiry of created) (some x)).getD 0 =
      (lastExpiry of created tokens).getD x := by
  have hg : ∀ y : Option ℕ, tokens.foldl (flagExpiry of created) (some (y.getD x)) =
      some ((tokens.foldl (flagExpiry of created) y).getD x) := by
    induction tokens with
    | nil => exact fun y => rfl
    | cons token tokens ih =>
      intro y
      have ho : flagExpiry of created (some (y.getD x)) token =
          some ((flagExpiry of created y token).getD x) := by
        unfold flagExpiry
        split
        · rfl
        · split_ifs <;> rfl
        · rfl
      rw [List.foldl_cons, List.foldl_cons, ho, ih]
  have h := hg none
  rw [Option.getD_none] at h
  rw [h, lastExpiry]
  rfl

theorem noTtlAfterOver_iff (of : MetaFlags) (created : Bool) {now x : ℕ} (hx : NotOver now x)
    (tokens : List Bytes) :
    (∀ pre token post, tokens = pre ++ token :: post → token.headD 0 = 116 →
        NotOver now ((pre.foldl (flagExpiry of created) (some x)).getD 0)) ↔
      NoTtlAfterOver of created now tokens := by
  unfold NoTtlAfterOver
  constructor
  · intro ha pre token post he ht y hy
    have := ha pre token post he ht
    rwa [foldl_flagExpiry, hy, Option.getD_some] at this
  intro ha pre token post he ht
  rw [foldl_flagExpiry]
  rcases hl : lastExpiry of created pre with _ | y
  · exact hx
  · exact ha pre token post he ht y hl

variable {created : Bool}

theorem noTtlAfterOver_of_times {now : ℕ} (hT : NotOver now of.exptime)
    (hN : NotOver now of.autovivExptime) (tokens : List Bytes) :
    NoTtlAfterOver of created now tokens := by
  intro pre token post he _
  clear he
  have hg : ∀ y : Option ℕ, (∀ x, y = some x → NotOver now x) →
      ∀ x, pre.foldl (flagExpiry of created) y = some x → NotOver now x := by
    induction pre with
    | nil => exact fun y hy => hy
    | cons token pre ih =>
      intro y hy
      refine ih _ fun x hx => ?_
      unfold flagExpiry at hx
      split at hx
      · rwa [← Option.some.inj hx]
      · split_ifs at hx
        · rwa [← Option.some.inj hx]
        · exact hy x hx
      · exact hy x hx
  exact hg none (fun x hx => nomatch hx)

/-! ## Times of 32 bits -/

theorem realtime_lt (S : Settings) (s : Store Addr) (x : ℕ) : realtime S s x < 2 ^ 32 := by
  unfold realtime
  split_ifs
  · omega
  · omega
  · exact Nat.mod_lt _ (by decide)
  · exact Nat.mod_lt _ (by decide)

theorem Preparse.number_times {α : Type} {p : Preparse} (hp : MetaFlags.Times32 p.of)
    (arg : Option α) (errstr : Bytes) {set : MetaFlags → α → MetaFlags}
    (hs : ∀ n, MetaFlags.Times32 (set p.of n)) :
    MetaFlags.Times32 (p.number arg errstr set).of := by
  cases arg with
  | none => exact hp
  | some n => exact hs n

theorem Preparse.flag_times {f : ℕ → ℕ} (hf : ∀ x, f x < 2 ^ 32) {p p' : Preparse}
    (hp : MetaFlags.Times32 p.of) {o : UInt8} {token : Bytes}
    (h : p.flag f o token = some p') : MetaFlags.Times32 p'.of := by
  unfold Preparse.flag at h
  simp only at h
  split at h
  case h_1 =>
    cases h
    split_ifs
    · exact hp
    · exact hp
  case h_2 =>
    cases h
    refine number_times ?_ _ _ fun _ => ?_
    · exact hp
    · exact ⟨hp.1, hf _⟩
  case h_3 =>
    cases h
    refine number_times ?_ _ _ fun _ => ?_
    · exact hp
    · exact ⟨hf _, hp.2⟩
  case h_20 =>
    split_ifs at h
    · cases h
      exact hp
    · cases h
      exact hp
  case h_24 => cases h
  case h_4 | h_18 | h_19 | h_21 | h_22 =>
    cases h
    refine number_times ?_ _ _ fun _ => ?_
    · exact hp
    · exact hp
  all_goals
    cases h
    exact hp

theorem preparseLoop_times {f : ℕ → ℕ} (hf : ∀ x, f x < 2 ^ 32) (tokens : List Bytes)
    (seen : List UInt8) {p : Preparse} (hp : MetaFlags.Times32 p.of)
    (h : preparseLoop f tokens seen p = .ok (of, key)) : MetaFlags.Times32 of := by
  induction tokens generalizing seen p with
  | nil =>
    rw [preparseLoop] at h
    split_ifs at h
    obtain ⟨rfl, -⟩ := Prod.mk.injEq .. ▸ Except.ok.inj h
    exact hp
  | cons token tokens ih =>
    rw [preparseLoop] at h
    split_ifs at h
    rcases hfl : p.flag f (token.headD 0) token with _ | p'
    · rw [hfl] at h
      cases h
    · rw [hfl] at h
      exact ih _ (Preparse.flag_times hf hp hfl) h

theorem metaFlagPreparse_times {r : Store Addr} {start : ℕ} {of0 : MetaFlags}
    (h0 : MetaFlags.Times32 of0)
    (h : metaFlagPreparse (realtime S.toSettings r) t start of0 = .ok (of, key)) :
    MetaFlags.Times32 of :=
  preparseLoop_times (realtime_lt S.toSettings r) _ _ h0 h

theorem mgetParsed_times (h : mgetParsed S.toSettings s t = some (of, key)) :
    MetaFlags.Times32 of := by
  unfold mgetParsed at h
  split_ifs at h
  rcases hp : metaFlagPreparse (realtime S.toSettings s) t 2 {} with e | r
  · rw [hp] at h
    cases h
  · rw [hp] at h
    obtain rfl : r = (of, key) := Option.some.inj h
    exact metaFlagPreparse_times ⟨by decide, by decide⟩ hp

theorem marithmeticParsed_times {incr : Bool}
    (h : marithmeticParsed S.toSettings s t = some (of, key, incr)) : MetaFlags.Times32 of := by
  unfold marithmeticParsed at h
  split_ifs at h
  rcases hp : metaFlagPreparse (realtime S.toSettings s) t 2 { delta := 1 } with e | ⟨of', key'⟩
  · rw [hp] at h
    cases h
  rw [hp] at h
  obtain ⟨incr', -, he⟩ := Option.map_eq_some_iff.mp h
  obtain rfl : of' = of := congrArg Prod.fst he
  exact metaFlagPreparse_times ⟨by decide, by decide⟩ hp

/-! ## The item of a response -/

/-- The expiry time of the item of a response is not over, the clock did not move, and the
item was created exactly when the key had none. -/
structure Target (s s' : Store Addr) (key : Bytes) (a : Addr) (created : Bool) : Prop where
  clock : s'.currentTime = s.currentTime
  notOver : NotOver s.currentTime (s'.items a).exptime
  lt : (s'.items a).exptime < 2 ^ 32
  created_iff : created = true ↔ s.Missing key

theorem Target.of_live (hh : s.Hit key a) (h32 : (s.items a).exptime < 2 ^ 32)
    (hc : s'.clock = s.clock) (hexp : (s'.items a).exptime = (s.items a).exptime) :
    Target s s' key a false := by
  refine ⟨currentTime_of_clock hc, ?_, by rwa [hexp], ?_⟩
  swap
  · exact iff_of_false (by decide) fun hm => hh.live (hm a hh.linked hh.key)
  rw [hexp]
  by_cases ho : (s.items a).expiredAt s.currentTime = true
  · exact absurd (.inr ho) hh.live
  simp only [Item.expiredAt, Bool.and_eq_true, bne_iff_ne, ne_eq, decide_eq_true_eq,
    not_and, not_le] at ho
  obtain hz | hp := Nat.eq_zero_or_pos (s.items a).exptime
  · exact .inl hz
  · exact .inr (le_of_lt (ho (by omega)))

variable [DecidableEq Addr] [Fintype Addr]

/-- The item of the response of `mg`, and whether the command has created it. -/
def mgetTarget (S : Settings) (env : Env Addr) (s : Store Addr) (of : MetaFlags) (key : Bytes) :
    Option (Store Addr × Addr × Bool) :=
  match mgetItem S env s of key with
  | (s, some a, created, false) => some (s, a, created)
  | _ => none

/-- The item of the response of `ma`, whether the command has created it, and its number. -/
def marithmeticTarget (S : Settings) (env : Env Addr) (s : Store Addr) (of : MetaFlags)
    (key : Bytes) (incr : Bool) : Option (Store Addr × Addr × Bool × Bytes) :=
  match doAddDelta S s key incr of.delta of.reqCasId true env.rounds with
  | (s, reply) =>
    match reply.result with
    | .ok => reply.itRet.map fun a => (s, a, false, reply.value)
    | .itemNotFound =>
      if of.vivify then
        match doItemAlloc S s key 0 0 ((itoaU64 of.initial).length + 2)
            (lockHeld (S.hash key) env.rounds) with
        | (_, none) => none
        | (s, some a) =>
          let (s, ret, _) := doStoreItem S (setData s a (itoaU64 of.initial ++ ascii "\r\n")) a
            .add false env.rounds' env.copy
          some (s, a, decide (ret ≠ .notStored), itoaU64 of.initial)
      else none
    | _ => none

theorem mgetTarget_notOver {S : Settings} (h : Inv S s) (hl : CountsLow s)
    (h32 : ∀ b, (s.items b).exptime < 2 ^ 32) {env : Env Addr}
    (ht : mgetTarget S env s of key = some (s', a, created)) : Target s s' key a created := by
  unfold mgetTarget at ht
  split at ht
  · rename_i s1 b created' he
    obtain ⟨rfl, rfl, rfl⟩ := Prod.mk.injEq .. ▸ Option.some.inj ht
    obtain hm | ⟨a, hh⟩ := missing_or_hit s key
    · obtain ⟨s2, hg, hq, hl2, hn⟩ :=
        doItemGet_miss h hl hm (!of.locked && !of.noUpdate) (env.room 0)
      simp only [mgetItem, limitedGet, hg] at he
      split_ifs at he
      · rcases hal : doItemAlloc S s2 key 0 0 2 (lockHeld (S.hash key) env.rounds) with
          ⟨s3, _ | new⟩
        · rw [hal] at he
          simp at he
        rw [hal] at he
        simp only [Prod.mk.injEq, Option.some.injEq] at he
        obtain ⟨rfl, rfl, rfl, -⟩ := he
        obtain ⟨hst, -⟩ := link_new hq.inv hl2 hn hal (ascii "\r\n")
        have hz :
            ((doItemLink S (setData s3 new (ascii "\r\n")) new).items new).exptime = 0 := by
          rw [hst.exptime_eq, items_setData, if_pos rfl]
          obtain ⟨_, hp, ha⟩ := doItemAlloc_some hq.inv hl2 hal
          exact (ha.item_eq hp.inv).2.2.1
        exact ⟨(currentTime_of_clock hst.clock).trans (currentTime_of_clock hq.clock), .inl hz,
          by rw [hz]; decide, iff_of_true rfl hm⟩
      · simp at he
    · obtain ⟨s2, hq, ho | ⟨hs, hr⟩⟩ :=
        limitedGet_of_hit h hl hh (!of.locked && !of.noUpdate) (env.room 0)
      · simp only [mgetItem, ho] at he
        simp at he
      simp only [mgetItem, hs, Prod.mk.injEq, Option.some.injEq] at he
      obtain ⟨rfl, rfl, rfl, -⟩ := he
      exact .of_live hh (h32 a) hq.clock
        (Item.proj_eq Item.exptime (hq.content a (hq.inv.not_slabbed_of_refs hr)))
  · cases ht

theorem marithmeticTarget_notOver {S : Settings} (h : Inv S s) (hl : CountsLow s)
    (h32 : ∀ b, (s.items b).exptime < 2 ^ 32) {env : Env Addr} {incr created : Bool} {value : Bytes}
    (ht : marithmeticTarget S env s of key incr = some (s', a, created, value)) :
    Target s s' key a created := by
  unfold marithmeticTarget at ht
  obtain hm | ⟨b, hh⟩ := missing_or_hit s key
  · obtain ⟨s1, hg, hq, hl1, hn⟩ := doItemGet_miss h hl hm false false
    have hd : doAddDelta S s key incr of.delta of.reqCasId true env.rounds =
        (s1, { result := .itemNotFound }) := by
      simp only [doAddDelta, doAddDeltaIn, hg]
    simp only [hd] at ht
    split_ifs at ht
    rcases hal : doItemAlloc S s1 key 0 0 ((itoaU64 of.initial).length + 2)
      (lockHeld (S.hash key) env.rounds) with ⟨s2, _ | new⟩
    · rw [hal] at ht
      cases ht
    obtain ⟨hc, s4, cas, hs, -, hst⟩ := add_new hq.inv hl1 hn hal
      (itoaU64 of.initial ++ ascii "\r\n") env.rounds' env.copy
    rw [hal] at ht
    simp only at ht
    rw [hs] at ht
    simp only [Option.some.injEq, Prod.mk.injEq] at ht
    obtain ⟨rfl, rfl, rfl, -⟩ := ht
    have hz : (s4.items new).exptime = 0 := by
      rw [hst.exptime_eq, items_setData, if_pos rfl]
      obtain ⟨_, hp, ha⟩ := doItemAlloc_some hq.inv hl1 hal
      exact (ha.item_eq hp.inv).2.2.1
    refine ⟨?_, .inl hz, by rw [hz]; decide, iff_of_true rfl hm⟩
    exact (currentTime_of_clock hst.clock).trans
      ((currentTime_of_clock hc.published.clock).trans (currentTime_of_clock hq.clock))
  · obtain ⟨s1, reply, hd, hou, hexp⟩ :=
      doAddDelta_outcome h hl hh incr of.delta of.reqCasId true env.rounds
    have hdo : reply.result = .ok → reply.itRet = some b → s1.clock = s.clock →
        Target s s' key a created := by
      intro ho hre hcl
      simp only [hd, ho, hre, Option.map_some, Option.some.injEq, Prod.mk.injEq] at ht
      obtain ⟨rfl, rfl, rfl, -⟩ := ht
      exact .of_live hh (h32 b) hcl (hexp rfl ho)
    cases hou with
    | refused hr _ => rcases hr with hr | hr <;> simp [hd, hr] at ht
    | noMemory hr _ => simp [hd, hr] at ht
    | edited buf hr he hk => exact hdo hr (hk rfl).1 he.clock
    | replaced value new it' hr _ _ _ hst _ _ hk =>
      exact hdo hr (hk rfl).1 hst.clock

/-! ## Responses -/

/-- The states in which the response of `mg` gets its numbers for flag `t`. -/
def mgetTtls (S : TextSettings) (env : Env Addr) (s : Store Addr) (t : Tokens) :
    List (Store Addr × Addr) :=
  match mgetParsed S.toSettings s t with
  | none => []
  | some (of, key) =>
    match mgetTarget S.toSettings env s of key with
    | none => []
    | some (s, a, created) =>
      let start := if of.value then ascii "VA " ++ itoaU64 ((s.items a).nbytes - 2) else nominal S
      if (mgetFlags of a created (t.toks.drop 2) { store := s, p := start }).2 then
        (ttlStates (mgetFlag of a created) (t.toks.drop 2) { store := s, p := start }).map
          fun m => (m.store, a)
      else []

/-- The states in which the response of `ma` gets its numbers for flag `t`. -/
def marithmeticTtls (S : TextSettings) (env : Env Addr) (s : Store Addr) (t : Tokens) :
    List (Store Addr × Addr) :=
  match marithmeticParsed S.toSettings s t with
  | none => []
  | some (of, key, incr) =>
    match marithmeticTarget S.toSettings env s of key incr with
    | none => []
    | some (s, a, created, value) =>
      let start := if of.value then ascii "VA " ++ itoaU64 value.length else nominal S
      if (marithmeticFlags of key a created (t.toks.drop 2) (s, start)).2 then
        (ttlStates (marithmeticFlag of key a created) (t.toks.drop 2) (s, start)).map
          fun m => (m.1, a)
      else []

/-! ## Main result -/

/-- The condition, for a command that is answered with an item: no flag `t` follows a flag
`T`, or a flag `N` when the key has no item, whose time is over. The last of these flags
counts. -/
def TtlInTime (s : Store Addr) (of : MetaFlags) (key : Bytes) (t : Tokens) : Prop :=
  ∀ created : Bool, (created = true ↔ s.Missing key) →
    NoTtlAfterOver of created s.currentTime (t.toks.drop 2)

omit [DecidableEq Addr] [Fintype Addr] in
theorem ttlInTime_iff (h : created = true ↔ s.Missing key) :
    TtlInTime s of key t ↔ NoTtlAfterOver of created s.currentTime (t.toks.drop 2) := by
  refine ⟨fun ha => ha created h, fun ho created' h' => ?_⟩
  obtain rfl : created = created' := Bool.eq_iff_iff.mpr (h.trans h'.symm)
  exact ho

omit [Fintype Addr] in
theorem response_ttls_iff {σ : Type*} {flag : σ → Bytes → Option σ} {store : σ → Store Addr}
    {created ended : Bool} (ht32 : MetaFlags.Times32 of) (ht : Target s s' key a created)
    (hs : FlagWrites flag store of a created)
    (he : ended = !(t.toks.drop 2).any isLongOpaque) {m : σ} (hm : store m = s') :
    (∀ x ∈ (if ended then (ttlStates flag (t.toks.drop 2) m).map fun m => (store m, a) else []),
      TtlTrue x.1 (x.1.items x.2)) ↔
      ((∀ token ∈ t.toks.drop 2, ¬LongOpaque token) → TtlInTime s of key t) := by
  have hi : ended = true ↔ ∀ token ∈ t.toks.drop 2, ¬LongOpaque token := by
    simp only [he, LongOpaque, Bool.not_eq_true', List.any_eq_false]
  rw [← hi, ttlInTime_iff ht.created_iff]
  by_cases hen : ended = true
  · subst hm
    rw [if_pos hen, imp_iff_right hen, List.forall_mem_map, ttlStates_true_iff hs ht32
      (hi.mp hen) m ht.clock ht.lt, noTtlAfterOver_iff of created ht.notOver]
  · rw [if_neg hen]
    simp only [hen, List.not_mem_nil, false_imp_iff, implies_true, reduceCtorEq]

/-- Every number of flag `t` in the responses of `mg` and `ma` is true exactly when no flag
`t` follows a flag whose time is over. A response has flags when the command was parsed,
has an item and no opaque token that is too long. -/
theorem ttl_true_iff (h : Inv S.toSettings s) (hlt : CountsLow s)
    (h32 : ∀ b, (s.items b).exptime < 2 ^ 32) (env : Env Addr) (t : Tokens) :
    ((∀ x ∈ mgetTtls S env s t, TtlTrue x.1 (x.1.items x.2)) ↔
      ∀ of key, mgetParsed S.toSettings s t = some (of, key) →
        (mgetTarget S.toSettings env s of key).isSome →
        (∀ token ∈ t.toks.drop 2, ¬LongOpaque token) → TtlInTime s of key t) ∧
    ((∀ x ∈ marithmeticTtls S env s t, TtlTrue x.1 (x.1.items x.2)) ↔
      ∀ of key incr, marithmeticParsed S.toSettings s t = some (of, key, incr) →
        (marithmeticTarget S.toSettings env s of key incr).isSome →
        (∀ token ∈ t.toks.drop 2, ¬LongOpaque token) → TtlInTime s of key t) := by
  constructor
  · unfold mgetTtls
    rcases hp : mgetParsed S.toSettings s t with _ | ⟨of, key⟩
    · simp
    rcases ht : mgetTarget S.toSettings env s of key with _ | ⟨s1, a, created⟩
    · simp [ht]
    simp only [ht]
    rw [response_ttls_iff (mgetParsed_times hp) (mgetTarget_notOver h hlt h32 ht)
      (fun m token => (mgetFlag_spec a of created m token).imp id fun ⟨h, m', hm, hs, _⟩ =>
        ⟨h, m', hm, hs⟩) (mgetFlags_spec a of created _ _).2.1 rfl]
    constructor
    · rintro hi of' key' ⟨⟩ _ hf
      exact hi hf
    · intro hi hf
      exact hi of key rfl (by rw [ht]; rfl) hf
  · unfold marithmeticTtls
    rcases hp : marithmeticParsed S.toSettings s t with _ | ⟨of, key, incr⟩
    · simp
    rcases ht : marithmeticTarget S.toSettings env s of key incr with
      _ | ⟨s1, a, created, value⟩
    · simp [ht]
    simp only [ht]
    rw [response_ttls_iff (marithmeticParsed_times hp)
      (marithmeticTarget_notOver h hlt h32 ht)
      (fun m token => (marithmeticFlag_spec a of key created m token).imp id
        fun ⟨h, m', hm, hs, _⟩ => ⟨h, m', hm, hs⟩)
      (marithmeticFlags_spec a of key created _ _).2.1 rfl]
    constructor
    · rintro hi of' key' incr' ⟨⟩ _ hf
      exact hi hf
    · intro hi hf
      exact hi of key incr rfl (by rw [ht]; rfl) hf

def startedText : TextSettings := { textSettings with processStarted := 1600000000 }

/-- `mg k T100 t` at time 2 prints 100. -/
theorem ttl_true_iff_hundred : ∃ s : Store (Fin 1), s.Linked 0 ∧
    (mgetTtls startedText oneRoom s
      ⟨[ascii "mg", ascii "k", ascii "T100", ascii "t"], none⟩).length = 1 ∧
    (∀ x ∈ mgetTtls startedText oneRoom s
      ⟨[ascii "mg", ascii "k", ascii "T100", ascii "t"], none⟩, TtlTrue x.1 (x.1.items x.2)) ∧
    (processMgetCommand startedText oneRoom s
      ⟨[ascii "mg", ascii "k", ascii "T100", ascii "t"], none⟩).resp.bytes =
        ascii "HD t100\r\n" := by
  have hi := emptyStore_reachable 1 startedSettings fun s _ => CountsLow s
  obtain ⟨s, hs, hlo, hl, hx, hn, ho, hr, hp⟩ := hi.exists_of_exec
    (storeOps 0 (ascii "k") (ascii "a\r\n") 0 .set 0)
    (p := fun s => CountsLow s ∧ s.Linked 0 ∧ (∀ b, (s.items b).exptime < 2 ^ 32) ∧
      s.currentTime = 2 ∧
      (mgetTtls startedText oneRoom s
        ⟨[ascii "mg", ascii "k", ascii "T100", ascii "t"], none⟩).length = 1 ∧
      (processMgetCommand startedText oneRoom s
        ⟨[ascii "mg", ascii "k", ascii "T100", ascii "t"], none⟩).resp.bytes =
          ascii "HD t100\r\n" ∧
      (mgetParsed startedSettings s
        ⟨[ascii "mg", ascii "k", ascii "T100", ascii "t"], none⟩).map
          (fun p => (p.1.exptime, p.1.autovivExptime)) = some (102, 0)) (by decide +kernel)
  have hin := reachable_inv (fun _ _ hok => hok) hs
  refine ⟨s, hl, ho, (ttl_true_iff (S := startedText) hin hlo hx oneRoom _).1.mpr ?_, hr⟩
  intro of key hof _ _ created _
  rw [show mgetParsed startedSettings s
    ⟨[ascii "mg", ascii "k", ascii "T100", ascii "t"], none⟩ = _ from hof] at hp
  obtain ⟨hT, hN⟩ := Prod.mk.injEq .. ▸ Option.some.inj hp
  refine noTtlAfterOver_of_times (.inr ?_) (.inl hN) _
  omega

/-- `mg k T-1 t` at time 2 prints `2 ^ 32 - 1`. -/
theorem ttl_wraps : ∃ s : Store (Fin 1),
    (system (Fin 1) startedSettings).Reachable (fun s _ => CountsLow s) s ∧ CountsLow s ∧
    s.currentTime = 2 ∧
    (processMgetCommand startedText oneRoom s
      ⟨[ascii "mg", ascii "k", ascii "T-1", ascii "t"], none⟩).resp.bytes =
        ascii "HD t4294967295\r\n" ∧
    ¬∀ x ∈ mgetTtls startedText oneRoom s
      ⟨[ascii "mg", ascii "k", ascii "T-1", ascii "t"], none⟩, TtlTrue x.1 (x.1.items x.2) := by
  have hi := emptyStore_reachable 1 startedSettings fun s _ => CountsLow s
  obtain ⟨s, hs, hl, hn, hr, he⟩ := hi.exists_of_exec
    (storeOps 0 (ascii "k") (ascii "a\r\n") 0 .set 0)
    (p := fun s => CountsLow s ∧ s.currentTime = 2 ∧
      (processMgetCommand startedText oneRoom s
        ⟨[ascii "mg", ascii "k", ascii "T-1", ascii "t"], none⟩).resp.bytes =
          ascii "HD t4294967295\r\n" ∧
      ∃ x ∈ mgetTtls startedText oneRoom s
        ⟨[ascii "mg", ascii "k", ascii "T-1", ascii "t"], none⟩,
        (x.1.items x.2).exptime ≠ 0 ∧ (x.1.items x.2).exptime < x.1.currentTime) (by decide +kernel)
  refine ⟨s, hs, hl, hn, hr, fun ha => ?_⟩
  obtain ⟨x, hx, hz, ho⟩ := he
  obtain ⟨h, -⟩ | ⟨-, h, -⟩ := ha x hx
  · exact hz h
  · omega

end Memcached.Text
