import Mathlib.Data.List.Count
import Mathlib.Data.List.TakeDrop
import Mathlib.Data.Nat.Find
import Mathlib.Algebra.Order.Group.Nat

/-!
# Waiting for several pools (`proxy_await.c`)

`mcp.await` sends a request to `n` pools and suspends the coroutine until enough
replies have arrived, in any order. Every reply calls `mcplib_await_return`, also
the late ones, which come when the coroutine has long been resumed.

Main result: `await_completes_once`. Up to the reply that completes the await its
state is `awaiting`, a function of the replies so far, and after it `answered`.
-/

namespace Memcached.Proxy

inductive AwaitType
  | good | any | ok | first
  deriving DecidableEq

/-- An `io_pending_proxy_t` with its reply. -/
structure Reply where
  /-- the response object `mcpres_ref` -/
  mcpres : ℕ
  statusOk : Bool
  codeMiss : Bool
  awaitFirst : Bool

/-- `mcp_await_t` -/
structure Await where
  pending : ℤ
  waitFor : ℤ
  type : AwaitType
  completed : Bool

/-- The await object with what its calls act upon. -/
structure AwaitState where
  aw : Await
  restable : List Reply
  /-- the result tables that the coroutine was resumed with -/
  resumed : List (List Reply)
  /-- the pending count of the connection's queue -/
  count : ℤ
  /-- how often `await_ref` was released -/
  released : ℕ

/-- The wait count: `FIRST` is only looking for one valid request. -/
def needed (type : AwaitType) (wait : ℤ) : ℤ := if type = .first then 1 else wait

/-- `mcplib_await` (lines 26-91); `wait` is 0 when there is no third argument. -/
def mcplibAwait (type : AwaitType) (wait : ℤ) (n : ℕ) : Option Await :=
  if n = 0 then none
  else some ⟨n, needed type (if wait > n then n else wait), type, false⟩

/-- `await_first` in the loop of `mcplib_await_run` (lines 182-231) over `n` pools. -/
def awaitFlags (n : ℕ) : List Bool := true :: List.replicate (n - 1) false

/-- The count in `proxy_submit_cb` (`proto_proxy.c`, lines 232-251), for awaited requests. -/
def proxySubmitCount (count : ℤ) (flags : List Bool) : ℤ :=
  flags.foldl (fun count first => if first then count + 1 else count) count

def isGood (type : AwaitType) (p : Reply) : Bool :=
  match type with
  | .good => p.statusOk && !p.codeMiss
  | .any => true
  | .ok => p.statusOk
  | .first => p.awaitFirst

/-- The reply is compared with the wait count. -/
def Await.counting (aw : Await) : Bool := !aw.completed && decide (aw.waitFor > 0)

/-- `wait_for` after the reply `p`. -/
def Await.nextWaitFor (aw : Await) (p : Reply) : ℤ :=
  if aw.counting && isGood aw.type p then aw.waitFor - 1 else aw.waitFor

/-- `valid`: for `AWAIT_FIRST` only the first pool's reply is kept. -/
def Await.valid (aw : Await) (p : Reply) : Bool :=
  !aw.completed && !(aw.counting && aw.type == .first && !p.awaitFirst)

def Await.completing (aw : Await) (p : Reply) : Bool :=
  aw.counting && aw.nextWaitFor p == 0 || aw.pending - 1 == 0 && !aw.completed

/-- `mcplib_await_return` (lines 238-366) -/
def mcplibAwaitReturn (s : AwaitState) (p : Reply) : AwaitState :=
  let completing := s.aw.completing p
  let restable := if s.aw.valid p then s.restable ++ [p] else s.restable
  { aw := ⟨s.aw.pending - 1, s.aw.nextWaitFor p, s.aw.type, s.aw.completed || completing⟩
    restable := restable
    resumed := if completing then s.resumed ++ [restable] else s.resumed
    count := if completing then s.count - 1 else s.count
    released := if s.aw.pending - 1 = 0 then s.released + 1 else s.released }

/-- The await object as it is queued, and the replies `ps` to it. -/
def awaitRun (aw : Await) (count : ℤ) (ps : List Reply) : AwaitState :=
  ps.foldl mcplibAwaitReturn ⟨aw, [], [], count, 0⟩

/-! ## What an await is for -/

/-- The replies hold `w` good ones; never if `w` is not positive, which waits for all. -/
def Satisfied (type : AwaitType) (w : ℤ) (ps : List Reply) : Prop :=
  0 < w ∧ w ≤ ps.countP (isGood type)

def collected (type : AwaitType) (ps : List Reply) : List Reply :=
  if type = .first then ps.filter Reply.awaitFirst else ps

section Run

variable (type : AwaitType) (w : ℤ) (n : ℕ) (count : ℤ)

def waitLeft (ps : List Reply) : ℤ := if 0 < w then w - ps.countP (isGood type) else w

/-- The await object after the replies `ps`, when they have not completed it. -/
def opened (ps : List Reply) : Await := ⟨n - ps.length, waitLeft type w ps, type, false⟩

/-- The state after the replies `ps`, when they have not completed the await. -/
def awaiting (ps : List Reply) : AwaitState :=
  ⟨opened type w n ps, collected type ps, [], count, 0⟩

/-- The state after `m` replies, of which the first ones `qs` completed the await. -/
def answered (qs : List Reply) (m : ℕ) : AwaitState :=
  ⟨⟨n - m, waitLeft type w qs, type, true⟩, collected type qs, [collected type qs],
    count - 1, if m = n then 1 else 0⟩

variable {type w n count} {ps : List Reply} (p : Reply)

theorem counting_opened (h : ¬ Satisfied type w ps) :
    (opened type w n ps).counting = decide (0 < w) := by
  unfold Satisfied at h
  simp only [Await.counting, opened, waitLeft]
  grind

theorem nextWaitFor_opened (h : ¬ Satisfied type w ps) :
    (opened type w n ps).nextWaitFor p = waitLeft type w (ps ++ [p]) := by
  rw [Await.nextWaitFor, counting_opened h]
  simp only [opened, waitLeft, List.countP_append, List.countP_singleton]
  grind

theorem completing_opened (h : ¬ Satisfied type w ps) :
    (opened type w n ps).completing p = true ↔
      Satisfied type w (ps ++ [p]) ∨ (ps ++ [p]).length = n := by
  rw [Await.completing, counting_opened h, nextWaitFor_opened p h]
  unfold Satisfied at h ⊢
  simp only [opened, waitLeft, List.countP_append, List.countP_singleton, List.length_append,
    List.length_singleton]
  grind

theorem restable_opened (hf : type = .first → 0 < w) (h : ¬ Satisfied type w ps) :
    (if (opened type w n ps).valid p then collected type ps ++ [p] else collected type ps) =
      collected type (ps ++ [p]) := by
  rw [Await.valid, counting_opened h]
  by_cases ht : type = .first
  · cases hp : p.awaitFirst <;> simp [opened, collected, ht, hf ht, hp]
  · simp [opened, collected, ht]

open Classical in
/-- One reply to an await that waits. -/
theorem return_awaiting (hf : type = .first → 0 < w) (h : ¬ Satisfied type w ps) :
    mcplibAwaitReturn (awaiting type w n count ps) p =
      if Satisfied type w (ps ++ [p]) ∨ (ps ++ [p]).length = n
      then answered type w n count (ps ++ [p]) (ps ++ [p]).length
      else awaiting type w n count (ps ++ [p]) := by
  dsimp only [mcplibAwaitReturn, awaiting]
  rw [nextWaitFor_opened p h, restable_opened p hf h]
  have hn : (n : ℤ) - ps.length - 1 = n - ((ps ++ [p]).length : ℕ) := by
    simp only [List.length_append, List.length_singleton]
    omega
  have hz : (n : ℤ) - ((ps ++ [p]).length : ℕ) = 0 ↔ (ps ++ [p]).length = n := by omega
  have hc := completing_opened (n := n) p h
  by_cases hd : Satisfied type w (ps ++ [p]) ∨ (ps ++ [p]).length = n
  · simp only [hc.mpr hd, if_pos hd]
    simp only [opened, answered, hn, hz]
    simp
  · have hc' : (opened type w n ps).completing p = false := by
      simpa using mt hc.mp hd
    simp only [hc', if_neg hd]
    simp only [opened, hn, hz, if_neg (not_or.mp hd).2]
    simp

/-- A late reply. -/
theorem return_answered {m : ℕ} (hm : m < n) (qs : List Reply) :
    mcplibAwaitReturn (answered type w n count qs m) p = answered type w n count qs (m + 1) := by
  have hn : (n : ℤ) - m - 1 = n - ((m + 1 : ℕ) : ℤ) := by omega
  have hz : (n : ℤ) - ((m + 1 : ℕ) : ℤ) = 0 ↔ m + 1 = n := by omega
  simp only [mcplibAwaitReturn, answered, Await.completing, Await.valid, Await.nextWaitFor,
    Await.counting, hn, hz, if_neg hm.ne]
  simp

/-- The state after any number of the replies, when the first `k` of them complete the await. -/
theorem awaitRun_eq (hf : type = .first → 0 < w) {k : ℕ}
    (hk : Satisfied type w (ps.take k) ∨ k = ps.length) (hl : k ≤ ps.length)
    (h0 : 0 < k) (hj : ∀ j < k, ¬ Satisfied type w (ps.take j)) {m : ℕ} (hm : m ≤ ps.length) :
    awaitRun ⟨ps.length, w, type, false⟩ count (ps.take m) =
      if k ≤ m then answered type w ps.length count (ps.take k) m
      else awaiting type w ps.length count (ps.take m) := by
  -- on the number of replies: both states are explicit, so one step is one of the lemmas above
  induction m with
  | zero =>
    rw [if_neg (by omega)]
    simp [awaitRun, awaiting, opened, waitLeft, collected]
  | succ m ih =>
    have hs := List.take_succ_eq_append_getElem hm
    have hr : awaitRun ⟨ps.length, w, type, false⟩ count (ps.take (m + 1)) =
        mcplibAwaitReturn (awaitRun ⟨ps.length, w, type, false⟩ count (ps.take m)) ps[m] := by
      rw [awaitRun, hs, List.foldl_append]
      rfl
    rw [hr, ih (by omega)]
    by_cases hkm : k ≤ m
    · rw [if_pos hkm, if_pos (by omega), return_answered _ hm]
    · rw [if_neg hkm, return_awaiting _ hf (hj m (by omega)), ← hs,
        List.length_take_of_le hm]
      by_cases hk1 : k = m + 1
      · subst hk1
        rw [if_pos hk, if_pos le_rfl]
      · have hd := not_or.mpr ⟨hj (m + 1) (by omega), show m + 1 ≠ ps.length by omega⟩
        rw [if_neg hd, if_neg (by omega)]

end Run

/-- To cut the wait count to the number of pools changes nothing before the last reply. -/
theorem satisfied_cut {type : AwaitType} {wait : ℤ} {n : ℕ} {ps : List Reply}
    (h : ps.length < n) :
    Satisfied type (needed type (if wait > n then n else wait)) ps ↔
      Satisfied type (needed type wait) ps := by
  have := ps.countP_le_length (p := isGood type)
  unfold Satisfied needed
  split_ifs <;> omega

theorem proxySubmitCount_awaitFlags (count : ℤ) (n : ℕ) :
    proxySubmitCount count (awaitFlags n) = count + 1 := by
  rw [proxySubmitCount, awaitFlags, List.foldl_cons, if_pos rfl]
  induction n - 1 with
  | zero => rfl
  | succ n ih => exact ih

/-- One reply is the first pool's, and it is among those that complete an await of this type. -/
theorem collected_first {wait : ℤ} {n k : ℕ} {ps : List Reply}
    (hr : (ps.map Reply.awaitFirst).Perm (awaitFlags n))
    (hk : Satisfied .first (needed .first wait) (ps.take k) ∨ k = ps.length) :
    ∃ p ∈ ps, p.awaitFirst ∧ collected .first (ps.take k) = [p] := by
  have h1 : ps.countP Reply.awaitFirst = 1 := by
    have hc := hr.countP_eq id
    rw [List.countP_map] at hc
    simpa [awaitFlags, List.countP_replicate] using hc
  have h2 : 1 ≤ (ps.take k).countP Reply.awaitFirst := by
    obtain ⟨-, h⟩ | rfl := hk
    · exact Int.ofNat_le.mp h
    · rw [List.take_length, h1]
  have h3 := (List.take_sublist k ps).countP_le (p := Reply.awaitFirst)
  rw [h1] at h3
  rw [List.countP_eq_length_filter] at h2 h3
  obtain ⟨p, hp⟩ := List.length_eq_one_iff.mp (Nat.le_antisymm h3 h2)
  obtain ⟨hm, hf⟩ := List.mem_filter.mp (hp ▸ List.mem_singleton_self p)
  exact ⟨p, List.mem_of_mem_take hm, hf, hp⟩

/-- The await of as many pools as there are replies is completed by the first `k` replies: then the
coroutine is resumed, once, with the replies up to then, and the request, counted once
when it was submitted, stops counting as pending. The last reply releases the object. For
`AWAIT_FIRST` the table has one reply, that of the first pool. -/
structure CompletesAt (type : AwaitType) (wait : ℤ) (aw : Await) (count : ℤ)
    (ps : List Reply) (k : ℕ) : Prop where
  arrived : 1 ≤ k ∧ k ≤ ps.length
  enough : Satisfied type (needed type wait) (ps.take k) ∨ k = ps.length
  first : ∀ j < k, ¬ Satisfied type (needed type wait) (ps.take j)
  single : type = .first → (ps.map Reply.awaitFirst).Perm (awaitFlags ps.length) →
    ∃ p ∈ ps, p.awaitFirst ∧ collected type (ps.take k) = [p]
  run : ∀ m ≤ ps.length,
    let s := awaitRun aw (proxySubmitCount count (awaitFlags ps.length)) (ps.take m)
    s.resumed = (if k ≤ m then [collected type (ps.take k)] else []) ∧
      s.count = (if k ≤ m then count else count + 1) ∧
      s.released = (if m = ps.length then 1 else 0) ∧
      s.aw.completed = decide (k ≤ m) ∧ s.aw.pending = ps.length - m

/-- Every await completes, at one of its replies, whatever their order and their outcome. -/
theorem await_completes_once {type : AwaitType} {wait : ℤ} {aw : Await} (count : ℤ)
    (ps : List Reply) (ha : mcplibAwait type wait ps.length = some aw) :
    ∃ k, CompletesAt type wait aw count ps k := by
  obtain ⟨hn, ha⟩ := Option.ite_none_left_eq_some.mp ha
  obtain rfl := Option.some.inj ha
  classical
  have hex : ∃ k, Satisfied type (needed type wait) (ps.take k) ∨ k = ps.length :=
    ⟨_, .inr rfl⟩
  have hle : Nat.find hex ≤ ps.length := Nat.find_min' hex (.inr rfl)
  have hj : ∀ j < Nat.find hex, ¬ Satisfied type (needed type wait) (ps.take j) :=
    fun j h => (not_or.mp (Nat.find_min hex h)).1
  -- the wait count is not satisfied before the first reply
  have h0 : 0 < Nat.find hex := by
    refine (Nat.find_pos hex).mpr (not_or.mpr ⟨?_, Ne.symm hn⟩)
    rintro ⟨h1, h2⟩
    exact absurd (Int.lt_of_lt_of_le h1 h2) (lt_irrefl 0)
  have hk := Nat.find_spec hex
  refine ⟨_, ⟨h0, hle⟩, hk, hj, ?_, fun m hm => ?_⟩
  · rintro rfl hr
    exact collected_first hr hk
  generalize Nat.find hex = k at *
  -- the object has the wait count cut to the number of pools
  have hc : ∀ j < ps.length, (Satisfied type _ (ps.take j) ↔ _) := fun j h =>
    @satisfied_cut type wait _ _ (Nat.lt_of_le_of_lt (List.length_take_le j ps) h)
  rw [proxySubmitCount_awaitFlags, awaitRun_eq ?_ ?_ hle h0 ?_ hm]
  · by_cases hkm : k ≤ m
    · simp [hkm, answered]
    · have hne : m ≠ ps.length := by omega
      simp [hkm, awaiting, opened, hm, hne]
  · rintro rfl
    exact Int.one_pos
  · obtain rfl | hne := eq_or_ne k ps.length
    · exact .inr rfl
    · exact hk.imp (hc k (by omega)).mpr id
  · exact fun j h => mt (hc j (by omega)).mp (hj j h)

/-- The second of two pools answers with a miss, then the first one with a hit. -/
theorem await_completes_once_two :
    ∃ k, CompletesAt .good 1 ⟨2, 1, .good, false⟩ 0
      [⟨0, true, true, false⟩, ⟨1, true, false, true⟩] k :=
  await_completes_once 0 _ rfl

end Memcached.Proxy
