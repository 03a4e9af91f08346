import Memcached.Util.Numbers

/-!
# Sending responses (`memcached.c`)

The responses of a connection wait in a chain. `transmit` hands as many of them as fit
into one `sendmsg`, which may accept only a part, up to the middle of a buffer or of a
chunk. `_transmit_pre` builds the array of buffers from what is left of the responses, and
`_transmit_post` takes off them what was accepted. The value of a chunked item is one
buffer of its response, whose length says how much is left. `_transmit_post` relies on
`tosend`, which the builders of a response keep equal to the sum of its lengths, and a
miss in external storage does not.

Results:
* `transmitPre_covers`: what one call offers is the front of what is left
* `transmitPost_spec`: what one call leaves is the rest
* `transmit_exact`: no byte is lost or repeated if `tosend` is the sum of the lengths
* `getk_miss_loses_byte`: after a miss of a `GETK` it is not
-/

namespace Memcached.Net

open List (length_cons length_append append_nil flatten_cons drop_append nil_append length_take
  length_drop drop_zero append_assoc map_cons length_nil)

/-! ## Responses -/

/-- `struct iovec`: the memory from `iov_base` on, and the number of bytes to send. -/
structure Iovec where
  base : Bytes
  len : ℕ
deriving DecidableEq

/-- `mc_resp` (`memcached.h`, lines 746-777), what `transmit` reads of it. `chunks` are
the used bytes of the chunks of the item that buffer `chunkedDataIov` points at;
a 0 there means that there is no such buffer. -/
structure McResp where
  iov : List Iovec := []
  chunks : List Bytes := []
  chunkedTotal : ℕ := 0
  chunkedDataIov : ℕ := 0
  tosend : ℕ := 0
  skip : Bool := false
deriving DecidableEq

def mcRespIovcount : ℕ := 4

def iovMax : ℕ := 1024

/-- `resp_add_iov` (lines 1212-1219). -/
def respAddIov (r : McResp) (base : Bytes) (len : ℕ) : McResp :=
  { r with iov := r.iov ++ [⟨base, len⟩], tosend := r.tosend + len }

/-- `resp_add_chunked_iov` (lines 1224-1228), for an item with these chunks. -/
def respAddChunkedIov (r : McResp) (chunks : List Bytes) (len : ℕ) : McResp :=
  respAddIov { r with chunkedDataIov := r.iov.length, chunkedTotal := len, chunks := chunks }
    [] len

/-- What `_storage_get_item_cb` (`storage.c`, lines 176-189) makes of the response to a binary
get if the read of its value, buffer `iovecData`, is a miss. -/
def storageMiss (r : McResp) (iovecData extlen : ℕ) : McResp :=
  let clear := fun v : Iovec => { v with len := 0 }
  { r with
    tosend := r.tosend - ((r.iov.map Iovec.len).getD iovecData 0 + extlen)
    iov := (r.iov.modify iovecData clear).modify (iovecData - 1) clear
    chunkedDataIov := 0 }

/-! ## `_transmit_pre` -/

/-- The loop over the chunks of an item (lines 2759-2780): `done` bytes of
the value are sent and `todo` are left. `iovs` is the array so far, with room for
`room` entries. -/
def preChunks (room : ℕ) : List Bytes → (done todo : ℕ) → List Bytes → List Bytes
  | [], _, _, iovs => iovs
  | ch :: chunks, done, todo, iovs =>
    if todo = 0 ∨ room ≤ iovs.length then iovs
    else if ch.length = 0 then preChunks room chunks done todo iovs
    else if ch.length ≤ done then preChunks room chunks (done - ch.length) todo iovs
    else
      let len := if ch.length - done > todo then todo else ch.length - done
      preChunks room chunks 0 (todo - (ch.length - done)) (iovs ++ [(ch.drop done).take len])

/-- The loop over the buffers of a response with a chunked item (lines
2752-2788), from buffer `x` on. -/
def preIovs (room : ℕ) (r : McResp) : ℕ → List Iovec → List Bytes → List Bytes
  | _, [], iovs => iovs
  | x, v :: iov, iovs =>
    let iovs :=
      if x = r.chunkedDataIov then preChunks room r.chunks (r.chunkedTotal - v.len) v.len iovs
      else iovs ++ [v.base.take v.len]
    if room ≤ iovs.length then iovs else preIovs room r (x + 1) iov iovs

/-- The entries that one response adds to the array. -/
def preResp (room : ℕ) (r : McResp) (iovs : List Bytes) : List Bytes :=
  if r.chunkedDataIov ≠ 0 then preIovs room r 0 r.iov iovs
  else iovs ++ r.iov.map fun v => v.base.take v.len

/-- `_transmit_pre` (lines 2738-2801); `room` is `IOV_MAX - 1`. -/
def transmitPre (room : ℕ) (oneResp : Bool) : List McResp → List Bytes → List Bytes
  | [], iovs => iovs
  | r :: chain, iovs =>
    if iovs.length + r.iov.length < room then
      if r.skip then transmitPre room oneResp chain iovs
      else if oneResp then preResp room r iovs
      else transmitPre room oneResp chain (preResp room r iovs)
    else iovs

/-! ## `_transmit_post` -/

/-- The loop over the buffers of a response of which only a part was accepted
(lines 2825-2844): the buffers, what is left of `res`, and `tosend`. -/
def postIovs (r : McResp) : ℕ → List Iovec → (res tosend : ℕ) → List Iovec × ℕ × ℕ
  | _, [], res, tosend => ([], res, tosend)
  | x, v :: iov, res, tosend =>
    if v.len ≤ res then
      let (iov, res, tosend) := postIovs r (x + 1) iov (res - v.len) (tosend - v.len)
      ({ v with len := 0 } :: iov, res, tosend)
    else
      -- the base of a chunked item's buffer stays, its length says where to go on
      let base := if r.chunkedDataIov = 0 ∨ x ≠ r.chunkedDataIov then v.base.drop res else v.base
      ({ base := base, len := v.len - res } :: iov, 0, tosend - res)

/-- `_transmit_post` (lines 2807-2855): the chain after `res` bytes were
accepted. -/
def transmitPost : List McResp → ℕ → List McResp
  | [], _ => []
  | r :: chain, res =>
    if r.skip then transmitPost chain res
    else if r.tosend ≤ res then transmitPost chain (res - r.tosend)
    else
      let (iov, res, tosend) := postIovs r 0 r.iov res r.tosend
      if tosend = 0 then transmitPost chain res
      else { r with iov := iov, tosend := tosend } :: chain

/-! ## `transmit` -/

/-- `enum transmit_result`, without the hard error that closes the connection. -/
inductive TransmitResult where
  | complete
  | incomplete
  | softError
deriving DecidableEq

/-- `transmit` (lines 2866-2939): the chain it leaves, the bytes the socket
accepted and the result. The socket accepts up to `n` bytes of what it is offered;
`none` is `EAGAIN`. -/
def transmit (chain : List McResp) (socket : Option ℕ) :
    List McResp × Bytes × TransmitResult :=
  let iovs := transmitPre (iovMax - 1) false chain []
  if iovs.length = 0 then (transmitPost chain 0, [], .complete)
  else
    match socket with
    | none => (chain, [], .softError)
    | some n =>
      let accepted := iovs.flatten.take n
      let chain := transmitPost chain accepted.length
      (chain, accepted, if chain = [] then .complete else .incomplete)

/-- Repeated calls of `transmit`: the chain at the end, and all bytes accepted. -/
def transmitAll : List McResp → List (Option ℕ) → List McResp × Bytes
  | chain, [] => (chain, [])
  | chain, socket :: sockets =>
    let (chain, accepted, _) := transmit chain socket
    let (chain, rest) := transmitAll chain sockets
    (chain, accepted ++ rest)

/-! ## The bytes of a response -/

/-- What is left to send of buffer `x`. -/
def iovBytes (r : McResp) (x : ℕ) (v : Iovec) : Bytes :=
  if r.chunkedDataIov ≠ 0 ∧ x = r.chunkedDataIov then
    (r.chunks.flatten.drop (r.chunkedTotal - v.len)).take v.len
  else v.base.take v.len

/-- What is left to send of the buffers from `x` on. -/
def iovsBytes (r : McResp) : ℕ → List Iovec → Bytes
  | _, [] => []
  | x, v :: iov => iovBytes r x v ++ iovsBytes r (x + 1) iov

def McResp.bytes (r : McResp) : Bytes := if r.skip then [] else iovsBytes r 0 r.iov

def chainBytes (chain : List McResp) : Bytes := chain.flatMap McResp.bytes

/-- Buffer `x` lies in memory that it may read. -/
def ValidIov (r : McResp) (x : ℕ) (v : Iovec) : Prop :=
  if r.chunkedDataIov ≠ 0 ∧ x = r.chunkedDataIov then
    v.len ≤ r.chunkedTotal ∧ r.chunkedTotal ≤ r.chunks.flatten.length
  else v.len ≤ v.base.length

instance (r : McResp) (x : ℕ) (v : Iovec) : Decidable (ValidIov r x v) :=
  inferInstanceAs (Decidable (if r.chunkedDataIov ≠ 0 ∧ x = r.chunkedDataIov then
    v.len ≤ r.chunkedTotal ∧ r.chunkedTotal ≤ r.chunks.flatten.length
    else v.len ≤ v.base.length))

/-- The buffers from `x` on lie in memory that they may read. -/
def ValidIovs (r : McResp) : ℕ → List Iovec → Prop
  | _, [] => True
  | x, v :: iov => ValidIov r x v ∧ ValidIovs r (x + 1) iov

instance (r : McResp) : (x : ℕ) → (iov : List Iovec) → Decidable (ValidIovs r x iov)
  | _, [] => inferInstanceAs (Decidable True)
  | x, v :: iov =>
    have := instDecidableValidIovs r (x + 1) iov
    inferInstanceAs (Decidable (ValidIov r x v ∧ ValidIovs r (x + 1) iov))

def lensum (iov : List Iovec) : ℕ := (iov.map Iovec.len).sum

/-- A response as `respAddIov` and `respAddChunkedIov` build it and `transmit` leaves it. -/
structure McResp.WF (r : McResp) : Prop where
  iovcnt : r.iov.length ≤ mcRespIovcount
  valid : ValidIovs r 0 r.iov
  tosend : r.tosend = lensum r.iov
  chunked : r.chunkedDataIov ≤ r.iov.length - 1

instance (r : McResp) : Decidable r.WF :=
  decidable_of_iff (r.iov.length ≤ mcRespIovcount ∧ ValidIovs r 0 r.iov ∧
    r.tosend = lensum r.iov ∧ r.chunkedDataIov ≤ r.iov.length - 1)
    ⟨fun ⟨h1, h2, h3, h4⟩ => ⟨h1, h2, h3, h4⟩, fun h => ⟨h.1, h.2, h.3, h.4⟩⟩

/-! ## Building responses -/

theorem iovsBytes_congr (r r' : McResp) (hc : r'.chunks = r.chunks)
    (ht : r'.chunkedTotal = r.chunkedTotal) (hi : r'.chunkedDataIov = r.chunkedDataIov)
    (x : ℕ) (iov : List Iovec) :
    iovsBytes r' x iov = iovsBytes r x iov ∧ (ValidIovs r' x iov ↔ ValidIovs r x iov) := by
  induction iov generalizing x with
  | nil => exact ⟨rfl, Iff.rfl⟩
  | cons v iov ih =>
    obtain ⟨hb, hv⟩ := ih (x + 1)
    simp only [iovsBytes, ValidIovs, iovBytes, ValidIov, hc, ht, hi, hb, hv,
      and_true]

variable {r : McResp} {iov : List Iovec} {x : ℕ}

theorem validIovs_concat (v : Iovec) :
    ValidIovs r x (iov ++ [v]) ↔ ValidIovs r x iov ∧ ValidIov r (x + iov.length) v := by
  induction iov generalizing x with
  | nil => simp [ValidIovs]
  | cons w iov ih =>
    simp only [List.cons_append, ValidIovs, ih, length_cons, and_assoc]
    rw [Nat.add_right_comm, Nat.add_assoc x iov.length 1]

theorem McResp.WF.respAddIov (h : r.WF) (hn : r.iov.length < mcRespIovcount) {base : Bytes}
    {len : ℕ} (hl : len ≤ base.length) : (respAddIov r base len).WF where
  iovcnt := by
    rw [Net.respAddIov, length_append]
    exact hn
  valid := by
    have hv := (iovsBytes_congr r (Net.respAddIov r base len) rfl rfl rfl 0 r.iov).2
    refine (validIovs_concat _).mpr ⟨hv.mpr h.valid, ?_⟩
    have := h.chunked
    rw [ValidIov, if_neg]
    · exact hl
    · rintro ⟨h0, he⟩
      simp only [Net.respAddIov] at h0 he
      omega
  tosend := by simp [Net.respAddIov, lensum, h.tosend]
  chunked := by
    have := h.chunked
    simp only [Net.respAddIov, length_append, List.length_singleton]
    omega

/-- Buffers before the one of the chunks do not depend on it. -/
theorem ValidIovs.of_before {r' : McResp} (h : ValidIovs r x iov) (hc : r.chunkedDataIov = 0)
    (hx : x + iov.length ≤ r'.chunkedDataIov) : ValidIovs r' x iov := by
  induction iov generalizing x with
  | nil => exact h
  | cons v iov ih =>
    rw [length_cons] at hx
    refine ⟨?_, ih h.2 (by omega)⟩
    have hl := h.1
    rw [ValidIov, if_neg (by simp [hc])] at hl
    rwa [ValidIov, if_neg (by omega)]

/-- The first buffer is never the one of the chunks, and there is one such buffer at most. -/
theorem McResp.WF.respAddChunkedIov (h : r.WF) (hn : r.iov.length < mcRespIovcount)
    (h0 : 0 < r.iov.length) (hc : r.chunkedDataIov = 0) {chunks : List Bytes} {len : ℕ}
    (hl : len ≤ chunks.flatten.length) : (respAddChunkedIov r chunks len).WF where
  iovcnt := by
    rw [Net.respAddChunkedIov, Net.respAddIov, length_append]
    exact hn
  valid := by
    have hx : (Net.respAddChunkedIov r chunks len).chunkedDataIov = r.iov.length := rfl
    refine (validIovs_concat _).mpr ⟨h.valid.of_before hc (by rw [hx, Nat.zero_add]), ?_⟩
    rw [ValidIov, if_pos ⟨hx ▸ h0.ne', by rw [hx, Nat.zero_add]⟩]
    exact ⟨le_rfl, hl⟩
  tosend := by simp [Net.respAddChunkedIov, Net.respAddIov, lensum, h.tosend]
  chunked := by simp [Net.respAddChunkedIov, Net.respAddIov]

/-! ## What a call offers -/

theorem preChunks_spec (room : ℕ) (chunks : List Bytes) (done todo : ℕ) (iovs : List Bytes) :
    ∃ added rest, preChunks room chunks done todo iovs = iovs ++ added ∧
      (∀ b ∈ added, b ≠ []) ∧ (chunks.flatten.drop done).take todo = added.flatten ++ rest ∧
      ((iovs ++ added).length < room → rest = []) := by
  induction chunks generalizing done todo iovs with
  | nil => exact ⟨[], [], by simp [preChunks], by simp, by simp, fun _ => rfl⟩
  | cons ch chunks ih =>
    by_cases hs : todo = 0 ∨ room ≤ iovs.length
    · rw [preChunks, if_pos hs]
      refine ⟨[], _, (append_nil _).symm, by simp, rfl, fun hr => ?_⟩
      have ht : todo = 0 := by
        rw [append_nil] at hr
        omega
      simp [ht]
    by_cases he : ch.length = 0
    · rw [preChunks, if_neg hs, if_pos he, List.length_eq_zero_iff.mp he]
      exact ih done todo iovs
    by_cases hse : ch.length ≤ done
    · obtain ⟨added, rest, heq, hn, hby, hr⟩ := ih (done - ch.length) todo iovs
      rw [preChunks, if_neg hs, if_neg he, if_pos hse]
      refine ⟨added, rest, heq, hn, ?_, hr⟩
      rw [flatten_cons, drop_append, List.drop_eq_nil_of_le hse, nil_append]
      exact hby
    -- the rest of this chunk goes into the array, and then the following ones
    have hl : (ch.drop done).take (if ch.length - done > todo then todo else ch.length - done) =
        (ch.drop done).take todo := by
      split_ifs
      · rfl
      · rw [List.take_of_length_le (by simp), List.take_of_length_le (by simp; omega)]
    obtain ⟨added, rest, heq, hn, hby, hr⟩ :=
      ih 0 (todo - (ch.length - done)) (iovs ++ [(ch.drop done).take todo])
    rw [preChunks, if_neg hs, if_neg he, if_neg hse]
    simp only [hl]
    refine ⟨(ch.drop done).take todo :: added, rest, by rw [heq]; simp, ?_, ?_, ?_⟩
    · intro b hb
      obtain rfl | hb := List.mem_cons.mp hb
      · apply List.ne_nil_of_length_pos
        simp only [length_take, length_drop]
        omega
      · exact hn b hb
    · rw [flatten_cons, drop_append, show done - ch.length = 0 by omega, drop_zero,
        List.take_append, length_drop, flatten_cons, append_assoc, ← hby,
        drop_zero]
    · intro hlt
      apply hr
      simpa using hlt

theorem preIovs_spec (room : ℕ) (hc : r.chunkedDataIov ≠ 0) (x : ℕ)
    (iov : List Iovec) (iovs : List Bytes) :
    ∃ added rest, preIovs room r x iov iovs = iovs ++ added ∧
      iovsBytes r x iov = added.flatten ++ rest ∧ ((iovs ++ added).length < room → rest = []) ∧
      (iovs.length + iov.length < room → added.flatten ≠ [] ∨ rest = []) := by
  induction iov generalizing x iovs with
  | nil => exact ⟨[], [], by simp [preIovs], rfl, fun _ => rfl, fun _ => .inr rfl⟩
  | cons v iov ih =>
    -- the entries of this buffer
    obtain ⟨entry, left, he, hb, hf, hne⟩ : ∃ entry left,
        (if x = r.chunkedDataIov then preChunks room r.chunks (r.chunkedTotal - v.len) v.len iovs
          else iovs ++ [v.base.take v.len]) = iovs ++ entry ∧
        iovBytes r x v = entry.flatten ++ left ∧ ((iovs ++ entry).length < room → left = []) ∧
        (entry.flatten ≠ [] ∨ entry.length ≤ 1) := by
      by_cases hx : x = r.chunkedDataIov
      · obtain ⟨added, rest, heq, ha, hb, hro⟩ :=
          preChunks_spec room r.chunks (r.chunkedTotal - v.len) v.len iovs
        refine ⟨added, rest, by rw [if_pos hx, heq], by rw [iovBytes, if_pos ⟨hc, hx⟩, hb],
          hro, ?_⟩
        cases added with
        | nil => exact .inr (by simp)
        | cons b added => exact .inl (by simp [ha b (by simp)])
      · exact ⟨[v.base.take v.len], [], by rw [if_neg hx],
          by rw [iovBytes, if_neg fun h => hx h.2]; simp, fun _ => rfl, .inr (by simp)⟩
    unfold preIovs
    simp only [he]
    by_cases hs : room ≤ (iovs ++ entry).length
    · rw [if_pos hs]
      refine ⟨entry, left ++ iovsBytes r (x + 1) iov, rfl, ?_, fun hl => by omega, fun hl => ?_⟩
      · rw [iovsBytes, hb, append_assoc]
      refine .inl (hne.resolve_right fun hle => ?_)
      simp only [length_append, length_cons] at hs hl
      omega
    rw [if_neg hs]
    obtain ⟨added, rest, heq, hr, hro, hp⟩ := ih (x + 1) (iovs ++ entry)
    refine ⟨entry ++ added, rest, by rw [heq, append_assoc], ?_, ?_, fun hl => ?_⟩
    · rw [iovsBytes, hb, hf (by omega), hr]
      simp
    · intro hl
      apply hro
      simpa using hl
    obtain hne | hle := hne
    · exact .inl (by simp [hne])
    have hn : (iovs ++ entry).length + iov.length < room := by
      simp only [length_append, length_cons] at hl ⊢
      omega
    obtain ha | hr := hp hn
    · exact .inl (by simp [ha])
    · exact .inr hr

theorem iovsBytes_of_not_chunked (h : r.chunkedDataIov = 0) (x : ℕ)
    (iov : List Iovec) : iovsBytes r x iov = (iov.map fun v => v.base.take v.len).flatten := by
  induction iov generalizing x with
  | nil => rfl
  | cons v iov ih =>
    rw [iovsBytes, ih (x + 1), iovBytes, if_neg fun hx => hx.1 h, map_cons, flatten_cons]

theorem preResp_spec (room : ℕ) (hs : r.skip = false) (iovs : List Bytes) :
    ∃ added rest, preResp room r iovs = iovs ++ added ∧ r.bytes = added.flatten ++ rest ∧
      ((iovs ++ added).length < room → rest = []) ∧
      (iovs.length + r.iov.length < room → added.flatten ≠ [] ∨ rest = []) := by
  unfold preResp McResp.bytes
  simp only [hs, Bool.false_eq_true, if_false]
  by_cases hc : r.chunkedDataIov ≠ 0
  · rw [if_pos hc]
    exact preIovs_spec room hc 0 r.iov iovs
  · rw [if_neg hc]
    refine ⟨_, [], rfl, ?_, fun _ => rfl, fun _ => .inr rfl⟩
    rw [iovsBytes_of_not_chunked (by simpa using hc), append_nil]

theorem transmitPre_of_full {room : ℕ} {iovs : List Bytes} (h : room ≤ iovs.length)
    (oneResp : Bool) (chain : List McResp) : transmitPre room oneResp chain iovs = iovs := by
  cases chain with
  | nil => rfl
  | cons r chain => rw [transmitPre, if_neg (by omega)]

theorem transmitPre_covers (room : ℕ) (chain : List McResp) (iovs : List Bytes) :
    ∃ added rest, transmitPre room false chain iovs = iovs ++ added ∧
      chainBytes chain = added.flatten ++ rest := by
  induction chain generalizing iovs with
  | nil => exact ⟨[], [], by simp [transmitPre], by simp [chainBytes]⟩
  | cons r chain ih =>
    unfold transmitPre
    simp only [Bool.false_eq_true, if_false]
    split_ifs with hro hs
    · obtain ⟨added, rest, heq, hb⟩ := ih iovs
      refine ⟨added, rest, heq, ?_⟩
      rw [chainBytes, List.flatMap_cons, McResp.bytes, if_pos hs]
      exact hb
    · obtain ⟨entries, left, he, hr, hf, -⟩ :=
        preResp_spec room (by simpa using hs) iovs
      rw [he, chainBytes, List.flatMap_cons, hr]
      by_cases hst : room ≤ (iovs ++ entries).length
      · rw [transmitPre_of_full hst]
        exact ⟨entries, _, rfl, append_assoc _ _ _⟩
      obtain ⟨added, rest, heq, hb⟩ := ih (iovs ++ entries)
      refine ⟨entries ++ added, rest, by rw [heq, append_assoc], ?_⟩
      rw [hf (by omega)]
      simp only [chainBytes] at hb
      rw [hb]
      simp
    · exact ⟨[], _, (append_nil _).symm, rfl⟩

variable {chain : List McResp}

theorem transmitPre_progress (room : ℕ) (hr : r.iov.length < room) (hs : r.skip = false)
    (hn : (transmitPre room false (r :: chain) []).flatten = []) : r.bytes = [] := by
  obtain ⟨entries, left, he, hre, -, hp⟩ := preResp_spec room hs []
  have hpr : transmitPre room false (r :: chain) [] = transmitPre room false chain entries := by
    rw [transmitPre, if_pos (by simpa using hr)]
    simp [hs, he]
  obtain ⟨added, rest, heq, -⟩ := transmitPre_covers room chain entries
  rw [hpr, heq, List.flatten_append, List.append_eq_nil_iff] at hn
  have hl : left = [] := (hp (by simpa using hr)).resolve_left fun h => h hn.1
  rw [hre, hn.1, hl, append_nil]

/-! ## What a call leaves -/

theorem length_iovBytes {v : Iovec} (h : ValidIov r x v) : (iovBytes r x v).length = v.len := by
  unfold ValidIov at h
  unfold iovBytes
  split_ifs at h ⊢
  · simp only [length_take, length_drop]
    omega
  · simp [h]

theorem length_iovsBytes (h : ValidIovs r x iov) : (iovsBytes r x iov).length = lensum iov := by
  induction iov generalizing x with
  | nil => rfl
  | cons v iov ih =>
    rw [iovsBytes, length_append, length_iovBytes h.1, ih h.2]
    simp [lensum]

theorem McResp.WF.length_bytes (h : r.WF) (hs : r.skip = false) : r.bytes.length = r.tosend := by
  rw [McResp.bytes, hs, if_neg (by simp), length_iovsBytes h.valid, h.tosend]

theorem iovBytes_sent {v : Iovec} (h : ValidIov r x v) :
    iovBytes r x { v with len := 0 } = [] ∧ ValidIov r x { v with len := 0 } := by
  unfold ValidIov at h
  unfold iovBytes ValidIov
  split_ifs at h ⊢
  · exact ⟨List.take_zero, Nat.zero_le _, h.2⟩
  · exact ⟨List.take_zero, Nat.zero_le _⟩

theorem iovBytes_partly_sent {r : McResp} {x res : ℕ} {v v' : Iovec} (h : ValidIov r x v)
    (hr : res < v.len)
    (hv : v' = { base := if r.chunkedDataIov = 0 ∨ x ≠ r.chunkedDataIov then v.base.drop res
                         else v.base
                 len := v.len - res }) :
    iovBytes r x v' = (iovBytes r x v).drop res ∧ ValidIov r x v' := by
  unfold ValidIov at h
  unfold iovBytes ValidIov
  subst hv
  by_cases hx : r.chunkedDataIov ≠ 0 ∧ x = r.chunkedDataIov
  · have hb : ¬(r.chunkedDataIov = 0 ∨ x ≠ r.chunkedDataIov) := by tauto
    simp only [if_pos hx, if_neg hb] at h ⊢
    refine ⟨?_, by omega, h.2⟩
    rw [List.drop_take, List.drop_drop]
    congr 2
    omega
  · have hb : r.chunkedDataIov = 0 ∨ x ≠ r.chunkedDataIov := by tauto
    simp only [if_neg hx, if_pos hb] at h ⊢
    refine ⟨List.drop_take.symm, ?_⟩
    simp only [length_drop]
    omega

theorem postIovs_spec {res : ℕ} (h : ValidIovs r x iov) (hr : res < lensum iov) :
    ∃ iov', postIovs r x iov res (lensum iov) = (iov', 0, lensum iov - res) ∧
      iovsBytes r x iov' = (iovsBytes r x iov).drop res ∧ ValidIovs r x iov' ∧
      lensum iov' = lensum iov - res ∧ iov'.length = iov.length := by
  induction iov generalizing x res with
  | nil => simp [lensum] at hr
  | cons v iov ih =>
    have hsu : lensum (v :: iov) = v.len + lensum iov := by simp [lensum]
    have hlen := length_iovBytes h.1
    unfold postIovs
    by_cases hs : v.len ≤ res
    · obtain ⟨iov', hp, hb, hv, hle, hl⟩ :=
        @ih (x + 1) (res - v.len) h.2 (by omega)
      have hz := iovBytes_sent h.1
      have hd : (iovBytes r x v).drop res = [] := List.drop_eq_nil_of_le (by omega)
      rw [if_pos hs, hsu, Nat.add_sub_cancel_left, hp]
      refine ⟨{ v with len := 0 } :: iov', ?_, ?_, ⟨hz.2, hv⟩, ?_, by simp [hl]⟩
      · simp only [Prod.mk.injEq, true_and]
        omega
      · rw [iovsBytes, hz.1, hb, iovsBytes, drop_append, hlen, hd]
      · have hc : lensum ({ v with len := 0 } :: iov') = lensum iov' := by simp [lensum]
        omega
    · obtain ⟨hb, hv⟩ := iovBytes_partly_sent h.1 (not_le.mp hs) rfl
      rw [if_neg hs]
      refine ⟨_, rfl, ?_, ⟨hv, h.2⟩, ?_, by simp⟩
      · rw [iovsBytes, hb, iovsBytes, drop_append, hlen, show res - v.len = 0 by omega,
          drop_zero]
      · simp only [lensum, map_cons, List.sum_cons]
        omega

theorem transmitPost_spec (h : ∀ r ∈ chain, r.WF) (res : ℕ) :
    chainBytes (transmitPost chain res) = (chainBytes chain).drop res ∧
      (∀ r ∈ transmitPost chain res, r.WF) ∧ (transmitPost chain res).length ≤ chain.length := by
  induction chain generalizing res with
  | nil => exact ⟨by simp [transmitPost, chainBytes], by simp [transmitPost], le_rfl⟩
  | cons r chain ih =>
    have hc : ∀ r ∈ chain, r.WF := fun r hr => h r (by simp [hr])
    have hco : chainBytes (r :: chain) = r.bytes ++ chainBytes chain := rfl
    have hw := h r (by simp)
    by_cases hs : r.skip = true
    · obtain ⟨hb, hre, hl⟩ := ih hc res
      rw [transmitPost, if_pos hs, hco, McResp.bytes, if_pos hs]
      exact ⟨hb, hre, hl.trans (by simp)⟩
    have hlen := hw.length_bytes (by simpa using hs)
    by_cases ha : r.tosend ≤ res
    · obtain ⟨hb, hre, hl⟩ := ih hc (res - r.tosend)
      rw [transmitPost, if_neg hs, if_pos ha]
      refine ⟨?_, hre, hl.trans (by simp)⟩
      have hd : r.bytes.drop res = [] := List.drop_eq_nil_of_le (by omega)
      rw [hb, hco, drop_append, hd, hlen, nil_append]
    -- this response is the one the socket stopped in, so something of it is left
    have hlt : res < lensum r.iov := by
      rw [← hw.tosend]
      omega
    obtain ⟨iov, hp, hb, hv, hsu, hcou⟩ := postIovs_spec hw.valid hlt
    have hk : transmitPost (r :: chain) res =
        { r with iov := iov, tosend := lensum r.iov - res } :: chain := by
      rw [transmitPost, if_neg hs, if_neg ha, hw.tosend, hp]
      simp only
      rw [if_neg (by omega)]
    have hcon := iovsBytes_congr r { r with iov := iov, tosend := lensum r.iov - res }
      rfl rfl rfl 0 iov
    rw [hk]
    refine ⟨?_, fun q hq => ?_, by simp⟩
    · have hle : McResp.bytes { r with iov := iov, tosend := lensum r.iov - res } =
          r.bytes.drop res := by
        show (if r.skip = true then [] else iovsBytes _ 0 iov) =
          (if r.skip = true then [] else iovsBytes r 0 r.iov).drop res
        rw [if_neg hs, if_neg hs, hcon.1, hb]
      rw [hco, drop_append, hlen, show res - r.tosend = 0 by omega, drop_zero, ← hle]
      rfl
    · obtain rfl | hq := List.mem_cons.mp hq
      · exact ⟨by simpa [hcou] using hw.iovcnt, hcon.2.mpr hv, hsu.symm,
          by simpa [hcou] using hw.chunked⟩
      · exact hc q hq

/-! ## Runs -/

/-- A call that accepts bytes makes the chain shorter, or what is left of it. -/
def work (chain : List McResp) : ℕ := (chainBytes chain).length + chain.length

theorem transmitPost_zero_length (h : ∀ q ∈ r :: chain, q.WF)
    (hb : r.skip = false → r.bytes = []) :
    (transmitPost (r :: chain) 0).length ≤ chain.length := by
  have hc : ∀ q ∈ chain, q.WF := fun q hq => h q (by simp [hq])
  have hr := (transmitPost_spec hc 0).2.2
  by_cases hs : r.skip = true
  · rw [transmitPost, if_pos hs]
    exact hr
  have hl := (h r (by simp)).length_bytes (by simpa using hs)
  rw [hb (by simpa using hs), length_nil] at hl
  rw [transmitPost, if_neg hs, if_pos (by omega), ← hl]
  exact hr

theorem eq_nil_of_preResp_nil {room : ℕ} (h : preResp room r [] = []) : r.iov = [] := by
  cases hi : r.iov with
  | nil => rfl
  | cons v iov =>
    -- the first buffer is never a chunked item
    unfold preResp at h
    by_cases hc : r.chunkedDataIov ≠ 0
    · rw [if_pos hc, hi, preIovs, if_neg hc.symm] at h
      simp only [nil_append] at h
      split_ifs at h
      obtain ⟨added, rest, he, -⟩ := preIovs_spec room hc (0 + 1) iov
        [v.base.take v.len]
      simp [he] at h
    · rw [if_neg hc, hi] at h
      simp at h

theorem transmitPost_of_pre_nil {room : ℕ} (hro : mcRespIovcount < room)
    (h : ∀ r ∈ chain, r.WF) (hp : transmitPre room false chain [] = []) :
    transmitPost chain 0 = [] := by
  induction chain with
  | nil => rfl
  | cons r chain ih =>
    have hc : ∀ r ∈ chain, r.WF := fun r hr => h r (by simp [hr])
    have hw := h r (by simp)
    have hf : ([] : List Bytes).length + r.iov.length < room := by
      have := hw.iovcnt
      simp only [length_nil]
      omega
    rw [transmitPre, if_pos hf] at hp
    by_cases hs : r.skip = true
    · rw [if_pos hs] at hp
      rw [transmitPost, if_pos hs]
      exact ih hc hp
    simp only [if_neg hs, Bool.false_eq_true, if_false] at hp
    obtain ⟨added, rest, he, -⟩ := transmitPre_covers room chain (preResp room r [])
    rw [he, List.append_eq_nil_iff] at hp
    have hi := eq_nil_of_preResp_nil hp.1
    have ht : r.tosend = 0 := by rw [hw.tosend, hi]; rfl
    rw [hp.1, hp.2, append_nil] at he
    rw [transmitPost, if_neg hs, if_pos (by omega), ht]
    exact ih hc he

theorem transmit_spec (h : ∀ r ∈ chain, r.WF) (socket : Option ℕ) :
    (transmit chain socket).2.1 ++ chainBytes (transmit chain socket).1 = chainBytes chain ∧
      (∀ r ∈ (transmit chain socket).1, r.WF) ∧
      ((transmit chain socket).2.2 = .complete ↔ (transmit chain socket).1 = []) ∧
      work (transmit chain socket).1 ≤ work chain ∧
      (∀ n, socket = some (n + 1) → chain ≠ [] → work (transmit chain socket).1 < work chain) := by
  obtain ⟨added, rest, hpr, hb⟩ := transmitPre_covers (iovMax - 1) chain []
  rw [nil_append] at hpr
  by_cases hn : added.length = 0
  · -- nothing to offer: what is left of the chain is empty
    have ha := List.length_eq_zero_iff.mp hn
    have hp := transmitPost_of_pre_nil (by decide) h (hpr.trans ha)
    have hc := (transmitPost_spec h 0).1
    rw [hp, drop_zero] at hc
    have heq : transmit chain socket = ([], [], .complete) := by
      simp [transmit, hpr, ha, hp]
    have hw : work ([] : List McResp) = 0 := rfl
    rw [heq]
    refine ⟨by simpa using hc, by simp, by simp, by simp [hw], fun n _ hne => ?_⟩
    rw [hw]
    exact Nat.add_pos_right _ (List.length_pos_iff.mpr hne)
  cases socket with
  | none =>
    have heq : transmit chain none = (chain, [], .softError) := by simp [transmit, hpr, hn]
    rw [heq]
    refine ⟨rfl, h, ⟨by simp, ?_⟩, le_rfl, by simp⟩
    rintro rfl
    simp [transmitPre] at hpr
    simp [← hpr] at hn
  | some n =>
    let accepted := added.flatten.take n
    let left := transmitPost chain accepted.length
    have heq : transmit chain (some n) =
        (left, accepted, if left = [] then .complete else .incomplete) := by
      simp [transmit, hpr, hn, left, accepted]
    obtain ⟨hl, hwf, hlen⟩ := transmitPost_spec h accepted.length
    have hle : left.length ≤ chain.length := hlen
    have hf : chainBytes chain = accepted ++ (chainBytes chain).drop accepted.length := by
      have ht : (chainBytes chain).take accepted.length = accepted := by
        rw [hb, List.take_append_of_le_length (by simp [accepted])]
        simp [accepted]
      nth_rewrite 1 [← List.take_append_drop accepted.length (chainBytes chain), ht]
      rfl
    have hco : (chainBytes chain).length = accepted.length + (chainBytes left).length := by
      rw [hl]
      nth_rewrite 1 [hf]
      rw [length_append]
    rw [heq]
    refine ⟨by rw [hl]; exact hf.symm, hwf, ?_, ?_, ?_⟩
    · split_ifs with he <;> simp [he]
    · show (chainBytes left).length + left.length ≤ (chainBytes chain).length + chain.length
      omega
    intro m hm hne
    show (chainBytes left).length + left.length < (chainBytes chain).length + chain.length
    obtain ⟨r, chain, rfl⟩ := List.exists_cons_of_ne_nil hne
    by_cases ho : added.flatten = []
    · -- only empty buffers were offered, so the first response is done
      have hfi : (transmitPost (r :: chain) 0).length ≤ chain.length := by
        refine transmitPost_zero_length h fun hs => ?_
        refine transmitPre_progress (iovMax - 1) ?_ hs (by rw [hpr]; exact ho)
        exact lt_of_le_of_lt (h r (by simp)).iovcnt (by decide)
      have hz : accepted.length = 0 := by simp [accepted, ho]
      have hlt : left.length ≤ chain.length := by
        simp only [left, hz]
        exact hfi
      simp only [length_cons]
      omega
    · have hpo : 0 < accepted.length := by
        have := List.length_pos_iff.mpr ho
        cases hm
        simp only [accepted, length_take]
        omega
      omega

/-- The calls in which the socket accepts at least one byte, if it is offered one. -/
def accepting (sockets : List (Option ℕ)) : ℕ :=
  (sockets.filter fun socket => socket.any (0 < ·)).length

/-- **Response stream exactness.** Over any sequence of calls of `transmit`, whatever
part of the offered bytes the socket accepts in each of them, the accepted bytes
followed by what is left are the bytes of the responses that are not skipped, in
order. A call answers `TRANSMIT_COMPLETE` exactly when it leaves nothing; and once
the socket has accepted bytes often enough, nothing is left. -/
theorem transmit_exact {chain : List McResp} (h : ∀ r ∈ chain, r.WF)
    (sockets : List (Option ℕ)) :
    (transmitAll chain sockets).2 ++ chainBytes (transmitAll chain sockets).1 =
        chainBytes chain ∧
      (∀ socket, (transmit (transmitAll chain sockets).1 socket).2.2 = .complete ↔
        (transmit (transmitAll chain sockets).1 socket).1 = []) ∧
      (work chain ≤ accepting sockets → (transmitAll chain sockets).1 = [] ∧
        (transmitAll chain sockets).2 = chainBytes chain) := by
  induction sockets generalizing chain with
  | nil =>
    refine ⟨rfl, fun socket => (transmit_spec h socket).2.2.1, fun hw => ?_⟩
    have hn : chain = [] := by
      have : chain.length = 0 := by
        simp only [work, accepting, List.filter_nil, length_nil] at hw
        omega
      exact List.length_eq_zero_iff.mp this
    subst hn
    exact ⟨rfl, rfl⟩
  | cons socket sockets ih =>
    obtain ⟨hb, hwf, -, hle, hlt⟩ := transmit_spec h socket
    obtain ⟨hr, hc, hd⟩ := ih hwf
    have ha : (transmitAll chain (socket :: sockets)).1 =
        (transmitAll (transmit chain socket).1 sockets).1 := rfl
    have hse : (transmitAll chain (socket :: sockets)).2 =
        (transmit chain socket).2.1 ++ (transmitAll (transmit chain socket).1 sockets).2 := rfl
    rw [ha, hse]
    refine ⟨by rw [append_assoc, hr, hb], hc, fun hw => ?_⟩
    have hl : work (transmit chain socket).1 ≤ accepting sockets := by
      cases socket with
      | none => exact hle.trans hw
      | some n =>
        cases n with
        | zero => exact hle.trans hw
        | succ n =>
          have hco : accepting (some (n + 1) :: sockets) = accepting sockets + 1 := by
            simp [accepting]
          by_cases hne : chain = []
          · subst hne
            exact Nat.zero_le _
          · have := hlt n rfl hne
            omega
    obtain ⟨hn, hs⟩ := hd hl
    exact ⟨hn, by rw [hs, hb]⟩

/-- A `VALUE` line with a value in two chunks and the final `END`, then a skipped
response and another one, sent in pieces of 7 bytes. -/
theorem transmit_exact_chunked :
    (transmitAll
      [{ iov := [⟨ascii "VALUE a 0 5\r\n", 13⟩, ⟨[], 7⟩, ⟨ascii "END\r\n", 5⟩],
         chunks := [ascii "abc", ascii "de\r\n"], chunkedTotal := 7, chunkedDataIov := 1,
         tosend := 25 },
       { iov := [⟨ascii "STORED\r\n", 8⟩], tosend := 8, skip := true },
       { iov := [⟨ascii "DELETED\r\n", 9⟩], tosend := 9 }]
      (List.replicate 37 (some 7))).2 =
    ascii "VALUE a 0 5\r\nabcde\r\nEND\r\nDELETED\r\n" := by
  rw [((transmit_exact ?_ _).2.2 ?_).2]
  · decide
  · decide
  · decide

/-- The response to a `GETK` whose item is lost in external storage: header, flags, key and
value. Of these the key and the value are cut, and `tosend` is less by the flags and
the value. -/
def getkMiss : McResp :=
  storageMiss (respAddIov (respAddIov (respAddIov (respAddIov {}
    ([0x81, 0x0c, 0, 3, 0, 0, 0, 1, 0, 0, 0, 3] ++ List.replicate 12 0) 24)
    [0, 0, 0, 0] 4) (ascii "key") 3) (ascii "v") 1) 3 4

/-- Two writes take all of this response and of the one to a `NOOP` behind it, but the first
byte of the latter is never sent. -/
theorem getk_miss_loses_byte :
    let noop : McResp := respAddIov {} ([0x81, 0x0a] ++ List.replicate 22 0) 24
    let sent := transmitAll [getkMiss, noop] [some 28, some 24]
    sent.1 = [] ∧ sent.2 = getkMiss.bytes ++ noop.bytes.tail ∧
      sent.2 ≠ chainBytes [getkMiss, noop] := by
  decide

end Memcached.Net
