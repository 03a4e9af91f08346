import Memcached.Net.Transmit

/-!
# Writing requests to a backend (`proxy_network.c`)

`_flush_pending_write` hands the buffers of the requests that are not flushed yet to one
`writev`, and takes off them what was accepted. When a write stops inside a buffer the code
makes the buffer shorter but leaves `iov_base` where it is, so the next call sends the
beginning of the buffer again, and never its end.

Results:
* `flushed_exactly_once`: every request is written once if no write stops in a buffer
-/

namespace Memcached.Proxy

open Net
open List (length_take length_append nil_append flatten_cons length_drop map_cons length_map)

/-! ## Requests -/

/-- `mcp_request_t` (`proxy.h`, lines 287-295), what `mcp_request_attach` reads of it.
`changed` is the table of the tokens that were set from Lua. -/
structure McpRequest where
  request : Bytes
  tokens : List Bytes := []
  keytoken : ℕ := 1
  changed : ℕ → Option Bytes := fun _ => none
  wasModified : Bool := false
  value : Bytes := []
  request_ne : request ≠ []

/-- The token at position `x` of a request that is written anew: the command and the key
stay. -/
def McpRequest.token (rq : McpRequest) (x : ℕ) (token : Bytes) : Bytes :=
  if x ≠ 0 ∧ x ≠ rq.keytoken then (rq.changed x).getD token else token

/-- The request line (`proxy_request.c`, lines 468-515): the one the client sent, or the
tokens with the changed ones in place. The blank after the last token becomes the
line end. -/
def McpRequest.line (rq : McpRequest) : Bytes :=
  if rq.wasModified then
    (rq.tokens.zipIdx.flatMap fun (token, x) => rq.token x token ++ ascii " ").dropLast ++
      ascii "\r\n"
  else rq.request

def McpRequest.bytes (rq : McpRequest) : Bytes := rq.line ++ rq.value

/-- `io_pending_proxy_t` (`proxy.h`, lines 383-404), what is written of it. -/
structure IoPending where
  iov : List Iovec
  iovbytes : ℕ
  flushed : Bool := false
deriving DecidableEq

/-- `mcp_request_attach` (`proxy_request.c`, lines 467-533): the line, and the value if
there is one. -/
def mcpRequestAttach (rq : McpRequest) : IoPending :=
  let line : Iovec := { base := rq.line, len := rq.line.length }
  if rq.value.length ≠ 0 then
    { iov := [line, { base := rq.value, len := rq.value.length }]
      iovbytes := rq.line.length + rq.value.length }
  else { iov := [line], iovbytes := rq.line.length }

/-! ## Writing -/

def beIovMax : ℕ := 128

/-- `_prep_pending_write` (lines 854-876): the array of buffers and
`tosend`, an `unsigned int`. -/
def prepPendingWrite : List IoPending → List Iovec → ℕ → List Iovec × ℕ
  | [], iovs, tosend => (iovs, tosend)
  | io :: rest, iovs, tosend =>
    if io.flushed then prepPendingWrite rest iovs tosend
    else if io.iov.length + iovs.length > beIovMax then (iovs, (tosend + 1) % 2 ^ 32)
    else prepPendingWrite rest (iovs ++ io.iov) ((tosend + io.iovbytes) % 2 ^ 32)

/-- The loop over the buffers of a request of which only a part was accepted
(lines 902-914): the buffers, what is left of `sent`, and
`flushed`. -/
def takeOff : List Iovec → ℕ → List Iovec × ℕ × Bool
  | [], sent => ([], sent, true)
  | v :: iov, sent =>
    if v.len ≤ sent then
      let (iov, sent, flushed) := takeOff iov (sent - v.len)
      ({ v with len := 0 } :: iov, sent, flushed)
    -- the length shrinks, the base stays
    else ({ v with len := v.len - sent } :: iov, 0, false)

/-- The events that `_flush_pending_write` asks for. -/
structure Events where
  read : Bool := false
  write : Bool := false
deriving DecidableEq

/-- The loop over the queue after `sent` bytes were accepted (lines
890-923); the flag says that some request is flushed. -/
def markFlushed : List IoPending → ℕ → List IoPending × Bool
  | [], _ => ([], false)
  | io :: rest, sent =>
    if io.flushed then
      let (rest, read) := markFlushed rest sent
      (io :: rest, read)
    else if io.iovbytes ≤ sent then
      let io := { io with flushed := true }
      if sent - io.iovbytes = 0 then (io :: rest, true)
      else (io :: (markFlushed rest (sent - io.iovbytes)).1, true)
    else
      let (iov, left, flushed) := takeOff io.iov sent
      let io := { iov := iov, iovbytes := io.iovbytes - sent, flushed := flushed }
      if left = 0 then (io :: rest, flushed)
      else
        let (rest, read) := markFlushed rest left
        (io :: rest, flushed || read)

/-- What `writev` answers; a number of bytes is at most what it was offered. -/
inductive Writev where
  | accepted (n : ℕ)
  | again
  | error
deriving DecidableEq

/-- The state of a backend that writing reads and changes. -/
structure Writer where
  ioHead : List IoPending
  canWrite : Bool := true
deriving DecidableEq

def iovBytes (iovs : List Iovec) : Bytes := iovs.flatMap fun v => v.base.take v.len

/-- The bytes that the socket takes of the array when `writev` answers `res`. -/
def Writev.taken (iovs : List Iovec) : Writev → Bytes
  | accepted n => (iovBytes iovs).take n
  | _ => []

/-- `_flush_pending_write` (lines 878-933): the backend, the bytes that
the socket took, and the events, or `none` for an error. -/
def flushPendingWrite (be : Writer) (res : Writev) : Writer × Bytes × Option Events :=
  let (iovs, tosend) := prepPendingWrite be.ioHead [] 0
  let taken := res.taken iovs
  match res with
  | .accepted _ =>
    let sent := taken.length
    if 0 < sent then
      let (ioHead, read) := markFlushed be.ioHead sent
      ({ be with ioHead := ioHead }, taken, some { read := read, write := sent < tosend })
    else (be, taken, some {})
  | .again => ({ be with canWrite := false }, taken, some { write := true })
  | .error => (be, taken, none)

/-- Repeated calls: the backend and all bytes that the socket took. -/
def flushRepeatedly (be : Writer) : List Writev → Writer × Bytes
  | [] => (be, [])
  | res :: ress =>
    let (be, taken, _) := flushPendingWrite be res
    let (be, bytes) := flushRepeatedly be ress
    (be, taken ++ bytes)

/-! ## What is left of a request -/

/-- `n` bytes of an array of buffers end between two of them. -/
def EndsBetween : List Iovec → ℕ → Prop
  | [], _ => True
  | v :: iov, n => n = 0 ∨ v.len ≤ n ∧ EndsBetween iov (n - v.len)

instance decidableEndsBetween : (iov : List Iovec) → (n : ℕ) → Decidable (EndsBetween iov n)
  | [], _ => .isTrue trivial
  | v :: iov, n =>
    have := decidableEndsBetween iov (n - v.len)
    inferInstanceAs (Decidable (n = 0 ∨ v.len ≤ n ∧ EndsBetween iov (n - v.len)))

/-- No write of a sequence of calls stops inside a buffer. -/
def EndBetween (be : Writer) : List Writev → Prop
  | [] => True
  | res :: ress =>
    EndsBetween (prepPendingWrite be.ioHead [] 0).1
      (res.taken (prepPendingWrite be.ioHead [] 0).1).length ∧
    EndBetween (flushPendingWrite be res).1 ress

instance decidableEndBetween : (ress : List Writev) → (be : Writer) →
    Decidable (EndBetween be ress)
  | [], _ => .isTrue trivial
  | res :: ress, be =>
    have := decidableEndBetween ress (flushPendingWrite be res).1
    inferInstanceAs (Decidable (_ ∧ _))

/-- The bytes of a request that are still to be written. -/
def IoPending.left (io : IoPending) : Bytes := if io.flushed then [] else iovBytes io.iov

/-- The buffers hold as many bytes as their lengths say. -/
def Filled (iov : List Iovec) : Prop := ∀ v ∈ iov, v.len ≤ v.base.length

structure IoPending.Ok (io : IoPending) : Prop where
  filled : Filled io.iov
  iovbytes : io.flushed = false → io.iovbytes = (iovBytes io.iov).length
  pos : io.flushed = false → 0 < io.iovbytes

theorem iovBytes_cons (v : Iovec) (iov : List Iovec) :
    iovBytes (v :: iov) = v.base.take v.len ++ iovBytes iov := rfl

theorem iovBytes_append (iov iov' : List Iovec) :
    iovBytes (iov ++ iov') = iovBytes iov ++ iovBytes iov' := List.flatMap_append

theorem McpRequest.line_ne_nil (rq : McpRequest) : rq.line ≠ [] := by
  unfold McpRequest.line
  split_ifs
  · exact List.append_ne_nil_of_right_ne_nil _ (by decide)
  · exact rq.request_ne

theorem mcpRequestAttach_left (rq : McpRequest) : (mcpRequestAttach rq).left = rq.bytes := by
  unfold mcpRequestAttach McpRequest.bytes
  split_ifs with h
  · simp [IoPending.left, iovBytes]
  · have hv : rq.value = [] := List.eq_nil_of_length_eq_zero (not_not.mp h)
    simp [IoPending.left, iovBytes, hv]

theorem mcpRequestAttach_ok (rq : McpRequest) : (mcpRequestAttach rq).Ok := by
  have hl : 0 < rq.line.length := List.length_pos_iff.mpr rq.line_ne_nil
  unfold mcpRequestAttach
  split_ifs with h
  · refine ⟨by simp [Filled], fun _ => by simp [iovBytes], fun _ => ?_⟩
    exact Nat.add_pos_left hl _
  · exact ⟨by simp [Filled], fun _ => by simp [iovBytes], fun _ => hl⟩

/-! ## One write -/

variable {iov : List Iovec}

theorem length_take_base {v : Iovec} (h : Filled (v :: iov)) :
    (v.base.take v.len).length = v.len := by
  rw [length_take, Nat.min_eq_left (h v (.head _))]

theorem Filled.tail {v : Iovec} (h : Filled (v :: iov)) : Filled iov :=
  fun w hw => h w (.tail _ hw)

theorem endsBetween_zero (iov : List Iovec) : EndsBetween iov 0 := by
  cases iov with
  | nil => trivial
  | cons v iov => exact .inl rfl

theorem takeOff_spec (hf : Filled iov) {sent : ℕ}
    (hlt : sent < (iovBytes iov).length) (hb : EndsBetween iov sent) :
    Filled (takeOff iov sent).1 ∧ iovBytes (takeOff iov sent).1 = (iovBytes iov).drop sent ∧
      (takeOff iov sent).2 = (0, false) := by
  induction iov generalizing sent with
  | nil => exact absurd hlt (by simp [iovBytes])
  | cons v iov ih =>
    have hl := length_take_base hf
    rw [iovBytes_cons, length_append, hl] at hlt
    rw [takeOff]
    split_ifs with hle
    · have hb' : EndsBetween iov (sent - v.len) := by
        obtain rfl | hb := hb
        · rw [Nat.zero_sub]
          exact endsBetween_zero iov
        · exact hb.2
      obtain ⟨hfi, hby, hr⟩ := ih hf.tail (by omega) hb'
      refine ⟨?_, ?_, hr⟩
      · intro w hw
        obtain rfl | hw := List.mem_cons.mp hw
        · exact Nat.zero_le _
        · exact hfi w hw
      · show iovBytes ({ v with len := 0 } :: (takeOff iov (sent - v.len)).1) = _
        have hd : (v.base.take v.len).drop sent = [] :=
          List.drop_eq_nil_of_le (hl.symm ▸ hle)
        rw [iovBytes_cons, hby, iovBytes_cons, List.take_zero, nil_append,
          List.drop_append, hl, hd, nil_append]
    · have hz : sent = 0 := hb.resolve_right fun h => hle h.1
      subst hz
      exact ⟨hf, rfl, rfl⟩

/-- The buffers of the requests that are not flushed. -/
def unflushed (q : List IoPending) : List Iovec :=
  (q.filter fun io => !io.flushed).flatMap IoPending.iov

variable {io : IoPending}

theorem unflushed_cons_of_flushed (h : io.flushed = true) (q : List IoPending) :
    unflushed (io :: q) = unflushed q := by
  simp [unflushed, h]

theorem unflushed_cons (h : io.flushed = false) (q : List IoPending) :
    unflushed (io :: q) = io.iov ++ unflushed q := by
  simp [unflushed, h]

theorem iovBytes_unflushed (q : List IoPending) :
    iovBytes (unflushed q) = q.flatMap IoPending.left := by
  induction q with
  | nil => rfl
  | cons io q ih =>
    rw [List.flatMap_cons, IoPending.left]
    cases hf : io.flushed with
    | true => rw [unflushed_cons_of_flushed hf, if_pos rfl, nil_append, ih]
    | false => rw [unflushed_cons hf, iovBytes_append, if_neg (by simp), ih]

theorem prepPendingWrite_front (q : List IoPending) (iovs : List Iovec) (tosend : ℕ) :
    ∃ more, (prepPendingWrite q iovs tosend).1 ++ more = iovs ++ unflushed q := by
  induction q generalizing iovs tosend with
  | nil => exact ⟨[], rfl⟩
  | cons io q ih =>
    rw [prepPendingWrite]
    cases hf : io.flushed with
    | true =>
      rw [unflushed_cons_of_flushed hf, if_pos rfl]
      exact ih iovs tosend
    | false =>
      rw [if_neg (by simp)]
      split_ifs
      · exact ⟨_, rfl⟩
      · obtain ⟨more, hm⟩ := ih (iovs ++ io.iov) ((tosend + io.iovbytes) % 2 ^ 32)
        exact ⟨more, by rw [hm, unflushed_cons hf, List.append_assoc]⟩

/-- What is left of a queue of requests, and which of them are flushed, after the first
`k` bytes of them were accepted. -/
def progress : List Bytes → ℕ → List (Bytes × Bool)
  | [], _ => []
  | b :: bs, k => (b.drop k, b.length ≤ k) :: progress bs (k - b.length)

/-- What is left of a request, and whether it is flushed. -/
def IoPending.progress (io : IoPending) : Bytes × Bool := (io.left, io.flushed)

theorem flatMap_progress (bs : List Bytes) (k : ℕ) :
    (progress bs k).flatMap Prod.fst = bs.flatten.drop k := by
  induction bs generalizing k with
  | nil => simp [progress]
  | cons b bs ih => rw [progress, List.flatMap_cons, ih, flatten_cons, List.drop_append]

theorem EndsBetween.append (hf : Filled iov) {n : ℕ} (h : EndsBetween iov n)
    (hl : n ≤ (iovBytes iov).length) (iov' : List Iovec) : EndsBetween (iov ++ iov') n := by
  induction iov generalizing n with
  | nil =>
    obtain rfl : n = 0 := Nat.le_zero.mp hl
    exact endsBetween_zero _
  | cons v iov ih =>
    rw [iovBytes_cons, length_append, length_take_base hf] at hl
    obtain h | ⟨hlen, h⟩ := h
    · exact .inl h
    · exact .inr ⟨hlen, ih hf.tail h (by omega)⟩

theorem EndsBetween.append_left {iov iov' : List Iovec} (hf : Filled iov) {n : ℕ}
    (h : EndsBetween (iov ++ iov') n) (hlt : n < (iovBytes iov).length) : EndsBetween iov n := by
  induction iov generalizing n with
  | nil => trivial
  | cons v iov ih =>
    rw [iovBytes_cons, length_append, length_take_base hf] at hlt
    obtain h | ⟨hl, h⟩ := h
    · exact .inl h
    · exact .inr ⟨hl, ih hf.tail h (by omega)⟩

theorem EndsBetween.append_right {iov iov' : List Iovec} (hf : Filled iov) {n : ℕ}
    (h : EndsBetween (iov ++ iov') n) (hl : (iovBytes iov).length ≤ n) :
    EndsBetween iov' (n - (iovBytes iov).length) := by
  induction iov generalizing n with
  | nil => exact h
  | cons v iov ih =>
    rw [iovBytes_cons, length_append, length_take_base hf] at hl ⊢
    obtain rfl | ⟨hlen, h⟩ := h
    · rw [Nat.zero_sub]
      exact endsBetween_zero iov'
    · rw [Nat.sub_add_eq]
      exact ih hf.tail h (by omega)

theorem progress_partial (ho : io.Ok) (hf : io.flushed = false)
    {b : Bytes} {k n : ℕ} (hl : io.left = b.drop k) (hn : n < io.iovbytes)
    (hb : EndsBetween io.iov n) :
    let r := takeOff io.iov n
    let io' : IoPending := { iov := r.1, iovbytes := io.iovbytes - n, flushed := r.2.2 }
    r.2.1 = 0 ∧ io'.Ok ∧ io'.progress = (b.drop (k + n), decide (b.length ≤ k + n)) := by
  have hby : iovBytes io.iov = b.drop k := by
    rw [← hl, IoPending.left, if_neg (by simp [hf])]
  have hc := ho.iovbytes hf
  have hle : (iovBytes io.iov).length = b.length - k := by rw [hby, length_drop]
  obtain ⟨hfi, hd, hr⟩ := takeOff_spec ho.filled (hc ▸ hn) hb
  intro r io'
  have hfl : io'.flushed = false := congrArg Prod.snd hr
  refine ⟨congrArg Prod.fst hr, ⟨hfi, fun _ => ?_, fun _ => ?_⟩, ?_⟩
  · show io.iovbytes - n = (iovBytes r.1).length
    rw [hd, length_drop, hc]
  · show 0 < io.iovbytes - n
    omega
  · rw [IoPending.progress, IoPending.left, if_neg (by simp [hfl]), hfl,
      show iovBytes io'.iov = _ from hd, hby, List.drop_drop, decide_eq_false (by omega)]

variable {bs : List Bytes}

/-- **One write.** What is accepted is taken off the front of the queue, and the requests
that have nothing left are marked. -/
theorem markFlushed_progress {q : List IoPending} (hok : ∀ io ∈ q, io.Ok)
    {k n : ℕ} (hq : q.map IoPending.progress = progress bs k) (hb : EndsBetween (unflushed q) n) :
    (∀ io ∈ (markFlushed q n).1, io.Ok) ∧
      (markFlushed q n).1.map IoPending.progress = progress bs (k + n) := by
  induction q generalizing bs k n with
  | nil =>
    cases bs with
    | nil => exact ⟨hok, rfl⟩
    | cons b bs => exact absurd hq (by simp [progress])
  | cons io q ih =>
    cases bs with
    | nil => exact absurd hq (by simp [progress])
    | cons b bs =>
      obtain ⟨hi, hq⟩ := List.cons.inj hq
      obtain ⟨hl, hfl⟩ := Prod.mk.inj hi
      obtain ⟨ho, hokq⟩ := List.forall_mem_cons.mp hok
      rw [markFlushed, progress]
      cases hf : io.flushed with
      | true =>
        -- the bytes belong to the requests after it
        have hle : b.length ≤ k := by simpa [hf] using hfl
        rw [unflushed_cons_of_flushed hf] at hb
        obtain ⟨ho', hq'⟩ := ih hokq hq hb
        have hh : io.progress = (b.drop (k + n), decide (b.length ≤ k + n)) := by
          rw [IoPending.progress, IoPending.left, if_pos hf, hf,
            List.drop_eq_nil_of_le (by omega), decide_eq_true (by omega)]
        rw [if_pos rfl]
        refine ⟨List.forall_mem_cons.mpr ⟨ho, ho'⟩, ?_⟩
        rw [map_cons, hq', hh, Nat.sub_add_comm hle]
      | false =>
        have hlt : k < b.length := by simpa [hf] using hfl
        have hr : q.map IoPending.progress = progress bs 0 := by
          rw [← Nat.sub_eq_zero_of_le hlt.le]
          exact hq
        have hc := ho.iovbytes hf
        have hlen : io.iovbytes = b.length - k := by
          rw [hc, ← length_drop, ← hl, IoPending.left, if_neg (by simp [hf])]
        rw [unflushed_cons hf] at hb
        rw [if_neg (by simp)]
        by_cases ha : io.iovbytes ≤ n
        · -- all that was left of it is accepted
          have hh : ({ io with flushed := true } : IoPending).progress =
              (b.drop (k + n), decide (b.length ≤ k + n)) := by
            rw [IoPending.progress, IoPending.left, if_pos rfl,
              List.drop_eq_nil_of_le (by omega), decide_eq_true (by omega)]
          have hokh : ({ io with flushed := true } : IoPending).Ok :=
            ⟨ho.filled, nofun, nofun⟩
          have hk : k + n - b.length = 0 + (n - io.iovbytes) := by omega
          rw [if_pos ha, hk]
          by_cases hz : n - io.iovbytes = 0
          · rw [if_pos hz, hz]
            refine ⟨List.forall_mem_cons.mpr ⟨hokh, hokq⟩, ?_⟩
            rw [map_cons, hh, hr]
          have hcu := hb.append_right ho.filled (hc ▸ ha)
          rw [← hc] at hcu
          obtain ⟨ho', hq'⟩ := ih hokq hr hcu
          rw [if_neg hz]
          refine ⟨List.forall_mem_cons.mpr ⟨hokh, ho'⟩, ?_⟩
          rw [map_cons, hh, hq']
        · have hn' : n < io.iovbytes := Nat.lt_of_not_le ha
          have hk : k + n - b.length = 0 := by omega
          obtain ⟨hl0, ho', hh⟩ := progress_partial ho hf hl hn'
            (hb.append_left ho.filled (hc ▸ hn'))
          rw [if_neg ha, hk]
          simp only [hl0, if_true]
          refine ⟨List.forall_mem_cons.mpr ⟨ho', hokq⟩, ?_⟩
          rw [map_cons, hh, hr]

/-! ## Repeated calls -/

/-- After `k` bytes of the requests `bs` were accepted. -/
structure Written (bs : List Bytes) (k : ℕ) (be : Writer) : Prop where
  ok : ∀ io ∈ be.ioHead, io.Ok
  progress : be.ioHead.map IoPending.progress = progress bs k

variable {be : Writer}

section

variable {k : ℕ} (h : Written bs k be)
include h

theorem Written.offered :
    ∃ more, iovBytes (prepPendingWrite be.ioHead [] 0).1 ++ more = bs.flatten.drop k := by
  obtain ⟨more, hm⟩ := prepPendingWrite_front be.ioHead [] 0
  refine ⟨iovBytes more, ?_⟩
  rw [← iovBytes_append, hm, nil_append, iovBytes_unflushed, ← flatMap_progress,
    ← h.progress, List.flatMap_map]
  rfl

theorem Written.filled : Filled (unflushed be.ioHead) := by
  intro v hv
  obtain ⟨io, hi, hv⟩ := List.mem_flatMap.mp hv
  exact (h.ok io (List.mem_filter.mp hi).1).filled v hv

theorem Written.flushPendingWrite (res : Writev)
    (hb : EndsBetween (prepPendingWrite be.ioHead [] 0).1
      (res.taken (prepPendingWrite be.ioHead [] 0).1).length) :
    let r := Proxy.flushPendingWrite be res
    r.2.1 = (bs.flatten.drop k).take r.2.1.length ∧ Written bs (k + r.2.1.length) r.1 := by
  obtain ⟨more, hm⟩ := h.offered
  cases res with
  | accepted n =>
    have ht : (Writev.accepted n).taken (prepPendingWrite be.ioHead [] 0).1 =
        (bs.flatten.drop k).take
          ((Writev.accepted n).taken (prepPendingWrite be.ioHead [] 0).1).length := by
      rw [← hm, Writev.taken, length_take, List.take_append_of_le_length
        (Nat.min_le_right _ _), List.take_eq_take_iff, Nat.min_assoc, Nat.min_self]
    by_cases hp : 0 < ((Writev.accepted n).taken (prepPendingWrite be.ioHead [] 0).1).length
    · have he : Proxy.flushPendingWrite be (.accepted n) = _ := if_pos hp
      obtain ⟨rest, hr⟩ := prepPendingWrite_front be.ioHead [] 0
      rw [nil_append] at hr
      have hf : Filled (prepPendingWrite be.ioHead [] 0).1 := fun v hv =>
        h.filled v (hr ▸ List.mem_append_left _ hv)
      have hc := hb.append hf
        (by rw [Writev.taken, length_take]; exact Nat.min_le_right _ _) rest
      rw [hr] at hc
      obtain ⟨ho, hq⟩ := markFlushed_progress h.ok h.progress hc
      rw [he]
      exact ⟨ht, ho, hq⟩
    · have he : Proxy.flushPendingWrite be (.accepted n) = _ := if_neg hp
      rw [he]
      refine ⟨ht, ?_⟩
      show Written bs (k + ((Writev.accepted n).taken _).length) be
      rw [Nat.eq_zero_of_not_pos hp]
      exact h
  | again => exact ⟨rfl, h.ok, h.progress⟩
  | error => exact ⟨rfl, h.ok, h.progress⟩

theorem Written.flushRepeatedly (ress : List Writev) (hb : EndBetween be ress) :
    let r := Proxy.flushRepeatedly be ress
    r.2 = (bs.flatten.drop k).take r.2.length ∧ Written bs (k + r.2.length) r.1 := by
  induction ress generalizing k be with
  | nil => exact ⟨rfl, h⟩
  | cons res ress ih =>
    obtain ⟨ht, hw⟩ := h.flushPendingWrite res hb.1
    obtain ⟨hr, hw'⟩ := ih hw hb.2
    intro r
    have hby : r.2 = (Proxy.flushPendingWrite be res).2.1 ++
        (Proxy.flushRepeatedly (Proxy.flushPendingWrite be res).1 ress).2 := rfl
    rw [hby, length_append]
    refine ⟨?_, Nat.add_assoc k _ _ ▸ hw'⟩
    rw [List.take_add, ← ht, List.drop_drop, ← hr]

end

/-- A queue of requests of which nothing is written yet. -/
def attached (rqs : List McpRequest) : Writer := { ioHead := rqs.map mcpRequestAttach }

theorem McpRequest.bytes_pos (rq : McpRequest) : 0 < rq.bytes.length := by
  rw [McpRequest.bytes, length_append]
  exact Nat.add_pos_left (List.length_pos_iff.mpr rq.line_ne_nil) _

theorem mcpRequestAttach_progress (rq : McpRequest) :
    (mcpRequestAttach rq).progress = (rq.bytes, false) := by
  rw [IoPending.progress, mcpRequestAttach_left]
  unfold mcpRequestAttach
  split_ifs <;> rfl

theorem written_attached (rqs : List McpRequest) :
    Written (rqs.map McpRequest.bytes) 0 (attached rqs) := by
  refine ⟨?_, ?_⟩
  · intro io hi
    obtain ⟨rq, _, rfl⟩ := List.mem_map.mp hi
    exact mcpRequestAttach_ok rq
  induction rqs with
  | nil => rfl
  | cons rq rqs ih =>
    show (mcpRequestAttach rq).progress :: _ = _
    rw [map_cons, Proxy.progress, Nat.zero_sub, mcpRequestAttach_progress, List.drop_zero,
      decide_eq_false (Nat.not_le.mpr rq.bytes_pos)]
    exact congrArg _ ih

theorem flushed_of_progress (hbs : ∀ b ∈ bs, 0 < b.length)
    {q : List IoPending} {k i : ℕ} (hq : q.map IoPending.progress = progress bs k)
    (hi : i < q.length) : q[i].flushed = true ↔ (bs.take (i + 1)).flatten.length ≤ k := by
  induction q generalizing bs k i with
  | nil => exact absurd hi (Nat.not_lt_zero i)
  | cons io q ih =>
    cases bs with
    | nil => exact absurd hq (by simp [progress])
    | cons b bs =>
      obtain ⟨hio, hq⟩ := List.cons.inj hq
      have hf : io.flushed = decide (b.length ≤ k) := congrArg Prod.snd hio
      cases i with
      | zero => simp [hf]
      | succ i =>
        have hi' : i < q.length := Nat.lt_of_succ_lt_succ hi
        have hp : 0 < (bs.take (i + 1)).flatten.length := by
          cases bs with
          | nil =>
            rw [List.map_eq_nil_iff.mp hq] at hi'
            exact absurd hi' (Nat.not_lt_zero i)
          | cons c bs =>
            have hc := hbs c (by simp)
            rw [List.take_succ_cons, flatten_cons, length_append]
            omega
        rw [List.getElem_cons_succ, ih (fun b hb => hbs b (.tail _ hb)) hq hi',
          List.take_succ_cons, flatten_cons, length_append]
        omega

theorem length_progress (bs : List Bytes) (k : ℕ) : (progress bs k).length = bs.length := by
  induction bs generalizing k with
  | nil => rfl
  | cons b bs ih => rw [progress, List.length_cons, List.length_cons, ih]

/-- The bytes accepted are those of the requests in the order of the queue, and a request
is marked exactly when all its bytes, and those of the requests before it, are
accepted. -/
def WrittenOnce (rqs : List McpRequest) (ress : List Writev) : Prop :=
  let (be, bytes) := flushRepeatedly (attached rqs) ress
  bytes = (rqs.map McpRequest.bytes).flatten.take bytes.length ∧
    be.ioHead.map IoPending.flushed = (List.range rqs.length).map fun i =>
      decide (((rqs.take (i + 1)).map McpRequest.bytes).flatten.length ≤ bytes.length)

/-- **Every request is written once.** While no write stops inside a buffer, the bytes
accepted over any sequence of calls are those of the requests in queue order, and the
requests marked flushed are those all of whose bytes are accepted. -/
theorem flushed_exactly_once (rqs : List McpRequest) (ress : List Writev)
    (hb : EndBetween (attached rqs) ress) : WrittenOnce rqs ress := by
  obtain ⟨hby, hw⟩ := (written_attached rqs).flushRepeatedly ress hb
  rw [List.drop_zero] at hby
  rw [Nat.zero_add] at hw
  refine ⟨hby, ?_⟩
  have hl : (flushRepeatedly (attached rqs) ress).1.ioHead.length = rqs.length := by
    rw [← length_map IoPending.progress, hw.progress, length_progress, length_map]
  have hp : ∀ b ∈ rqs.map McpRequest.bytes, 0 < b.length := by
    intro b hm
    obtain ⟨rq, _, rfl⟩ := List.mem_map.mp hm
    exact rq.bytes_pos
  refine List.ext_getElem (by simp [hl]) fun i hi _ => ?_
  rw [length_map] at hi
  rw [List.getElem_map, List.getElem_map, List.getElem_range, List.map_take, Bool.eq_iff_iff,
    decide_eq_true_iff]
  exact flushed_of_progress hp hw.progress hi

/-- A request with a value, written in two calls that stop between the line and the
value. -/
theorem flushed_exactly_once_set :
    let rq : McpRequest :=
      { request := ascii "set a 0 0 1\r\n", value := ascii "x\r\n", request_ne := by decide }
    WrittenOnce [rq] [.accepted 13, .again, .accepted 3] :=
  flushed_exactly_once _ _ (by decide +kernel)

/-- A write that stops inside the line of a request: the next one sends its beginning
again. -/
theorem request_written_twice :
    ¬∀ (rqs : List McpRequest) (ress : List Writev), WrittenOnce rqs ress := by
  intro h
  have hr := (h [{ request := ascii "get a\r\n", request_ne := by decide }]
    [.accepted 3, .accepted 4]).1
  exact absurd hr (by decide +kernel)

end Memcached.Proxy
