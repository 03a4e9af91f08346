import Memcached.Util.Numbers
import Mathlib.Data.List.Induction
import Mathlib.Data.List.TakeDrop

/-!
# Reading the responses of a backend (`proxy_network.c`)

`proxy_backend_drive_machine` takes the responses of a backend out of the read buffer and
gives them to the requests that wait for them. A value that is not complete in the buffer
is copied piece by piece (`mcp_backend_want_read`). The test that ends the copying compares
`bread`, which counts the response line too, with the length of the value alone. The `END`
of a miss in a multiget stays in the buffer, and the next request gets it.

Results:
* `reads_independent_iff`: for which cuts of the stream the requests get their responses
-/

namespace Memcached.Proxy

open List (append_assoc length_map length_append nil_append take_append append_nil take_left
  drop_left length_nil take_length length_cons prefix_append map_nil prefix_rfl)

/-! ## Responses of a backend -/

/-- `MCMC_RESP_*` (`mcmc.h`); `other` are those that the proxy does not handle. -/
inductive RespType where
  | get
  | endOfList
  | metaLine
  | generic
  | numeric
  | other
deriving DecidableEq

/-- `mcmc_resp_t`, what the proxy reads of it. -/
structure McmcResp where
  type : RespType := .generic
  reslen : ℕ := 0
  vlen : ℕ := 0
  vlenRead : ℕ := 0
deriving DecidableEq

/-- `MCMC_OK`, `MCMC_WANT_READ` and the errors. -/
inductive Status where
  | ok
  | wantRead
  | err
deriving DecidableEq

/-- What a response line says: its kind and the length of the value after it, with the
line end. -/
abbrev LineInfo := Bytes → Option (RespType × ℕ)

/-- `mcmc_parse_buf` (`mcmc.c`, lines 347-372): one line and what it says. -/
def mcmcParseBuf (info : LineInfo) (buf : Bytes) : Status × McmcResp :=
  if (10 : UInt8) ∈ buf then
    let line := buf.takeWhile (· != 10) ++ [10]
    match info line with
    | some (type, vlen) =>
      (.ok, { type := type, reslen := line.length, vlen := vlen,
              vlenRead := min vlen (buf.length - line.length) })
    | none => (.err, {})
  else (.wantRead, {})

/-- `mcp_resp_t`; a byte of `buf` that was not written since `malloc` is `none`. -/
structure McpResp where
  status : Status := .ok
  resp : McmcResp := {}
  buf : List (Option UInt8) := []
  blen : ℕ := 0
  bread : ℕ := 0
deriving DecidableEq

/-- `memcpy(buf + off, src, len)` -/
def copyTo (buf : List (Option UInt8)) (off : ℕ) (src : Bytes) : List (Option UInt8) :=
  buf.take off ++ src.map some ++ buf.drop (off + src.length)

def endStr : Bytes := ascii "END\r\n"

/-! ## The state machine -/

inductive BackendState where
  | read
  | parse
  | readEnd
  | wantRead
  | next
deriving DecidableEq

structure ReadPending where
  asciiMultiget : Bool := false
  clientResp : McpResp := {}
deriving DecidableEq

/-- The part of a backend that reading changes: `rbuf` is what is used of the read buffer,
`returned` are the responses of the requests that were returned. -/
structure Reader where
  state : BackendState := .read
  rbuf : Bytes := []
  ioHead : List ReadPending
  returned : List McpResp := []
deriving DecidableEq

/-- What `proxy_backend_drive_machine` returns: -1, or whether it asks for a read event. -/
inductive Drive where
  | fail
  | ok (evRead : Bool)
deriving DecidableEq

/-- `mcp_backend_parse` (lines 532-637). -/
def stepParse (info : LineInfo) (be : Reader) (p : ReadPending) (rest : List ReadPending) :
    Reader × Option Drive :=
  match mcmcParseBuf info be.rbuf with
  | (.ok, resp) =>
    let r := { p.clientResp with status := .ok, resp := resp }
    let stop : Option Drive := if resp.type = .other then some .fail else none
    if p.asciiMultiget = true ∧ resp.type = .endOfList then
      -- the line stays in the buffer
      ({ be with state := .next, ioHead := { p with clientResp := r } :: rest }, stop)
    else
      let extraSpace := if resp.type = .get then endStr.length else 0
      let blen := resp.reslen + resp.vlen
      let n := resp.reslen + resp.vlenRead
      let r := { r with
        blen := blen
        buf := copyTo (List.replicate (blen + extraSpace) none) 0 (be.rbuf.take n) }
      if resp.vlen ≠ resp.vlenRead then
        ({ be with
            state := .wantRead
            rbuf := []
            ioHead := { p with clientResp := { r with bread := n } } :: rest },
          some (if resp.type = .other then .fail else .ok true))
      else
        ({ be with
            state := if resp.type = .get then .readEnd else .next
            rbuf := be.rbuf.drop n
            ioHead := { p with clientResp := r } :: rest },
          stop)
  | (status, _) =>
    ({ be with ioHead := { p with clientResp := { p.clientResp with status := status } } :: rest },
      some (if status = .wantRead then .ok true else .fail))

/-- `mcp_backend_read_end` (lines 638-673). -/
def stepReadEnd (be : Reader) (p : ReadPending) (rest : List ReadPending) :
    Reader × Option Drive :=
  if endStr.length ≤ be.rbuf.length then
    if be.rbuf.take endStr.length ≠ endStr then (be, some .fail)
    else
      let r := p.clientResp
      let r := if p.asciiMultiget then r
        else { r with buf := copyTo r.buf r.blen endStr, blen := r.blen + endStr.length }
      ({ be with
          state := .next
          rbuf := be.rbuf.drop endStr.length
          ioHead := { p with clientResp := r } :: rest }, none)
  else (be, some (.ok true))

/-- `mcp_backend_want_read` (lines 674-708). -/
def stepWantRead (be : Reader) (p : ReadPending) (rest : List ReadPending) :
    Reader × Option Drive :=
  let r := p.clientResp
  let tocopy := if be.rbuf.length < r.blen - r.bread then be.rbuf.length else r.blen - r.bread
  let r := { r with
    buf := copyTo r.buf r.bread (be.rbuf.take tocopy)
    bread := r.bread + tocopy }
  if r.resp.vlen ≤ r.bread then
    ({ be with
        state := if r.resp.type = .get then .readEnd else .next
        rbuf := be.rbuf.drop tocopy
        ioHead := { p with clientResp := r } :: rest }, none)
  else ({ be with rbuf := [], ioHead := { p with clientResp := r } :: rest }, some (.ok true))

/-- `mcp_backend_next` (lines 709-746). -/
def stepNext (be : Reader) (p : ReadPending) (rest : List ReadPending) : Reader × Option Drive :=
  let be := { be with ioHead := rest, returned := be.returned ++ [p.clientResp], state := .read }
  if rest = [] then (be, some (if be.rbuf ≠ [] then .fail else .ok false))
  else if be.rbuf ≠ [] then ({ be with state := .parse }, none)
  else (be, some (.ok false))

def driveStep (info : LineInfo) (be : Reader) (p : ReadPending) (rest : List ReadPending) :
    Reader × Option Drive :=
  match be.state with
  | .read => ({ be with state := .parse }, none)
  | .parse => stepParse info be p rest
  | .readEnd => stepReadEnd be p rest
  | .wantRead => stepWantRead be p rest
  | .next => stepNext be p rest

/-- The loop of `proxy_backend_drive_machine`, for at most `fuel` turns. -/
def driveLoop (info : LineInfo) : ℕ → Reader → Reader × Option Drive
  | 0, be => (be, none)
  | fuel + 1, be =>
    match be.ioHead with
    | [] => (be, some .fail)
    | p :: rest =>
      match driveStep info be p rest with
      | (be, some drive) => (be, some drive)
      | (be, none) => driveLoop info fuel be

/-- `proxy_backend_drive_machine` (lines 505-756): a request takes at
most three turns, and the first state may take one more. -/
def driveMachine (info : LineInfo) (be : Reader) : Reader × Option Drive :=
  driveLoop info (3 * be.ioHead.length + 1) be

/-- `_reset_bad_backend` (lines 811-836): every request fails. -/
def resetBadBackend (be : Reader) : Reader :=
  { be with
    ioHead := []
    rbuf := []
    returned := be.returned ++ be.ioHead.map fun p => { p.clientResp with status := .err } }

/-- What the handler does with the result. -/
def afterDrive : Reader × Option Drive → Reader
  | (be, some .fail) => resetBadBackend be
  | (be, _) => be

/-- The read event of `proxy_backend_handler` (lines 980-1002): `recv`
gave the bytes `x`; no bytes mean that the backend closed the connection. -/
def backendRead (info : LineInfo) (be : Reader) (x : Bytes) : Reader :=
  if x = [] then resetBadBackend be
  else afterDrive (driveMachine info { be with rbuf := be.rbuf ++ x })

def backendReads (info : LineInfo) (be : Reader) (xs : List Bytes) : Reader :=
  xs.foldl (backendRead info) be

/-! ## Well-formed responses -/

/-- A response of a backend: a line, and the value after it with its line end. -/
structure Response (info : LineInfo) where
  text : Bytes
  type : RespType
  value : Bytes
  one_line : (10 : UInt8) ∉ text
  parsed : info (text ++ [10]) = some (type, value.length)
  handled : type ≠ .other
  no_value : type = .endOfList → value = []

variable {info : LineInfo}

namespace Response

variable (r : Response info)

/-- The response line. -/
def line : Bytes := r.text ++ [10]

/-- The line and the value. -/
def body : Bytes := r.line ++ r.value

/-- What follows the value of a hit. -/
def trailer : Bytes := if r.type = .get then endStr else []

def bytes : Bytes := r.body ++ r.trailer

/-- What a request gets of a response; the requests of a multiget do not get the `END`. -/
def answer (multiget : Bool) : Bytes := if multiget then r.body else r.bytes

end Response

/-- What the requests get of a stream of responses. The `END` of a miss of a multiget is
given to the next request as well. -/
def expected : List (Response info) → List Bool → List Bytes
  | [], _ => []
  | _ :: _, [] => []
  | r :: rs, multiget :: ms =>
    if multiget = true ∧ r.type = .endOfList then [] :: expected (r :: rs) ms
    else r.answer multiget :: expected rs ms

/-- What a request sees of its response. -/
def McpResp.seen (r : McpResp) : Status × List (Option UInt8) := (r.status, r.buf.take r.blen)

def complete (b : Bytes) : Status × List (Option UInt8) := (.ok, b.map some)

/-! ## Parsing one response -/

theorem mcmcParseBuf_short {buf : Bytes} (h : (10 : UInt8) ∉ buf) :
    mcmcParseBuf info buf = (.wantRead, {}) := if_neg h

theorem mcmcParseBuf_line (r : Response info) (x : Bytes) :
    mcmcParseBuf info (r.line ++ x) =
      (.ok, { type := r.type, reslen := r.line.length, vlen := r.value.length,
              vlenRead := min r.value.length x.length }) := by
  have hm : (10 : UInt8) ∈ r.line ++ x := by simp [Response.line]
  have hl : (r.line ++ x).takeWhile (· != 10) ++ [10] = r.line := by
    have ht : ∀ c ∈ r.text, (c != 10) = true := by
      intro c hc
      simpa using fun h : c = 10 => r.one_line (h ▸ hc)
    rw [Response.line, append_assoc, List.takeWhile_append_of_pos ht]
    simp
  have hle : (r.line ++ x).length - r.line.length = x.length := by simp
  have hp : info r.line = some (r.type, r.value.length) := r.parsed
  rw [mcmcParseBuf, if_pos hm]
  simp only [hl, hle, hp]

theorem split_line {r : Response info} {b rest tail : Bytes} (h : b ++ rest = r.line ++ tail)
    (hb : (10 : UInt8) ∈ b) : ∃ x, b = r.line ++ x ∧ x ++ rest = tail := by
  obtain ⟨y, hl, hr⟩ | ⟨x, hb', ht⟩ := List.append_eq_append_iff.mp h
  · -- the line end is the last byte of the line
    cases y using List.reverseRecOn with
    | nil => exact ⟨[], by simpa using hl.symm, by simpa using hr⟩
    | append_singleton y c =>
      rw [Response.line, ← append_assoc] at hl
      have hte := (List.append_inj' hl rfl).1
      exact absurd (hte ▸ List.mem_append_left y hb) r.one_line
  · exact ⟨x, hb', ht.symm⟩

/-! ## The buffer of a response -/

/-- A buffer of `n` bytes of which the first ones are written. -/
def filled (c : Bytes) (n : ℕ) : List (Option UInt8) :=
  c.map some ++ List.replicate (n - c.length) none

theorem filled_nil (n : ℕ) : filled [] n = List.replicate n none := rfl

theorem copyTo_filled (c x : Bytes) (n : ℕ) :
    copyTo (filled c n) c.length x = filled (c ++ x) n := by
  have hl : (c.map some).length = c.length := length_map _
  rw [copyTo, filled, filled, List.take_left' hl, List.drop_append, hl,
    List.drop_eq_nil_of_le (by rw [hl]; exact Nat.le_add_right _ _), Nat.add_sub_cancel_left,
    List.drop_replicate, List.map_append, length_append, Nat.sub_add_eq, nil_append]

theorem take_filled (c : Bytes) (n : ℕ) : (filled c n).take c.length = c.map some :=
  List.take_left' (length_map _)

theorem none_mem_take_filled {c : Bytes} {m n : ℕ} (hlt : c.length < m) (hl : m ≤ n) :
    none ∈ (filled c n).take m := by
  rw [filled, take_append, length_map, List.take_replicate]
  exact List.mem_append_right _ (List.mem_replicate.mpr ⟨by omega, rfl⟩)

/-! ## Where a reader stands in the stream -/

/-- The requests get nothing before their response is parsed. -/
def Unread (ps : List ReadPending) : Prop := ∀ p ∈ ps, p.clientResp.blen = 0

/-- What the requests `ps` are still to get of the responses `rs`. -/
def remaining (rs : List (Response info)) (ps : List ReadPending) :
    List (Status × List (Option UInt8)) :=
  (expected rs (ps.map ReadPending.asciiMultiget)).map complete

def stream (rs : List (Response info)) : Bytes := rs.flatMap Response.bytes

/-- The value of `r` is not complete: the first bytes `c` of the response are copied. -/
structure Wanting (r : Response info) (c : Bytes) (p : ReadPending) : Prop where
  status : p.clientResp.status = .ok
  type : p.clientResp.resp.type = r.type
  vlen : p.clientResp.resp.vlen = r.value.length
  blen : p.clientResp.blen = r.body.length
  bread : p.clientResp.bread = c.length
  buf : p.clientResp.buf = filled c (r.body.length + r.trailer.length)
  lt : c.length < r.body.length
  answered : ¬(p.asciiMultiget = true ∧ r.type = .endOfList)

/-- The line and the value of the hit `r` are copied. -/
structure Ending (r : Response info) (p : ReadPending) : Prop where
  status : p.clientResp.status = .ok
  type : r.type = .get
  blen : p.clientResp.blen = r.body.length
  buf : p.clientResp.buf = filled r.body (r.body.length + endStr.length)

/-- A reader that will have given the requests `total` when it has read `rest`. -/
inductive Tracks (info : LineInfo) (total : List (Status × List (Option UInt8))) (rest : Bytes)
    (be : Reader) : Prop where
  | done (hio : be.ioHead = []) (htotal : be.returned.map McpResp.seen = total)
  | parsing (rs : List (Response info)) (hstate : be.state = .read ∨ be.state = .parse)
      (hne : be.ioHead ≠ []) (hunread : Unread be.ioHead) (hline : (10 : UInt8) ∉ be.rbuf)
      (hstream : be.rbuf ++ rest = stream rs)
      (htotal : be.returned.map McpResp.seen ++ remaining rs be.ioHead = total)
  | wanting (r : Response info) (rs : List (Response info)) (c : Bytes) (p : ReadPending)
      (ps : List ReadPending) (hstate : be.state = .wantRead) (hio : be.ioHead = p :: ps)
      (hp : Wanting r c p) (hunread : Unread ps) (hrbuf : be.rbuf = [])
      (hstream : c ++ rest = r.bytes ++ stream rs)
      (htotal : be.returned.map McpResp.seen ++
        complete (r.answer p.asciiMultiget) :: remaining rs ps = total)
  | ending (r : Response info) (rs : List (Response info)) (p : ReadPending)
      (ps : List ReadPending) (hstate : be.state = .readEnd) (hio : be.ioHead = p :: ps)
      (hp : Ending r p) (hunread : Unread ps) (hrbuf : be.rbuf.length < endStr.length)
      (hstream : be.rbuf ++ rest = endStr ++ stream rs)
      (htotal : be.returned.map McpResp.seen ++
        complete (r.answer p.asciiMultiget) :: remaining rs ps = total)

variable {ps : List ReadPending} {be : Reader}

theorem driveLoop_succ {p : ReadPending} (hi : be.ioHead = p :: ps) (fuel : ℕ) :
    driveLoop info (fuel + 1) be = match driveStep info be p ps with
      | (be, some drive) => (be, some drive)
      | (be, none) => driveLoop info fuel be := by
  rw [driveLoop, hi]

variable {fuel : ℕ}

theorem afterDrive_stop {be be' : Reader} {p : ReadPending}
    (hi : be.ioHead = p :: ps) (hf : 0 < fuel) {drive : Drive}
    (hs : driveStep info be p ps = (be', some drive)) :
    afterDrive (driveLoop info fuel be) = afterDrive (be', some drive) := by
  obtain ⟨fuel, rfl⟩ := Nat.exists_eq_succ_of_ne_zero hf.ne'
  rw [driveLoop_succ hi, hs]

theorem afterDrive_continue {be be' : Reader} {p : ReadPending}
    (hi : be.ioHead = p :: ps) (hf : 0 < fuel) (hs : driveStep info be p ps = (be', none)) :
    afterDrive (driveLoop info fuel be) = afterDrive (driveLoop info (fuel - 1) be') := by
  obtain ⟨fuel, rfl⟩ := Nat.exists_eq_succ_of_ne_zero hf.ne'
  rw [driveLoop_succ hi, hs]
  rfl

/-! ## The loop, state by state -/

section Loop

variable {total : List (Status × List (Option UInt8))} {rest : Bytes}

/-- The loop from `mcp_backend_parse`, for `n` requests that wait. -/
def ParseTracks (info : LineInfo) (total : List (Status × List (Option UInt8))) (rest : Bytes)
    (n : ℕ) : Prop :=
  ∀ (be : Reader) (rs : List (Response info)) (fuel : ℕ), be.ioHead.length = n →
    be.ioHead ≠ [] → 3 * n ≤ fuel → be.state = .parse → Unread be.ioHead →
    be.rbuf ++ rest = stream rs →
    be.returned.map McpResp.seen ++ remaining rs be.ioHead = total →
    Tracks info total rest (afterDrive (driveLoop info fuel be))

variable {p : ReadPending}

section

variable {n : ℕ} (ih : ParseTracks info total rest n)
include ih

theorem next_tracks (rs : List (Response info)) {ps : List ReadPending} {fuel : ℕ}
    (hi : be.ioHead = p :: ps) (hn : ps.length = n) (hf : 3 * n + 1 ≤ fuel)
    (hsta : be.state = .next) {a : Bytes} (hp : p.clientResp.seen = complete a)
    (hu : Unread ps) (hst : be.rbuf ++ rest = stream rs)
    (ht : be.returned.map McpResp.seen ++ complete a :: remaining rs ps = total) :
    Tracks info total rest (afterDrive (driveLoop info fuel be)) := by
  have hr : (be.returned ++ [p.clientResp]).map McpResp.seen ++ remaining rs ps = total := by
    rw [List.map_append, List.map_singleton, hp, append_assoc]
    exact ht
  have hs : driveStep info be p ps = stepNext be p ps := by rw [driveStep, hsta]
  by_cases hps : ps = []
  · subst hps
    have hni : remaining rs [] = [] := by
      cases rs <;> rfl
    rw [hni, append_nil] at hr
    rw [stepNext, if_pos rfl] at hs
    rw [afterDrive_stop hi (by omega) hs]
    split_ifs with hrb
    · exact .done rfl (by simpa [afterDrive, resetBadBackend] using hr)
    · exact .done rfl hr
  · rw [stepNext, if_neg hps] at hs
    by_cases hrb : be.rbuf = []
    · rw [if_neg (not_not.mpr hrb)] at hs
      rw [afterDrive_stop hi (by omega) hs]
      exact .parsing rs (.inl rfl) hps hu (by rw [hrb]; exact List.not_mem_nil)
        hst hr
    · rw [if_pos hrb] at hs
      rw [afterDrive_continue hi (by omega) hs]
      exact ih _ rs _ hn hps (by omega) rfl hu hst hr

theorem readEnd_tracks (be : Reader)
    {r : Response info} (rs : List (Response info)) {ps : List ReadPending}
    {fuel : ℕ} (hi : be.ioHead = p :: ps) (hn : ps.length = n) (hf : 3 * n + 2 ≤ fuel)
    (hsta : be.state = .readEnd) (hp : Ending r p) (hu : Unread ps)
    (hs : be.rbuf ++ rest = endStr ++ stream rs) (ht : be.returned.map McpResp.seen ++
      complete (r.answer p.asciiMultiget) :: remaining rs ps = total) :
    Tracks info total rest (afterDrive (driveLoop info fuel be)) := by
  have hst : driveStep info be p ps = stepReadEnd be p ps := by rw [driveStep, hsta]
  by_cases hl : endStr.length ≤ be.rbuf.length
  · obtain ⟨z, hz⟩ : ∃ z, be.rbuf = endStr ++ z := by
      have hpr : endStr <+: be.rbuf :=
        List.prefix_of_prefix_length_le ⟨_, hs.symm⟩ ⟨rest, rfl⟩ hl
      exact ⟨_, hpr.choose_spec.symm⟩
    have hta : be.rbuf.take endStr.length = endStr := by rw [hz, take_left]
    have hd : be.rbuf.drop endStr.length = z := by rw [hz, drop_left]
    rw [stepReadEnd, if_pos hl, if_neg (not_not.mpr hta), hd] at hst
    rw [afterDrive_continue hi (by omega) hst]
    have hz' : z ++ rest = stream rs := by
      rw [hz, append_assoc] at hs
      exact List.append_cancel_left hs
    refine next_tracks ih rs rfl hn (by omega) rfl ?_ hu hz' ht
    cases hm : p.asciiMultiget with
    | true =>
      show p.clientResp.seen = _
      rw [McpResp.seen, hp.status, hp.buf, hp.blen, take_filled]
      rfl
    | false =>
      have hb : r.answer false = r.body ++ endStr := by
        simp [Response.answer, Response.bytes, Response.trailer, hp.type]
      rw [hb]
      show (p.clientResp.status, (copyTo p.clientResp.buf p.clientResp.blen endStr).take
        (p.clientResp.blen + endStr.length)) = _
      rw [hp.status, hp.buf, hp.blen, copyTo_filled, ← length_append, take_filled]
      rfl
  · rw [stepReadEnd, if_neg hl] at hst
    rw [afterDrive_stop hi (by omega) hst]
    exact .ending r rs p ps hsta hi hp hu (Nat.lt_of_not_le hl) hs ht

theorem body_tracks {r : Response info} (rs : List (Response info)) {ps : List ReadPending}
    {fuel : ℕ} (hi : be.ioHead = p :: ps) (hn : ps.length = n) (hf : 3 * n + 2 ≤ fuel)
    (hst : be.state = if r.type = .get then .readEnd else .next)
    (hsta : p.clientResp.status = .ok) (hb : p.clientResp.blen = r.body.length)
    (hbu : p.clientResp.buf = filled r.body (r.body.length + r.trailer.length))
    (hu : Unread ps) (hs : be.rbuf ++ rest = r.trailer ++ stream rs)
    (hto : be.returned.map McpResp.seen ++
      complete (r.answer p.asciiMultiget) :: remaining rs ps = total) :
    Tracks info total rest (afterDrive (driveLoop info fuel be)) := by
  by_cases hg : r.type = .get
  · have ht : r.trailer = endStr := if_pos hg
    rw [if_pos hg] at hst
    rw [ht] at hbu hs
    exact readEnd_tracks ih be rs hi hn hf hst ⟨hsta, hg, hb, hbu⟩ hu hs
      hto
  have ht : r.trailer = [] := if_neg hg
  have ha : r.answer p.asciiMultiget = r.body := by
    rw [Response.answer, Response.bytes, ht, append_nil, ite_self]
  rw [if_neg hg] at hst
  rw [ht, nil_append] at hs
  refine next_tracks ih rs hi hn (by omega) hst ?_ hu hs hto
  rw [McpResp.seen, hsta, hbu, hb, take_filled, ha]
  rfl

end

/-- The parsed line of the response `r`, of which `x` is in the buffer after the line. -/
def Response.resp (r : Response info) (x : Bytes) : McmcResp :=
  { type := r.type, reslen := r.line.length, vlen := r.value.length
    vlenRead := min r.value.length x.length }

theorem length_body (r : Response info) : r.line.length + r.value.length = r.body.length :=
  List.length_append.symm

theorem length_trailer (r : Response info) :
    (if r.type = .get then endStr.length else 0) = r.trailer.length := by
  rw [Response.trailer, apply_ite List.length]
  rfl

theorem stepParse_miss {r : Response info} {x : Bytes}
    (hx : be.rbuf = r.line ++ x) (hm : p.asciiMultiget = true ∧ r.type = .endOfList)
    (ps : List ReadPending) :
    stepParse info be p ps =
      ({ be with
          state := .next
          ioHead := { p with clientResp := { p.clientResp with
            status := .ok, resp := r.resp x } } :: ps }, none) := by
  rw [stepParse, hx, mcmcParseBuf_line]
  simp only [hm, and_self, if_true, if_neg (show RespType.endOfList ≠ .other by decide)]
  rw [Response.resp, hm.2]

theorem stepParse_body {r : Response info} {y : Bytes} (hx : be.rbuf = r.line ++ (r.value ++ y))
    (hs : ¬(p.asciiMultiget = true ∧ r.type = .endOfList)) (ps : List ReadPending) :
    stepParse info be p ps =
      ({ be with
          state := if r.type = .get then .readEnd else .next
          rbuf := y
          ioHead := { p with clientResp := { p.clientResp with
            status := .ok
            resp := r.resp (r.value ++ y)
            blen := r.body.length
            buf := filled r.body (r.body.length + r.trailer.length) } } :: ps }, none) := by
  have hr : min r.value.length (r.value ++ y).length = r.value.length :=
    Nat.min_eq_left (by simp)
  have hb : r.line ++ (r.value ++ y) = r.body ++ y := (append_assoc _ _ _).symm
  rw [stepParse, hx, mcmcParseBuf_line]
  simp only [hr, if_neg hs, if_neg r.handled, ne_eq, not_true_eq_false, if_false,
    length_body, length_trailer, Response.resp]
  rw [hb, take_left, drop_left, ← filled_nil, ← length_nil (α := UInt8),
    copyTo_filled, nil_append]

theorem stepParse_cut {r : Response info} {x : Bytes}
    (hx : be.rbuf = r.line ++ x) (hc : x.length < r.value.length)
    (hs : ¬(p.asciiMultiget = true ∧ r.type = .endOfList)) (ps : List ReadPending) :
    stepParse info be p ps =
      ({ be with
          state := .wantRead
          rbuf := []
          ioHead := { p with clientResp := { p.clientResp with
            status := .ok
            resp := r.resp x
            blen := r.body.length
            buf := filled (r.line ++ x) (r.body.length + r.trailer.length)
            bread := (r.line ++ x).length } } :: ps }, some (.ok true)) := by
  have hr : min r.value.length x.length = x.length := Nat.min_eq_right hc.le
  have hl : r.line.length + x.length = (r.line ++ x).length := List.length_append.symm
  rw [stepParse, hx, mcmcParseBuf_line]
  simp only [hr, if_neg hs, if_neg r.handled, ne_eq, hc.ne', not_false_eq_true, if_true,
    length_body, length_trailer, Response.resp]
  rw [hl, take_length, ← filled_nil, ← length_nil (α := UInt8),
    copyTo_filled, nil_append]

theorem parse_tracks (n : ℕ) : ParseTracks info total rest n := by
  induction n with
  | zero =>
    intro be rs fuel hn hne
    exact absurd (List.eq_nil_of_length_eq_zero hn) hne
  | succ n ih =>
    intro be rs fuel hn hne hf hsta hu hst ht
    obtain ⟨p, ps, hi⟩ := List.exists_cons_of_ne_nil hne
    have hl : ps.length = n := by
      rw [hi] at hn
      exact Nat.succ.inj hn
    have hp : Unread ps := fun q hq => hu q (by rw [hi]; exact List.mem_cons_of_mem _ hq)
    have hb : p.clientResp.blen = 0 := hu p (by rw [hi]; exact .head _)
    have hs : driveStep info be p ps = stepParse info be p ps := by rw [driveStep, hsta]
    by_cases hnl : (10 : UInt8) ∈ be.rbuf
    · cases rs with
      | nil =>
        rw [(List.append_eq_nil_iff.mp hst).1] at hnl
        cases hnl
      | cons r rs =>
        have hsp : be.rbuf ++ rest = r.line ++ (r.value ++ r.trailer ++ stream rs) := by
          rw [hst, stream, List.flatMap_cons, ← stream]
          simp [Response.bytes, Response.body]
        obtain ⟨x, hx, hxr⟩ := split_line hsp hnl
        rw [hi, remaining, List.map_cons, expected] at ht
        by_cases hm : p.asciiMultiget = true ∧ r.type = .endOfList
        · rw [stepParse_miss hx hm] at hs
          rw [afterDrive_continue hi (by omega) hs]
          rw [if_pos hm] at ht
          refine next_tracks ih (r :: rs) rfl hl (by omega) rfl ?_ hp hst ht
          show (Status.ok, List.take p.clientResp.blen p.clientResp.buf) = _
          rw [hb, List.take_zero]
          rfl
        rw [if_neg hm] at ht
        rw [append_assoc] at hxr
        by_cases hc : x.length < r.value.length
        · rw [stepParse_cut hx hc hm] at hs
          rw [afterDrive_stop hi (by omega) hs]
          refine .wanting r rs (r.line ++ x) _ ps rfl rfl
            ⟨rfl, rfl, rfl, rfl, rfl, rfl, ?_, hm⟩ hp rfl ?_ ht
          · rw [length_append, ← length_body]
            omega
          · rw [append_assoc, hxr]
            simp [Response.bytes, Response.body]
        · obtain ⟨y, hy⟩ : r.value <+: x :=
            List.prefix_of_prefix_length_le ⟨_, hxr.symm⟩ ⟨rest, rfl⟩ (by omega)
          rw [← hy] at hx
          rw [stepParse_body hx hm] at hs
          rw [afterDrive_continue hi (by omega) hs]
          have hyr : y ++ rest = r.trailer ++ stream rs := by
            rw [← hy, append_assoc] at hxr
            exact List.append_cancel_left hxr
          exact body_tracks ih rs rfl hl (by omega) rfl rfl rfl rfl hp hyr ht
    · rw [stepParse, mcmcParseBuf_short hnl] at hs
      rw [afterDrive_stop hi (by omega) hs]
      refine .parsing rs (.inr hsta) (List.cons_ne_nil _ _) ?_ hnl hst ?_
      · intro q hq
        obtain rfl | hq := List.mem_cons.mp hq
        · exact hb
        · exact hp q hq
      · rw [hi] at ht
        exact ht

end Loop

/-! ## One read -/

/-- The read does not end where `mcp_backend_want_read` takes the value for complete though
it is not. -/
def ReadsOn (be : Reader) (x : Bytes) : Prop :=
  be.state = .wantRead → ∀ p ∈ be.ioHead.head?,
    p.clientResp.resp.vlen ≤ p.clientResp.bread + x.length →
      p.clientResp.blen ≤ p.clientResp.bread + x.length

instance (be : Reader) (x : Bytes) : Decidable (ReadsOn be x) :=
  inferInstanceAs (Decidable (_ → _))

section OneRead

variable {total : List (Status × List (Option UInt8))} {rest x : Bytes} {be : Reader}

variable (be) in
theorem wantRead_tracks {r : Response info} {rs : List (Response info)} {c : Bytes}
    {p : ReadPending} {ps : List ReadPending} (hsta : be.state = .wantRead)
    (hi : be.ioHead = p :: ps) (hp : Wanting r c p) (hu : Unread ps)
    (hs : c ++ (be.rbuf ++ rest) = r.bytes ++ stream rs)
    (hto : be.returned.map McpResp.seen ++
      complete (r.answer p.asciiMultiget) :: remaining rs ps = total)
    (ho : r.value.length ≤ c.length + be.rbuf.length →
      r.body.length ≤ c.length + be.rbuf.length) :
    Tracks info total rest (afterDrive (driveMachine info be)) := by
  have hst : driveStep info be p ps = stepWantRead be p ps := by rw [driveStep, hsta]
  have hbo : r.value.length ≤ r.body.length := by
    rw [← length_body]
    exact Nat.le_add_left _ _
  have hf : 3 * be.ioHead.length + 1 = 3 * ps.length + 4 := by
    rw [hi, length_cons]
    omega
  rw [stepWantRead, hp.blen, hp.bread, hp.buf, hp.vlen, hp.type] at hst
  rw [driveMachine, hf]
  by_cases ha : r.body.length ≤ c.length + be.rbuf.length
  · -- the value is complete
    obtain ⟨y, hy⟩ : r.body <+: c ++ be.rbuf := by
      have hc : c ++ be.rbuf <+: c ++ be.rbuf ++ rest := ⟨rest, rfl⟩
      refine List.prefix_of_prefix_length_le ?_ hc ?_
      · rw [append_assoc, hs, Response.bytes, append_assoc]
        exact prefix_append _ _
      · rw [length_append]
        exact ha
    have ht : (if be.rbuf.length < r.body.length - c.length then be.rbuf.length
        else r.body.length - c.length) = r.body.length - c.length := if_neg (by omega)
    have hta : c ++ be.rbuf.take (r.body.length - c.length) = r.body := by
      have h := congrArg (List.take r.body.length) hy
      rw [take_left, take_append, List.take_of_length_le hp.lt.le] at h
      exact h.symm
    have hd : be.rbuf.drop (r.body.length - c.length) = y := by
      have h := congrArg (List.drop r.body.length) hy
      rw [drop_left, List.drop_append, List.drop_eq_nil_of_le hp.lt.le, nil_append] at h
      exact h.symm
    have hb : c.length + (r.body.length - c.length) = r.body.length := by
      have := hp.lt
      omega
    simp only [ht, hb, if_pos hbo, copyTo_filled, hta, hd] at hst
    rw [afterDrive_continue hi (by omega) hst]
    refine body_tracks (parse_tracks ps.length) rs rfl rfl (by omega) rfl hp.status rfl rfl
      hu ?_ hto
    rw [← append_assoc, ← hy, Response.bytes, append_assoc, append_assoc] at hs
    exact List.append_cancel_left hs
  · have ht : (if be.rbuf.length < r.body.length - c.length then be.rbuf.length
        else r.body.length - c.length) = be.rbuf.length := if_pos (by omega)
    have hm : ¬r.value.length ≤ c.length + be.rbuf.length := fun h => ha (ho h)
    simp only [ht, if_neg hm, copyTo_filled, take_length] at hst
    rw [afterDrive_stop hi (by omega) hst]
    have hl : (c ++ be.rbuf).length < r.body.length := by
      rw [length_append]
      omega
    refine .wanting r rs (c ++ be.rbuf) _ ps hsta rfl
      ⟨hp.status, hp.type, hp.vlen, rfl, List.length_append.symm, rfl, hl, hp.answered⟩
      hu rfl ?_ hto
    rw [append_assoc]
    exact hs

/-- **One read.** A read that does not end in the wrong place brings the reader to the
next place in the stream. -/
theorem backendRead_tracks (h : Tracks info total (x ++ rest) be) (hx : x ≠ [])
    (ho : ReadsOn be x) : Tracks info total rest (backendRead info be x) := by
  rw [backendRead, if_neg hx]
  cases h with
  | done hi ht =>
    have hd : driveMachine info { be with rbuf := be.rbuf ++ x } =
        ({ be with rbuf := be.rbuf ++ x }, some .fail) := by
      simp only [driveMachine, hi, driveLoop]
    rw [hd]
    refine .done rfl ?_
    show (be.returned ++ be.ioHead.map _).map McpResp.seen = total
    rw [hi, map_nil, append_nil]
    exact ht
  | parsing rs hs hn hu hl hst ht =>
    obtain ⟨p, ps, hi⟩ := List.exists_cons_of_ne_nil hn
    rw [← append_assoc] at hst
    obtain hs | hs := hs
    · have hste : driveStep info { be with rbuf := be.rbuf ++ x } p ps =
          ({ be with rbuf := be.rbuf ++ x, state := .parse }, none) := by
        rw [driveStep, show ({ be with rbuf := be.rbuf ++ x } : Reader).state = .read from hs]
      have hi' : ({ be with rbuf := be.rbuf ++ x } : Reader).ioHead = p :: ps := hi
      rw [driveMachine, afterDrive_continue hi' (Nat.succ_pos _) hste]
      exact parse_tracks _ _ rs _ rfl hn (by simp) rfl hu hst ht
    · exact parse_tracks _ _ rs _ rfl hn (by simp) hs hu hst ht
  | wanting r rs c p ps hs hi hp hu hr hst ht =>
    have hre := ho hs p (by rw [hi]; rfl)
    rw [hp.vlen, hp.bread, hp.blen] at hre
    refine wantRead_tracks { be with rbuf := be.rbuf ++ x } hs hi hp hu ?_ ht ?_
    · show c ++ ((be.rbuf ++ x) ++ rest) = _
      rw [hr, nil_append]
      exact hst
    · show _ ≤ c.length + (be.rbuf ++ x).length → _ ≤ c.length + (be.rbuf ++ x).length
      rw [hr, nil_append]
      exact hre
  | ending r rs p ps hs hi hp hu hr hst ht =>
    rw [← append_assoc] at hst
    refine readEnd_tracks (parse_tracks ps.length) { be with rbuf := be.rbuf ++ x } rs hi
      rfl ?_ hs hp hu hst ht
    show 3 * ps.length + 2 ≤ 3 * be.ioHead.length + 1
    rw [hi, length_cons]
    omega

end OneRead

/-! ## Reads that end in the wrong place -/

/-- Some request was returned with an error or with bytes that were never written. -/
def Spoilt (be : Reader) : Prop := ∃ r ∈ be.returned, ∀ b, r.seen ≠ complete b

/-- The response of the first request has bytes that were not written. -/
def Gap (p : ReadPending) : Prop := none ∈ p.clientResp.buf.take p.clientResp.blen

theorem seen_ne_of_gap {p : ReadPending} (h : Gap p) (b : Bytes) :
    p.clientResp.seen ≠ complete b := by
  intro he
  have hb : p.clientResp.buf.take p.clientResp.blen = b.map some := congrArg Prod.snd he
  rw [Gap, hb] at h
  obtain ⟨c, _, hc⟩ := List.mem_map.mp h
  exact Option.some_ne_none c hc

theorem driveStep_returned (be : Reader) (p : ReadPending) (ps : List ReadPending) :
    be.returned <+: (driveStep info be p ps).1.returned := by
  unfold driveStep
  split
  · exact prefix_rfl
  · unfold stepParse
    split
    · dsimp only
      split_ifs <;> exact prefix_rfl
    · exact prefix_rfl
  · unfold stepReadEnd
    split_ifs <;> exact prefix_rfl
  · unfold stepWantRead
    dsimp only
    split_ifs <;> exact prefix_rfl
  · unfold stepNext
    dsimp only
    split_ifs <;> exact prefix_append _ _

theorem driveLoop_returned (fuel : ℕ) (be : Reader) :
    be.returned <+: (driveLoop info fuel be).1.returned := by
  induction fuel generalizing be with
  | zero => exact prefix_rfl
  | succ fuel ih =>
    cases hi : be.ioHead with
    | nil =>
      simp only [driveLoop, hi]
      exact prefix_rfl
    | cons p ps =>
      have hs : be.returned <+: (driveStep info be p ps).1.returned :=
        driveStep_returned be p ps
      rw [driveLoop_succ hi]
      cases hd : driveStep info be p ps with
      | mk be' drive =>
        rw [hd] at hs
        cases drive with
        | some drive => exact hs
        | none => exact hs.trans (ih be')

theorem afterDrive_returned (r : Reader × Option Drive) :
    r.1.returned <+: (afterDrive r).returned := by
  obtain ⟨be, drive⟩ := r
  cases drive with
  | none => exact prefix_rfl
  | some drive =>
    cases drive with
    | fail => exact prefix_append _ _
    | ok evRead => exact prefix_rfl

variable {total : List (Status × List (Option UInt8))}

theorem Spoilt.mono {be' : Reader} (h : Spoilt be) (hp : be.returned <+: be'.returned) :
    Spoilt be' := by
  obtain ⟨r, hr, hn⟩ := h
  exact ⟨r, hp.subset hr, hn⟩

theorem Spoilt.driveLoop (h : Spoilt be) (fuel : ℕ) :
    Spoilt (afterDrive (driveLoop info fuel be)) :=
  h.mono ((driveLoop_returned fuel be).trans (afterDrive_returned _))

theorem Spoilt.backendRead (h : Spoilt be) (x : Bytes) : Spoilt (backendRead info be x) := by
  unfold Proxy.backendRead
  split_ifs
  · exact h.mono (prefix_append _ _)
  · have hr : Spoilt { be with rbuf := be.rbuf ++ x } := h
    exact hr.driveLoop _

theorem spoilt_of_next {p : ReadPending}
    (hst : be.state = .next) (hi : be.ioHead = p :: ps) (hg : Gap p)
    (hf : 0 < fuel) : Spoilt (afterDrive (driveLoop info fuel be)) := by
  have hs : Spoilt (stepNext be p ps).1 := by
    refine ⟨p.clientResp, ?_, seen_ne_of_gap hg⟩
    unfold stepNext
    dsimp only
    split_ifs <;> exact List.mem_append_right _ (List.mem_singleton_self _)
  obtain ⟨fuel, rfl⟩ := Nat.exists_eq_succ_of_ne_zero hf.ne'
  rw [driveLoop_succ hi, driveStep, hst]
  cases hd : stepNext be p ps with
  | mk be' drive =>
    rw [hd] at hs
    cases drive with
    | some drive => exact hs.mono (afterDrive_returned (be', some drive))
    | none => exact hs.driveLoop fuel

theorem spoilt_of_reset {p : ReadPending} (hi : be.ioHead = p :: ps) :
    Spoilt (resetBadBackend be) := by
  refine ⟨{ p.clientResp with status := .err }, ?_, fun b hb => ?_⟩
  · show _ ∈ be.returned ++ be.ioHead.map _
    rw [hi]
    exact List.mem_append_right _ (.head _)
  · exact Status.noConfusion (congrArg Prod.fst hb)

/-- A request whose response has a gap and that waits for its `END`. -/
def Hanging (be : Reader) : Prop :=
  be.state = .readEnd ∧ ∃ p ps, be.ioHead = p :: ps ∧ Gap p

theorem Hanging.driveLoop (h : Hanging be) (hf : 2 ≤ fuel) :
    let be' := afterDrive (driveLoop info fuel be)
    Spoilt be' ∨ Hanging be' ∧ be'.returned = be.returned := by
  obtain ⟨hst, p, ps, hi, hg⟩ := h
  have hs : driveStep info be p ps = stepReadEnd be p ps := by rw [driveStep, hst]
  rw [stepReadEnd] at hs
  split_ifs at hs with hlen he
  · refine .inl ?_
    rw [afterDrive_stop hi (by omega) hs]
    exact spoilt_of_reset hi
  · refine .inl ?_
    rw [afterDrive_continue hi (by omega) hs]
    exact spoilt_of_next rfl rfl hg (by omega)
  · refine .inl ?_
    rw [afterDrive_continue hi (by omega) hs]
    refine spoilt_of_next rfl rfl ?_ (by omega)
    -- the `END` is written behind the gap
    show none ∈ (copyTo p.clientResp.buf p.clientResp.blen endStr).take
      (p.clientResp.blen + endStr.length)
    have hl : (p.clientResp.buf.take p.clientResp.blen).length ≤
        p.clientResp.blen + endStr.length := (List.length_take_le _ _).trans (Nat.le_add_right _ _)
    rw [copyTo, append_assoc, take_append, List.take_of_length_le hl]
    exact List.mem_append_left _ hg
  · refine .inr ?_
    rw [afterDrive_stop hi (by omega) hs]
    exact ⟨⟨hst, p, ps, hi, hg⟩, rfl⟩

theorem Hanging.backendRead (h : Hanging be) (x : Bytes) :
    let be' := backendRead info be x
    Spoilt be' ∨ Hanging be' ∧ be'.returned = be.returned := by
  obtain ⟨hs, p, ps, hi, hg⟩ := h
  unfold Proxy.backendRead
  split_ifs
  · exact .inl (spoilt_of_reset hi)
  have hr : Hanging { be with rbuf := be.rbuf ++ x } := ⟨hs, p, ps, hi, hg⟩
  refine hr.driveLoop ?_
  show 2 ≤ 3 * be.ioHead.length + 1
  rw [hi, length_cons]
  omega

/-- The requests did not get, and will not get, what the stream gives them. -/
def Lost (total : List (Status × List (Option UInt8))) (be : Reader) : Prop :=
  Spoilt be ∨ Hanging be ∧ be.returned.length < total.length

theorem Hanging.lost (h : Hanging be) (hl : be.returned.length < total.length) (hf : 2 ≤ fuel) :
    Lost total (afterDrive (Proxy.driveLoop info fuel be)) := by
  obtain h | ⟨h, hr⟩ := h.driveLoop hf
  · exact .inl h
  · exact .inr ⟨h, hr ▸ hl⟩

theorem Lost.backendReads (h : Lost total be) (xs : List Bytes) :
    Lost total (backendReads info be xs) := by
  induction xs generalizing be with
  | nil => exact h
  | cons x xs ih =>
    refine ih ?_
    obtain h | ⟨h, hl⟩ := h
    · exact .inl (h.backendRead x)
    obtain h | ⟨h, hr⟩ := h.backendRead x
    · exact .inl h
    · exact .inr ⟨h, hr ▸ hl⟩

theorem Lost.ne {bs : List Bytes} (h : Lost (bs.map complete) be) :
    be.returned.map McpResp.seen ≠ bs.map complete := by
  intro he
  obtain ⟨r, hr, hn⟩ | ⟨_, hl⟩ := h
  · have hm : r.seen ∈ bs.map complete := he ▸ List.mem_map_of_mem hr
    obtain ⟨b, _, hb⟩ := List.mem_map.mp hm
    exact hn b hb.symm
  · rw [← he, length_map] at hl
    exact lt_irrefl _ hl

theorem lost_of_backendRead {rest x : Bytes}
    (h : Tracks info total (x ++ rest) be) (hx : x ≠ []) (hba : ¬ReadsOn be x) :
    Lost total (backendRead info be x) := by
  simp only [ReadsOn, not_forall] at hba
  obtain ⟨hw, p, hh, hv, hb⟩ := hba
  cases h with
  | done hi ht =>
    rw [hi] at hh
    exact absurd hh (by simp)
  | parsing rs hs => rcases hs with hs | hs <;> simp [hs] at hw
  | ending r rs p' ps hs => simp [hs] at hw
  | wanting r rs c p' ps hs hi hp hu hr hstr ht =>
    obtain rfl : p' = p := by simpa [hi] using hh
    rw [hp.vlen, hp.bread] at hv
    rw [hp.blen, hp.bread] at hb
    have hlt : be.returned.length < total.length := by
      rw [← ht, length_append, length_map, length_cons]
      omega
    have hbe : ({ be with rbuf := be.rbuf ++ x } : Reader) = { be with rbuf := x } := by
      rw [hr, nil_append]
    have hi' : ({ be with rbuf := x } : Reader).ioHead = p' :: ps := hi
    have hst : driveStep info { be with rbuf := x } p' ps =
        stepWantRead { be with rbuf := x } p' ps := by
      rw [driveStep, show ({ be with rbuf := x } : Reader).state = .wantRead from hs]
    have hto : (if x.length < r.body.length - c.length then x.length
        else r.body.length - c.length) = x.length := if_pos (by omega)
    rw [stepWantRead, hp.blen, hp.bread, hp.buf, hp.vlen, hp.type] at hst
    simp only [hto, if_pos hv, copyTo_filled, take_length, List.drop_length] at hst
    have hg : ∀ q : ReadPending, q.clientResp.blen = r.body.length →
        q.clientResp.buf = filled (c ++ x) (r.body.length + r.trailer.length) → Gap q := by
      intro q hl hbu
      rw [Gap, hl, hbu]
      exact none_mem_take_filled (by rw [length_append]; omega) (Nat.le_add_right _ _)
    have hf : 3 * ({ be with rbuf := x } : Reader).ioHead.length + 1 = 3 * ps.length + 4 := by
      rw [hi', length_cons]
      omega
    rw [backendRead, if_neg hx, hbe, driveMachine, hf,
      afterDrive_continue hi' (Nat.succ_pos _) hst]
    by_cases hge : r.type = .get
    · rw [if_pos hge]
      apply Hanging.lost
      · exact ⟨rfl, _, ps, rfl, hg _ rfl rfl⟩
      · exact hlt
      · omega
    · rw [if_neg hge]
      exact .inl (spoilt_of_next rfl rfl (hg _ rfl rfl) (by omega))

/-! ## Sequences of reads -/

/-- No read of a sequence ends in the wrong place. -/
def ReadOn (info : LineInfo) : Reader → List Bytes → Prop
  | _, [] => True
  | be, x :: xs => ReadsOn be x ∧ ReadOn info (backendRead info be x) xs

instance decidableReadOn : (xs : List Bytes) → (be : Reader) → Decidable (ReadOn info be xs)
  | [], _ => .isTrue trivial
  | x :: xs, be =>
    have := decidableReadOn xs (backendRead info be x)
    inferInstanceAs (Decidable (_ ∧ _))

/-- A backend with requests that wait for their responses. -/
def waiting (ms : List Bool) : Reader :=
  { ioHead := ms.map fun m => { asciiMultiget := m } }

theorem waiting_tracks (rs : List (Response info)) (ms : List Bool) :
    Tracks info ((expected rs ms).map complete) (stream rs) (waiting ms) := by
  by_cases hm : ms = []
  · subst hm
    refine .done rfl ?_
    cases rs <;> rfl
  refine .parsing rs (.inl rfl) (by simpa [waiting] using hm) ?_ List.not_mem_nil rfl ?_
  · intro p hp
    obtain ⟨m, _, rfl⟩ := List.mem_map.mp hp
    rfl
  have hf : (waiting ms).ioHead.map ReadPending.asciiMultiget = ms := by
    rw [waiting, List.map_map]
    exact List.map_id ms
  rw [remaining, hf]
  rfl

theorem Tracks.finished {bs : List (Status × List (Option UInt8))}
    (h : Tracks info bs [] be) : be.returned.map McpResp.seen = bs := by
  cases h with
  | done hi ht => exact ht
  | parsing rs hst hne hu hl hs ht =>
    cases rs with
    | nil =>
      have hn : remaining ([] : List (Response info)) be.ioHead = [] := by
        rw [remaining, expected, map_nil]
      rwa [hn, append_nil] at ht
    | cons r rs =>
      -- the line of the next response is not complete
      rw [append_nil] at hs
      refine absurd ?_ hl
      rw [hs, stream, List.flatMap_cons, Response.bytes, Response.body, Response.line]
      simp
  | wanting r rs c p ps hst hi hp hu hr hs ht =>
    have hle := congrArg List.length hs
    have hlt := hp.lt
    simp only [length_append, length_nil, Response.bytes] at hle
    omega
  | ending r rs p ps hst hi hp hu hr hs ht =>
    have hle := congrArg List.length hs
    simp only [length_append, length_nil] at hle
    omega

/-- What the requests get over a sequence of reads. -/
def given (info : LineInfo) (ms : List Bool) (xs : List Bytes) :
    List (Status × List (Option UInt8)) :=
  (backendReads info (waiting ms) xs).returned.map McpResp.seen

theorem backendReads_tracks (xs : List Bytes) (h : Tracks info total xs.flatten be)
    (hxs : ∀ x ∈ xs, x ≠ []) (ho : ReadOn info be xs) :
    Tracks info total [] (backendReads info be xs) := by
  induction xs generalizing be with
  | nil => exact h
  | cons x xs ih =>
    obtain ⟨hx, hxs⟩ := List.forall_mem_cons.mp hxs
    exact ih (backendRead_tracks h hx ho.1) hxs ho.2

theorem lost_of_not_readOn
    {xs : List Bytes} (h : Tracks info total xs.flatten be) (hxs : ∀ x ∈ xs, x ≠ [])
    (hb : ¬ReadOn info be xs) : Lost total (backendReads info be xs) := by
  induction xs generalizing be with
  | nil => exact absurd trivial hb
  | cons x xs ih =>
    obtain ⟨hx, hxs⟩ := List.forall_mem_cons.mp hxs
    by_cases ho : ReadsOn be x
    · exact ih (backendRead_tracks h hx ho) hxs fun hr => hb ⟨ho, hr⟩
    · exact (lost_of_backendRead h hx ho).backendReads xs

def uncut (rs : List (Response info)) : List Bytes := if stream rs = [] then [] else [stream rs]

theorem given_uncut (rs : List (Response info)) (ms : List Bool) :
    given info ms (uncut rs) = (expected rs ms).map complete := by
  have ht := waiting_tracks rs ms
  refine (backendReads_tracks (uncut rs) ?_ ?_ ?_).finished
  · unfold uncut
    split_ifs with hn
    · rw [hn] at ht
      exact ht
    · simpa using ht
  · unfold uncut
    split_ifs with hn
    · simp
    · simpa using hn
  · unfold uncut
    split_ifs
    · trivial
    · exact ⟨nofun, trivial⟩

/-- The requests get what the uncut stream gives them, all of it initialised. -/
def SameAsUncut (rs : List (Response info)) (ms : List Bool) (xs : List Bytes) : Prop :=
  given info ms xs = given info ms (uncut rs) ∧ ∀ r ∈ given info ms xs, ∃ b, r = complete b

/-- **Reading does not depend on the cut.** However the stream of well-formed responses is
cut, the requests get what the uncut stream gives them exactly when no read ends where
a value is taken for complete though it is not. -/
theorem reads_independent_iff (rs : List (Response info)) (ms : List Bool) (xs : List Bytes)
    (hxs : ∀ x ∈ xs, x ≠ []) (hcut : xs.flatten = stream rs) :
    SameAsUncut rs ms xs ↔ ReadOn info (waiting ms) xs := by
  have ht : Tracks info ((expected rs ms).map complete) xs.flatten (waiting ms) :=
    hcut ▸ waiting_tracks rs ms
  rw [SameAsUncut, given_uncut]
  constructor
  · intro h
    by_contra hba
    exact (lost_of_not_readOn ht hxs hba).ne h.1
  intro ho
  have hg : given info ms xs = (expected rs ms).map complete :=
    (backendReads_tracks xs ht hxs ho).finished
  refine ⟨hg, fun r hr => ?_⟩
  rw [hg] at hr
  obtain ⟨b, _, hb⟩ := List.mem_map.mp hr
  exact ⟨b, hb.symm⟩

/-- The lines that the examples below use. -/
def sampleInfo : LineInfo := fun line =>
  if line = ascii "VALUE a 0 4\r\n" then some (.get, 6)
  else if line = ascii "VA 4\r\n" then some (.metaLine, 6) else some (.generic, 0)

/-- A hit with a value of four bytes. -/
def sampleHit : Response sampleInfo where
  text := ascii "VALUE a 0 4\r"
  type := .get
  value := ascii "wxyz\r\n"
  one_line := by decide
  parsed := by decide
  handled := by decide
  no_value := nofun

/-- A hit of a meta get with the same value. -/
def sampleMeta : Response sampleInfo where
  text := ascii "VA 4\r"
  type := .metaLine
  value := ascii "wxyz\r\n"
  one_line := by decide
  parsed := by decide
  handled := by decide
  no_value := nofun

/-- Two responses cut in the value and in the `END`. -/
theorem reads_independent_iff_sample :
    SameAsUncut [sampleHit, sampleMeta] [false, false]
      [ascii "VALUE a 0 4\r\nwx", ascii "yz\r\nEN", ascii "D\r\nVA 4\r\nwxyz\r\n"] :=
  (reads_independent_iff _ _ _ (by decide) (by decide)).mpr (by decide +kernel)

/-- A value of a meta get that arrives in three reads: the second one brings `bread` to the
length of the value, and the request gets three bytes that were never written. -/
theorem value_cut_short :
    ¬SameAsUncut [sampleMeta] [false] [ascii "VA 4\r\nw", ascii "xy", ascii "z\r\n"] ∧
      given sampleInfo [false] [ascii "VA 4\r\nw", ascii "xy", ascii "z\r\n"] =
        [(.ok, (ascii "VA 4\r\nwxy").map some ++ [none, none, none])] := by
  have hg : given sampleInfo [false] [ascii "VA 4\r\nw", ascii "xy", ascii "z\r\n"] =
      [(.ok, (ascii "VA 4\r\nwxy").map some ++ [none, none, none])] := by decide +kernel
  refine ⟨fun h => ?_, hg⟩
  have hu := h.1
  rw [hg, given_uncut] at hu
  exact absurd hu (by decide +kernel)

end Memcached.Proxy
