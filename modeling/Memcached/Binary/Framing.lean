import Memcached.Lib.Run
import Memcached.Util.Numbers

/-!
# Framing of binary requests (`proto_bin.c`, `memcached.c`)

A request is a header of 24 bytes, extras, a key and a value. The first three are taken
from the stream before the opcode is looked at; the value is then read into an item, or
swallowed after an error, by the code of each opcode. An unknown opcode swallows the whole
body although the extras and the key are gone; stats and touches do not look for a value;
and the length of a value is an `int`.

Results:
* `request_framed_iff`: which requests leave the stream at the next header
-/

namespace Memcached.Binary

open Lib Util

/-! ## Requests -/

/-- `protocol_binary_request_header`, the fields that say what follows. -/
structure RequestHeader where
  magic : ℕ := 0
  opcode : ℕ := 0
  keylen : ℕ := 0
  extlen : ℕ := 0
  bodylen : ℕ := 0
deriving DecidableEq

/-- The header as it stands on the wire, its lengths in network order. -/
def requestHeader (bs : Bytes) : RequestHeader :=
  let byte := fun i => (bs.getD i 0).toNat
  { magic := byte 0
    opcode := byte 1
    keylen := byte 2 * 256 + byte 3
    extlen := byte 4
    bodylen := ((byte 8 * 256 + byte 9) * 256 + byte 10) * 256 + byte 11 }

/-- `sizeof(c->binary_header)` -/
def requestLen : ℕ := 24

def protocolBinaryReq : ℕ := 0x80

def keyMaxLength : ℕ := 250

def maxSaslMechLen : ℕ := 32

/-- The opcodes that `dispatch_bin_command` knows (`protocol_binary.h`, lines 80-116). -/
inductive BinCmd where
  | get | set | add | replace | delete | increment | decrement | quit | flush | getq | noop
  | version | getk | getkq | append | prepend | stat | setq | addq | replaceq | deleteq
  | incrementq | decrementq | quitq | flushq | appendq | prependq | touch | gat | gatq
  | saslListMechs | saslAuth | saslStep | gatk | gatkq
  | unknown
deriving DecidableEq

def binCmd : ℕ → BinCmd
  | 0x00 => .get
  | 0x01 => .set
  | 0x02 => .add
  | 0x03 => .replace
  | 0x04 => .delete
  | 0x05 => .increment
  | 0x06 => .decrement
  | 0x07 => .quit
  | 0x08 => .flush
  | 0x09 => .getq
  | 0x0a => .noop
  | 0x0b => .version
  | 0x0c => .getk
  | 0x0d => .getkq
  | 0x0e => .append
  | 0x0f => .prepend
  | 0x10 => .stat
  | 0x11 => .setq
  | 0x12 => .addq
  | 0x13 => .replaceq
  | 0x14 => .deleteq
  | 0x15 => .incrementq
  | 0x16 => .decrementq
  | 0x17 => .quitq
  | 0x18 => .flushq
  | 0x19 => .appendq
  | 0x1a => .prependq
  | 0x1c => .touch
  | 0x1d => .gat
  | 0x1e => .gatq
  | 0x20 => .saslListMechs
  | 0x21 => .saslAuth
  | 0x22 => .saslStep
  | 0x23 => .gatk
  | 0x24 => .gatkq
  | _ => .unknown

/-- The first switch of `dispatch_bin_command` (lines 913-959): a quiet command becomes its
loud form. -/
def BinCmd.loud : BinCmd → BinCmd
  | .setq => .set
  | .addq => .add
  | .replaceq => .replace
  | .deleteq => .delete
  | .incrementq => .increment
  | .decrementq => .decrement
  | .quitq => .quit
  | .flushq => .flush
  | .appendq => .append
  | .prependq => .prepend
  | .getq => .get
  | .getkq => .getk
  | .gatq => .gat
  | .gatkq => .gatk
  | cmd => cmd

/-! ## Connections -/

/-- `enum conn_states`; `conn_waiting` and `conn_read` are one state, in which the connection
waits for bytes. -/
inductive ConnState where
  | read
  | newCmd
  | parseCmd
  | nread
  | swallow
  | mwrite
  | closing
deriving DecidableEq

/-- `enum bin_substates` -/
inductive Substate where
  | readSetValue
  | readingSaslAuthData
deriving DecidableEq

/-- The item a value is read into, what is read of it. -/
structure ValueItem where
  nkey : ℕ := 0
  nbytes : ℤ := 0
  chunked : Bool := false
deriving DecidableEq

/-- `conn`, what the framing reads of it: `rbuf` are the bytes from `rcurr` on. The bytes
taken from the stream and the requests dispatched so far are counted. -/
structure Conn where
  state : ConnState := .newCmd
  rbuf : Bytes := []
  header : RequestHeader := {}
  substate : Substate := .readSetValue
  item : ValueItem := {}
  sbytes : ℤ := 0
  rlbytes : ℤ := 0
  closeAfterWrite : Bool := false
  authenticated : Bool := false
  consumed : ℕ := 0
  dispatched : ℕ := 0
deriving DecidableEq

/-- What one turn of `drive_machine` meets outside the framing. -/
structure Env where
  /-- `resp_start` succeeds. -/
  respStart : Bool := true
  /-- There are responses to send (`c->resp_head`). -/
  respHead : Bool := false
  /-- `nreqs` is used up. -/
  yield : Bool := false
  /-- The client flags of the request are not 0. -/
  flags : Bool := false
  /-- Whether there is memory for an item, and whether the item is chunked. -/
  alloc : Option Bool := some false
  /-- The command is answered with an error. -/
  failed : Bool := false
  /-- How many bytes fit into the chunks at hand. -/
  room : ℕ := 0
  /-- `do_item_alloc_chunk` fails. -/
  chunkOom : Bool := false
  /-- `sasl_server_start` or `sasl_server_step` accept. -/
  saslOk : Bool := false
  /-- All is sent, or only a part of it (`none`: the socket failed). -/
  transmitted : Option Bool := some true
deriving DecidableEq

/-- `settings`, what the framing reads of it. -/
structure Settings where
  sasl : Bool
  useCas : Bool
  itemSizeMax : ℕ
  /-- `main` (`memcached.c`, lines 6369-6372) refuses less. -/
  itemSizeMax_ge : 1024 ≤ itemSizeMax

/-- The size of an item: `item_make_header` (`items.c`, lines 165-173) and the CAS. -/
def itemTotal (S : Settings) (env : Env) (nkey : ℕ) (nbytes : ℤ) : ℤ :=
  48 + (nkey + 1) + (if env.flags then 4 else 0) + nbytes + (if S.useCas then 8 else 0)

/-- `item_size_ok` (`items.c`, lines 381-394). -/
def itemSizeOk (S : Settings) (env : Env) (nkey : ℕ) (nbytes : ℤ) : Bool :=
  if nbytes < 2 then false else itemTotal S env nkey nbytes ≤ S.itemSizeMax

/-- `do_item_alloc` (`items.c`, lines 262-379) refuses a negative size and one without a
slab class. -/
def itemAlloc (S : Settings) (env : Env) (nkey : ℕ) (nbytes : ℤ) : Option Bool :=
  if itemSizeOk S env nkey nbytes then env.alloc else none

namespace Conn

/-- `write_bin_error` (lines 227-233): how the connection goes on. -/
def writeBinError (c : Conn) (swallow : ℤ) : Conn :=
  if 0 < swallow then { c with sbytes := swallow, state := .swallow }
  else { c with state := .mwrite }

/-- `handle_binary_protocol_error` (lines 237-244). -/
def handleBinaryProtocolError (c : Conn) : Conn :=
  { c.writeBinError 0 with closeAfterWrite := true }

/-- How a command that reads no value goes on: `write_bin_response`, or `write_bin_error`
with nothing to swallow. -/
def answer (env : Env) (c : Conn) : Conn :=
  if env.failed then c.writeBinError 0 else { c with state := .newCmd }

/-- What `process_bin_update` (lines 1078-1180) and
`process_bin_append_prepend` (lines 1182-1248) have in common: the value is read into a
new item, or swallowed when there is none. -/
def readValue (S : Settings) (env : Env) (c : Conn) (vlen : ℤ) : Conn :=
  match itemAlloc S env c.header.keylen (toInt32 (vlen + 2)) with
  | none =>
    if itemSizeOk S env c.header.keylen (toInt32 (vlen + 2)) then
      { c.writeBinError 0 with sbytes := vlen, state := .swallow }
    else { c.writeBinError vlen with state := .swallow }
  | some chunked =>
    { c with
      item := { nkey := c.header.keylen, nbytes := toInt32 (vlen + 2), chunked }
      rlbytes := vlen
      state := .nread
      substate := .readSetValue }

/-- `process_bin_update` (lines 1078-1180). -/
def processBinUpdate (S : Settings) (env : Env) (c : Conn) : Conn :=
  c.readValue S env (toInt32 (c.header.bodylen - (c.header.keylen + c.header.extlen)))

/-- `process_bin_append_prepend` (lines 1182-1248). -/
def processBinAppendPrepend (S : Settings) (env : Env) (c : Conn) : Conn :=
  c.readValue S env (toInt32 (c.header.bodylen - c.header.keylen))

/-- `init_sasl_conn` (lines 673-693). -/
def initSaslConn (S : Settings) (c : Conn) : Conn :=
  if S.sasl then { c with authenticated := false } else c

/-- `bin_list_sasl_mechs` (lines 695-720). -/
def binListSaslMechs (S : Settings) (env : Env) (c : Conn) : Conn :=
  if S.sasl then (c.initSaslConn S).answer env
  else c.writeBinError (toInt32 (c.header.bodylen - c.header.keylen))

/-- `process_bin_sasl_auth` (lines 722-765): a chunked item is of no use. -/
def processBinSaslAuth (S : Settings) (env : Env) (c : Conn) : Conn :=
  let vlen := toInt32 (c.header.bodylen - c.header.keylen)
  if !S.sasl then c.writeBinError vlen
  else if maxSaslMechLen < c.header.keylen then { c.writeBinError vlen with state := .swallow }
  else if itemAlloc S env c.header.keylen (toInt32 (vlen + 2)) = some false then
    { c with
      item := { nkey := c.header.keylen, nbytes := toInt32 (vlen + 2) }
      rlbytes := vlen
      state := .nread
      substate := .readingSaslAuthData }
  else { c.writeBinError vlen with state := .swallow }

/-- `process_bin_complete_sasl_auth` (lines 767-855). -/
def processBinCompleteSaslAuth (S : Settings) (env : Env) (c : Conn) : Conn :=
  let vlen := toInt32 (c.header.bodylen - c.header.keylen)
  let c := c.initSaslConn S
  if c.item.nkey < c.header.keylen then { c.writeBinError vlen with state := .swallow }
  else if c.item.nbytes < vlen then { c.writeBinError vlen with state := .swallow }
  else if env.saslOk then { c with authenticated := true, state := .newCmd }
  else c.writeBinError 0

/-- `complete_nread_binary` (lines 31-50); `complete_update_bin` (lines
369-435) answers. -/
def completeNreadBinary (S : Settings) (env : Env) (c : Conn) : Conn :=
  match c.substate with
  | .readSetValue => c.answer env
  | .readingSaslAuthData => c.processBinCompleteSaslAuth S env

/-- `authenticated` (lines 857-883). -/
def isAuthenticated (c : Conn) : Bool :=
  match binCmd c.header.opcode with
  | .saslListMechs | .saslAuth | .saslStep | .version => true
  | _ => c.authenticated

/-- The second switch of `dispatch_bin_command` (lines 961-1071): `none` is a
protocol error. -/
def dispatchSwitch (S : Settings) (env : Env) (c : Conn) (cmd : BinCmd) : Option Conn :=
  let extlen := c.header.extlen
  let keylen := c.header.keylen
  let bodylen := c.header.bodylen
  match cmd with
  | .version =>
    if extlen = 0 ∧ keylen = 0 ∧ bodylen = 0 then some { c with state := .newCmd } else none
  | .flush =>
    if keylen = 0 ∧ bodylen = extlen ∧ (extlen = 0 ∨ extlen = 4) then some (c.answer env) else none
  | .noop =>
    if extlen = 0 ∧ keylen = 0 ∧ bodylen = 0 then some { c with state := .mwrite } else none
  | .set | .add | .replace =>
    if extlen = 8 ∧ keylen ≠ 0 ∧ keylen + 8 ≤ bodylen then some (c.processBinUpdate S env) else none
  | .getq | .get | .getkq | .getk =>
    if extlen = 0 ∧ bodylen = keylen ∧ 0 < keylen then some (c.answer env) else none
  | .delete =>
    if 0 < keylen ∧ extlen = 0 ∧ bodylen = keylen then some (c.answer env) else none
  | .increment | .decrement =>
    if 0 < keylen ∧ extlen = 20 ∧ bodylen = keylen + extlen then some (c.answer env) else none
  | .append | .prepend =>
    if 0 < keylen ∧ extlen = 0 then some (c.processBinAppendPrepend S env) else none
  | .stat => if extlen = 0 then some (c.answer env) else none
  | .quit =>
    if keylen = 0 ∧ extlen = 0 ∧ bodylen = 0 then
      some { c with state := .mwrite, closeAfterWrite := true }
    else none
  | .saslListMechs =>
    if extlen = 0 ∧ keylen = 0 ∧ bodylen = 0 then some (c.binListSaslMechs S env) else none
  | .saslAuth | .saslStep =>
    if extlen = 0 ∧ keylen ≠ 0 then some (c.processBinSaslAuth S env) else none
  | .touch | .gat | .gatq | .gatk | .gatkq =>
    if extlen = 4 ∧ keylen ≠ 0 then some (c.answer env) else none
  | _ => some (c.writeBinError (toInt32 bodylen))

/-- `dispatch_bin_command` (lines 885-1076). -/
def dispatchBinCommand (S : Settings) (env : Env) (c : Conn) : Conn :=
  if c.header.bodylen < c.header.keylen ∨ c.header.bodylen < c.header.keylen + c.header.extlen then
    { c.writeBinError 0 with closeAfterWrite := true }
  else if S.sasl && !c.isAuthenticated then
    { c.writeBinError 0 with closeAfterWrite := true }
  else if keyMaxLength < c.header.keylen then c.handleBinaryProtocolError
  else (c.dispatchSwitch S env (binCmd c.header.opcode).loud).getD c.handleBinaryProtocolError

def take (c : Conn) (n : ℕ) : Conn :=
  { c with rbuf := c.rbuf.drop n, consumed := c.consumed + n }

/-- `conn_parse_cmd` of `drive_machine`, when the request is not complete. -/
def needMore (env : Env) (c : Conn) : Conn :=
  { c with state := if env.respHead then .mwrite else .read }

/-- How many bytes a request has before its value. -/
def valueOffset (hdr : RequestHeader) : ℕ := requestLen + hdr.extlen + hdr.keylen

/-- `try_read_command_binary` (lines 52-126). -/
def tryReadCommandBinary (S : Settings) (env : Env) (c : Conn) : Conn :=
  if c.rbuf.length < requestLen then c.needMore env
  else
    let hdr := requestHeader c.rbuf
    if hdr.magic ≠ protocolBinaryReq then { c with header := hdr, state := .closing }
    else if c.rbuf.length < valueOffset hdr then { c.needMore env with header := hdr }
    else if !env.respStart then { c with header := hdr, state := .closing }
    else
      dispatchBinCommand S env
        { c.take (valueOffset hdr) with header := hdr, dispatched := c.dispatched + 1 }

/-- `conn_nread` of `drive_machine` (`memcached.c`, lines 3363-3457), the bytes that are in
the read buffer. -/
def driveNread (S : Settings) (env : Env) (c : Conn) : Conn :=
  if c.rlbytes = 0 then c.completeNreadBinary S env
  else if c.rlbytes < 0 then { c with state := .closing }
  else
    let tocopy := min c.rbuf.length c.rlbytes.toNat
    if c.item.chunked then
      let tocopy := min tocopy env.room
      let c := { c.take tocopy with rlbytes := c.rlbytes - tocopy }
      if env.chunkOom then { c.writeBinError 0 with sbytes := c.rlbytes, state := .swallow } else c
    else { c.take tocopy with rlbytes := c.rlbytes - tocopy }

/-- `conn_swallow` of `drive_machine` (`memcached.c`, lines 3460-3502), the bytes that are in
the read buffer. -/
def driveSwallow (c : Conn) : Conn :=
  if c.sbytes ≤ 0 then { c with state := .newCmd }
  else
    let tocopy := min c.rbuf.length c.sbytes.toNat
    { c.take tocopy with sbytes := c.sbytes - tocopy }

/-- One turn of `drive_machine` (`memcached.c`, lines 3164-3590); `reset_cmd_handler` (lines
1593-1617) starts a command. -/
def drive (S : Settings) (env : Env) (c : Conn) : Conn :=
  match c.state with
  | .read => c
  | .newCmd =>
    if env.yield then (if env.respHead then { c with state := .mwrite } else c)
    else if c.rbuf ≠ [] then { c with state := .parseCmd }
    else c.needMore env
  | .parseCmd => c.tryReadCommandBinary S env
  | .nread => c.driveNread S env
  | .swallow => c.driveSwallow
  | .mwrite =>
    match env.transmitted with
    | some true => { c with state := if c.closeAfterWrite then .closing else .newCmd }
    | some false => c
    | none => { c with state := .closing }
  | .closing => c

/-- Bytes arrive: `try_read_network`, or the reads of `conn_nread` and `conn_swallow`, which
ask for no more than they need once the read buffer is empty. -/
def recv (c : Conn) (x : Bytes) : Option Conn :=
  match c.state with
  | .read => if x ≠ [] then some { c with rbuf := c.rbuf ++ x, state := .parseCmd } else none
  | .nread =>
    if c.rbuf = [] ∧ (x.length : ℤ) ≤ c.rlbytes then
      some { c with rlbytes := c.rlbytes - x.length, consumed := c.consumed + x.length }
    else none
  | .swallow =>
    if c.rbuf = [] ∧ (x.length : ℤ) ≤ c.sbytes then
      some { c with sbytes := c.sbytes - x.length, consumed := c.consumed + x.length }
    else none
  | _ => none

end Conn

inductive Event where
  | drive (env : Env)
  | recv (x : Bytes)
  /-- The peer is gone, or the read buffer is full. -/
  | hangup

def Conn.step (S : Settings) (c : Conn) : Event → Option (Conn × Unit)
  | .drive env => some (c.drive S env, ())
  | .recv x => (c.recv x).map fun c => (c, ())
  | .hangup => some ({ c with state := .closing }, ())

/-- The connections of the binary protocol. `conn_new` leaves `sbytes` as the connection that
used the structure before left it. -/
def connections (S : Settings) : System Conn Event Unit where
  init c := c.state = .newCmd ∧ c.rbuf = [] ∧ c.closeAfterWrite = false ∧ c.sbytes < 2 ^ 31
  step := Conn.step S

def anyEvent (_ : Conn) (_ : Event) : Prop := True

/-! ## Where the next header is looked for -/

/-- The connection is closed, or will be when the response is sent. -/
def Conn.Closes (c : Conn) : Prop :=
  c.state = .closing ∨ (c.state = .mwrite ∧ c.closeAfterWrite = true)

/-- Where in the stream the next header is looked for. -/
def Conn.next (c : Conn) : ℕ :=
  match c.state with
  | .nread => c.consumed + c.rlbytes.toNat
  | .swallow => c.consumed + c.sbytes.toNat
  | _ => c.consumed

/-- The connection looks at a header. -/
def Conn.Interprets (c : Conn) : Prop := c.state = .parseCmd ∧ requestLen ≤ c.rbuf.length

/-- What every connection satisfies: the lengths are `int`s, and the item a SASL value is read
into has the lengths of the request. -/
structure Conn.Ok (c : Conn) : Prop where
  sbytes_lt : c.sbytes < 2 ^ 31
  rlbytes_lt : c.state = .nread → c.rlbytes < 2 ^ 31
  closes : c.closeAfterWrite = true → c.state = .mwrite ∨ c.state = .closing
  sasl : c.state = .nread → c.substate = .readingSaslAuthData →
    c.item.nkey = c.header.keylen ∧
      toInt32 (c.header.bodylen - c.header.keylen) ≤ c.item.nbytes

/-! ## Dispatch -/

section Dispatch

variable {S : Settings} {env : Env} {c c' : Conn} {vlen : ℤ}

theorem toInt32_lt (l : ℤ) : toInt32 l < 2 ^ 31 := by
  unfold toInt32
  omega

/-- A connection whose request is dispatched. -/
structure Conn.Dispatched (c : Conn) : Prop where
  sbytes_lt : c.sbytes < 2 ^ 31
  open_ : c.closeAfterWrite = false

/-- The request is served, and takes `n` bytes more. -/
structure Conn.Takes (c c' : Conn) (n : ℕ) : Prop where
  ok : c'.Ok
  dispatched : c'.dispatched = c.dispatched
  not_closing : c'.state ≠ .closing
  open_ : c'.closeAfterWrite = false
  next : c'.next = c.consumed + n

namespace Conn

section

variable (hc : c.Dispatched)
include hc

theorem Takes.answered {state : ConnState} {auth : Bool}
    (hstate : state = .newCmd ∨ state = .mwrite) :
    c.Takes { c with state := state, authenticated := auth } 0 := by
  rcases hstate with rfl | rfl <;>
    exact ⟨⟨hc.sbytes_lt, nofun, fun h => absurd (hc.open_.symm.trans h) nofun, nofun⟩, rfl, nofun,
      hc.open_, rfl⟩

theorem Takes.swallows {n : ℤ} (hn : n < 2 ^ 31) :
    c.Takes { c with sbytes := n, state := .swallow } n.toNat :=
  ⟨⟨hn, nofun, fun h => absurd (hc.open_.symm.trans h) nofun, nofun⟩, rfl, nofun, hc.open_, rfl⟩

theorem writeBinError_takes {swallow : ℤ} (hl : swallow < 2 ^ 31) :
    c.Takes (c.writeBinError swallow) swallow.toNat := by
  unfold writeBinError
  split_ifs with h
  · exact .swallows hc hl
  · rw [Int.toNat_of_nonpos (not_lt.mp h)]
    exact .answered hc (.inr rfl)

/-- `conn_swallow` after an error whose value may have a negative length: `sbytes` may be one
that was set long ago. -/
theorem writeBinError_swallows (hl : vlen < 2 ^ 31) :
    c.Takes { c.writeBinError vlen with state := .swallow }
      (if 0 < vlen then vlen.toNat else c.sbytes.toNat) := by
  unfold writeBinError
  split_ifs with h
  · exact .swallows hc hl
  · exact .swallows hc hc.sbytes_lt

end

variable (env) in
theorem answer_takes (hc : c.Dispatched) : c.Takes (c.answer env) 0 := by
  unfold answer
  split_ifs
  · exact writeBinError_takes hc (by norm_num)
  · exact .answered hc (.inl rfl)

variable {nkey : ℕ}

theorem itemSizeOk_empty (hk : nkey ≤ keyMaxLength) : itemSizeOk S env nkey 2 = true := by
  have hm := S.itemSizeMax_ge
  unfold keyMaxLength at hk
  rw [itemSizeOk, if_neg (by norm_num), decide_eq_true_iff, itemTotal]
  split_ifs <;> omega

theorem itemSizeOk_bounds (hl : vlen < 2 ^ 31)
    (hg : -2 ^ 31 ≤ vlen) (h : itemSizeOk S env nkey (toInt32 (vlen + 2)) = true) :
    0 ≤ vlen ∧ toInt32 (vlen + 2) = vlen + 2 := by
  have hn : ¬toInt32 (vlen + 2) < 2 := by
    intro hne
    rw [itemSizeOk, if_pos hne] at h
    exact absurd h nofun
  unfold toInt32 at hn ⊢
  omega

theorem itemAlloc_sizeOk {nbytes : ℤ} {chunked : Bool}
    (h : itemAlloc S env nkey nbytes = some chunked) : itemSizeOk S env nkey nbytes = true := by
  unfold itemAlloc at h
  split_ifs at h with hok
  exact hok

variable (env) in
theorem readValue_takes (hc : c.Dispatched) (hk : c.header.keylen ≤ keyMaxLength)
    (hl : vlen < 2 ^ 31) (hg : -2 ^ 31 ≤ vlen) :
    c.Takes (c.readValue S env vlen) (if 0 ≤ vlen then vlen.toNat else c.sbytes.toNat) := by
  unfold readValue
  split
  · split_ifs with hok hp hp
    · have hm : c.writeBinError 0 = { c with state := .mwrite } := rfl
      rw [hm]
      exact .swallows hc hl
    · exact absurd (itemSizeOk_bounds hl hg hok).1 hp
    · have hn : vlen ≠ 0 := by
        rintro rfl
        exact hok (itemSizeOk_empty hk)
      have h := writeBinError_swallows hc hl
      rwa [if_pos (by omega)] at h
    · have h := writeBinError_swallows hc hl
      rwa [if_neg (by omega)] at h
  · rename_i chunked ha
    have hp := (itemSizeOk_bounds hl hg (itemAlloc_sizeOk ha)).1
    rw [if_pos hp]
    exact ⟨⟨hc.sbytes_lt, fun _ => hl, fun h => absurd (hc.open_.symm.trans h) nofun,
      fun _ h => absurd h nofun⟩, rfl, nofun, hc.open_, rfl⟩

/-- How many bytes a SASL request takes after its key. -/
def saslTaken (S : Settings) (env : Env) (c : Conn) (vlen : ℤ) : ℕ :=
  if S.sasl = false ∨ c.header.keylen ≤ maxSaslMechLen ∧
      itemAlloc S env c.header.keylen (toInt32 (vlen + 2)) = some false then vlen.toNat
  else if 0 < vlen then vlen.toNat else c.sbytes.toNat

variable (env) in
theorem processBinSaslAuth_takes (hc : c.Dispatched) :
    c.Takes (c.processBinSaslAuth S env)
      (c.saslTaken S env (toInt32 (c.header.bodylen - c.header.keylen))) := by
  have hl := toInt32_lt (c.header.bodylen - c.header.keylen)
  unfold processBinSaslAuth saslTaken
  cases hs : S.sasl with
  | false =>
    simp only [Bool.not_false, if_true, true_or]
    exact writeBinError_takes hc hl
  | true =>
    simp only [Bool.not_true, Bool.false_eq_true, if_false, Bool.true_eq_false, false_or]
    by_cases hm : maxSaslMechLen < c.header.keylen
    · rw [if_pos hm, if_neg fun h => absurd h.1 (not_le.mpr hm)]
      exact writeBinError_swallows hc hl
    rw [if_neg hm]
    by_cases ha : itemAlloc S env c.header.keylen
        (toInt32 (toInt32 (c.header.bodylen - c.header.keylen) + 2)) = some false
    · rw [if_pos ha, if_pos ⟨not_lt.mp hm, ha⟩]
      have hb := itemSizeOk_bounds hl (by unfold toInt32; omega) (itemAlloc_sizeOk ha)
      refine ⟨⟨hc.sbytes_lt, fun _ => hl, fun h => absurd (hc.open_.symm.trans h) nofun,
        fun _ _ => ⟨rfl, ?_⟩⟩, rfl, nofun, hc.open_, rfl⟩
      show toInt32 (c.header.bodylen - c.header.keylen) ≤ toInt32 _
      rw [hb.2]
      omega
    · rw [if_neg ha, if_neg fun h => ha h.2]
      exact writeBinError_swallows hc hl

theorem binListSaslMechs_takes (hc : c.Dispatched) (hb : c.header.bodylen = 0)
    (hk : c.header.keylen = 0) : c.Takes (c.binListSaslMechs S env) 0 := by
  unfold binListSaslMechs initSaslConn
  split_ifs
  · have hc' : Dispatched { c with authenticated := false } := ⟨hc.sbytes_lt, hc.open_⟩
    have h := answer_takes env hc'
    exact ⟨h.ok, h.dispatched, h.not_closing, h.open_, h.next⟩
  · rw [hb, hk]
    exact writeBinError_takes hc (toInt32_lt _)

/-- How many bytes of the request are left when it is dispatched. -/
def rest (c : Conn) : ℕ := c.header.bodylen - (c.header.keylen + c.header.extlen)

/-- The requests after which the next header is looked for in the wrong place, by command:
`0 < c.sbytes` is what another connection left there. -/
def MisframedCmd (S : Settings) (c : Conn) : BinCmd → Prop
  | .set | .add | .replace => c.header.extlen = 8 ∧ c.header.keylen ≠ 0 ∧ 2 ^ 31 ≤ c.rest
  | .append | .prepend => 0 < c.header.keylen ∧ c.header.extlen = 0 ∧ 2 ^ 31 ≤ c.rest
  | .stat => c.header.extlen = 0 ∧ c.rest ≠ 0
  | .saslAuth | .saslStep =>
    c.header.extlen = 0 ∧ c.header.keylen ≠ 0 ∧
      (2 ^ 31 ≤ c.rest ∨ (S.sasl = true ∧ c.rest = 0 ∧ 0 < c.sbytes))
  | .touch | .gat | .gatq | .gatk | .gatkq =>
    c.header.extlen = 4 ∧ c.header.keylen ≠ 0 ∧ c.rest ≠ 0
  | .version | .flush | .noop | .get | .getq | .getk | .getkq | .delete | .increment
  | .decrement | .quit | .saslListMechs => False
  | _ => 0 < c.header.extlen + c.header.keylen ∨ 2 ^ 31 ≤ c.header.bodylen

theorem toInt32_value {b k : ℕ} (hl : k ≤ b) (hlt : b - k < 2 ^ 31) :
    toInt32 (b - k) = (b - k : ℕ) := by
  unfold toInt32
  omega

theorem toInt32_value_neg {b k : ℕ} (hlt : b < 2 ^ 32) (hl : 2 ^ 31 ≤ b - k) :
    toInt32 (b - k) < 0 := by
  unfold toInt32
  omega

theorem toInt32_ge (l : ℤ) : -2 ^ 31 ≤ toInt32 l := by
  unfold toInt32
  omega

theorem saslTaken_of_lt {b k : ℕ} (hl : k ≤ b) (hlt : b - k < 2 ^ 31)
    (hst : ¬(S.sasl = true ∧ b - k = 0 ∧ 0 < c.sbytes)) :
    c.saslTaken S env (toInt32 (b - k)) = b - k := by
  rw [saslTaken, toInt32_value hl hlt]
  split_ifs with hs hp
  · exact Int.toNat_natCast _
  · exact Int.toNat_natCast _
  rw [not_or] at hs
  have ht : S.sasl = true := by simpa using hs.1
  have hn : ¬0 < c.sbytes := fun h => hst ⟨ht, by omega, h⟩
  omega

theorem dispatchSwitch_takes {cmd : BinCmd} (hc : c.Dispatched)
    (hk : c.header.keylen ≤ keyMaxLength) (h : c.dispatchSwitch S env cmd = some c') :
    c'.Closes ∨ ∃ n, c.Takes c' n ∧ (c.header.keylen + c.header.extlen ≤ c.header.bodylen →
      ¬c.MisframedCmd S cmd → n = c.rest) := by
  unfold rest
  cases cmd
  all_goals simp only [dispatchSwitch, Option.ite_none_right_eq_some, Option.some.injEq] at h
  all_goals simp only [MisframedCmd, rest]
  case quit =>
    obtain ⟨-, rfl⟩ := h
    exact .inl (.inr ⟨rfl, rfl⟩)
  case version =>
    obtain ⟨hg, rfl⟩ := h
    exact .inr ⟨_, .answered hc (.inl rfl), fun _ _ => by omega⟩
  case noop =>
    obtain ⟨hg, rfl⟩ := h
    exact .inr ⟨_, .answered hc (.inr rfl), fun _ _ => by omega⟩
  case set | add | replace =>
    obtain ⟨hg, rfl⟩ := h
    refine .inr ⟨_, readValue_takes _ hc hk (toInt32_lt _) (toInt32_ge _), fun hl hm => ?_⟩
    have hv := toInt32_value hl (by omega)
    rw [Nat.cast_add] at hv
    rw [hv, if_pos (Int.natCast_nonneg _), Int.toNat_natCast]
  case append | prepend =>
    obtain ⟨hg, rfl⟩ := h
    refine .inr ⟨_, readValue_takes _ hc hk (toInt32_lt _) (toInt32_ge _), fun hl hm => ?_⟩
    rw [hg.2, Nat.add_zero] at hl hm ⊢
    rw [toInt32_value hl (by omega), if_pos (Int.natCast_nonneg _), Int.toNat_natCast]
  case saslListMechs =>
    obtain ⟨hg, rfl⟩ := h
    exact .inr ⟨_, binListSaslMechs_takes hc hg.2.2 hg.2.1, fun _ _ => by omega⟩
  case saslAuth | saslStep =>
    obtain ⟨hg, rfl⟩ := h
    refine .inr ⟨_, processBinSaslAuth_takes _ hc, fun hl hm => ?_⟩
    rw [hg.1, Nat.add_zero] at hl hm ⊢
    refine saslTaken_of_lt hl ?_ fun hs => hm ⟨rfl, hg.2, .inr hs⟩
    by_contra hge
    exact hm ⟨rfl, hg.2, .inl (not_lt.mp hge)⟩
  case flush | get | getq | getk | getkq | delete | increment | decrement | stat | touch | gat
      | gatq | gatk | gatkq =>
    obtain ⟨hg, rfl⟩ := h
    exact .inr ⟨_, answer_takes env hc, fun _ _ => by omega⟩
  all_goals
    subst h
    refine .inr ⟨_, writeBinError_takes hc (toInt32_lt _), fun hl hm => ?_⟩
    unfold toInt32
    omega

theorem writeBinError_not_nread {swallow : ℤ} : (c.writeBinError swallow).state ≠ .nread := by
  unfold writeBinError
  split_ifs <;> nofun

theorem answer_not_nread : (c.answer env).state ≠ .nread := by
  unfold answer
  split_ifs
  · exact writeBinError_not_nread
  · nofun

theorem itemAlloc_none {nbytes : ℤ} (h : env.alloc = none) :
    itemAlloc S env nkey nbytes = none := by
  rw [itemAlloc, h, ite_self]

theorem readValue_not_nread (h : env.alloc = none) : (c.readValue S env vlen).state ≠ .nread := by
  rw [readValue, itemAlloc_none h]
  split_ifs <;> nofun

theorem processBinSaslAuth_not_nread (h : env.alloc = none) :
    (c.processBinSaslAuth S env).state ≠ .nread := by
  simp only [processBinSaslAuth, itemAlloc_none h, reduceCtorEq, if_false]
  split_ifs with hs hm
  · exact writeBinError_not_nread
  · nofun
  · nofun

theorem dispatchSwitch_misframed {cmd : BinCmd} (hc : c.Dispatched)
    (hl : c.header.bodylen < 2 ^ 32) (hex : c.header.extlen < 2 ^ 8)
    (hle : c.header.keylen + c.header.extlen ≤ c.header.bodylen)
    (hk : c.header.keylen ≤ keyMaxLength) (hm : c.MisframedCmd S cmd) :
    ∃ c' n, c.dispatchSwitch S { alloc := none } cmd = some c' ∧ c'.state ≠ .nread ∧
      c.Takes c' n ∧ n ≠ c.rest := by
  have hsb := hc.sbytes_lt
  unfold rest
  cases cmd
  all_goals simp only [MisframedCmd, rest] at hm
  case set | add | replace =>
    have hne := toInt32_value_neg hl hm.2.2
    rw [Nat.cast_add] at hne
    refine ⟨_, _, if_pos ⟨hm.1, hm.2.1, by omega⟩, readValue_not_nread rfl,
      readValue_takes _ hc hk (toInt32_lt _) (toInt32_ge _), ?_⟩
    rw [if_neg (not_le.mpr hne)]
    omega
  case append | prepend =>
    obtain ⟨hp, hn, hb⟩ := hm
    rw [show c.header.keylen + c.header.extlen = c.header.keylen by omega] at hb ⊢
    refine ⟨_, _, if_pos ⟨hp, hn⟩, readValue_not_nread rfl,
      readValue_takes _ hc hk (toInt32_lt _) (toInt32_ge _), ?_⟩
    rw [if_neg (not_le.mpr (toInt32_value_neg hl hb))]
    omega
  case stat =>
    exact ⟨_, _, if_pos hm.1, answer_not_nread, answer_takes _ hc, hm.2.symm⟩
  case saslAuth | saslStep =>
    obtain ⟨hn, hp, hca⟩ := hm
    rw [show c.header.keylen + c.header.extlen = c.header.keylen by omega] at hle hca ⊢
    refine ⟨_, _, if_pos ⟨hn, hp⟩, processBinSaslAuth_not_nread rfl,
      processBinSaslAuth_takes _ hc, ?_⟩
    have hno : itemAlloc S { alloc := none } c.header.keylen
        (toInt32 (toInt32 (c.header.bodylen - c.header.keylen) + 2)) ≠ some false := by
      rw [itemAlloc_none rfl]
      nofun
    rw [saslTaken]
    rcases hca with hb | ⟨hs, he, hst⟩
    · have hne := toInt32_value_neg hl hb
      rw [if_neg (not_lt.mpr hne.le)]
      split_ifs <;> omega
    · rw [if_neg (by simp [hs, hno]), toInt32_value hle (by omega), he,
        if_neg (by norm_num)]
      omega
  case touch | gat | gatq | gatk | gatkq =>
    exact ⟨_, _, if_pos ⟨hm.1, hm.2.1⟩, answer_not_nread, answer_takes _ hc, hm.2.2.symm⟩
  all_goals
    refine ⟨_, _, rfl, writeBinError_not_nread, writeBinError_takes hc (toInt32_lt _), ?_⟩
    unfold keyMaxLength at hk
    unfold toInt32
    omega

/-- The requests after which the next header is looked for in the wrong place. -/
def Misframed (S : Settings) (c : Conn) : Prop :=
  c.header.keylen + c.header.extlen ≤ c.header.bodylen ∧
    (S.sasl = true → c.isAuthenticated = true) ∧ c.header.keylen ≤ keyMaxLength ∧
    c.MisframedCmd S (binCmd c.header.opcode).loud

/-- The first checks of `dispatch_bin_command`: the request is refused, and the connection
closed, or it comes to the switch. -/
theorem dispatchBinCommand_cases (S : Settings) (env : Env) (c : Conn) :
    (c.dispatchBinCommand S env).Closes ∨
      (c.header.keylen + c.header.extlen ≤ c.header.bodylen ∧
        (S.sasl = true → c.isAuthenticated = true) ∧ c.header.keylen ≤ keyMaxLength ∧
        ∃ c', c.dispatchSwitch S env (binCmd c.header.opcode).loud = some c' ∧
          c.dispatchBinCommand S env = c') := by
  have hcl : ({ c.writeBinError 0 with closeAfterWrite := true } : Conn).Closes :=
    .inr ⟨rfl, rfl⟩
  unfold dispatchBinCommand
  split_ifs with hl ha hk
  · exact .inl hcl
  · exact .inl hcl
  · exact .inl hcl
  cases hsw : c.dispatchSwitch S env (binCmd c.header.opcode).loud with
  | none => exact .inl hcl
  | some c' =>
    refine .inr ⟨by omega, fun hs => ?_, not_lt.mp hk, c', rfl, rfl⟩
    simpa [hs] using ha

variable (env) in
theorem dispatchBinCommand_takes (hc : c.Dispatched) :
    (c.dispatchBinCommand S env).Closes ∨ ∃ n, c.Takes (c.dispatchBinCommand S env) n ∧
      (¬c.Misframed S → c.header.bodylen = c.header.keylen + c.header.extlen + n) := by
  rcases dispatchBinCommand_cases S env c with h | ⟨hl, ha, hk, c', hs, he⟩
  · exact .inl h
  rw [he]
  rcases dispatchSwitch_takes hc hk hs with h | ⟨n, ht, hn⟩
  · exact .inl h
  refine .inr ⟨n, ht, fun hm => ?_⟩
  have hr := hn hl fun h => hm ⟨hl, ha, hk, h⟩
  unfold rest at hr
  omega

theorem dispatchBinCommand_misframed (hc : c.Dispatched) (hlt : c.header.bodylen < 2 ^ 32)
    (hex : c.header.extlen < 2 ^ 8) (hm : c.Misframed S) :
    ∃ n, (c.dispatchBinCommand S { alloc := none }).state ≠ .nread ∧
      c.Takes (c.dispatchBinCommand S { alloc := none }) n ∧ n ≠ c.rest := by
  obtain ⟨hl, ha, hk, hcm⟩ := hm
  obtain ⟨c', n, hs, hstate, ht, hn⟩ := dispatchSwitch_misframed hc hlt hex hl hk hcm
  have he : c.dispatchBinCommand S { alloc := none } = c' := by
    rw [dispatchBinCommand, if_neg (by omega), if_neg (by simpa using ha),
      if_neg (not_lt.mpr hk), hs, Option.getD_some]
  exact ⟨n, he ▸ hstate, he ▸ ht, hn⟩

end Conn

end Dispatch

/-! ## Runs -/

section Runs

variable {S : Settings} {env : Env} {c c' : Conn} {e : Event}

namespace Conn

/-- No value is being read or swallowed. -/
def Idle (c : Conn) : Prop := c.state ≠ .nread ∧ c.state ≠ .swallow

/-- A step between two requests. -/
structure Keeps (c c' : Conn) : Prop where
  ok : c'.Ok
  dispatched : c'.dispatched = c.dispatched
  next : c'.next = c.next
  idle : c.Idle → c'.Idle ∧ c.rbuf <+: c'.rbuf ∧ c'.authenticated = c.authenticated ∧
    c'.sbytes = c.sbytes

/-- The connection when its request is dispatched. -/
def atValue (c : Conn) : Conn :=
  { c.take (valueOffset (requestHeader c.rbuf)) with
    header := requestHeader c.rbuf
    dispatched := c.dispatched + 1 }

theorem Ok.open_of_state (hok : c.Ok) (h1 : c.state ≠ .mwrite) (h2 : c.state ≠ .closing) :
    c.closeAfterWrite = false := by
  by_contra hcl
  rcases hok.closes (by simpa using hcl) with h | h
  · exact h1 h
  · exact h2 h

theorem Keeps.of_state (hok : c.Ok) (hid : c.Idle) (ho : c.closeAfterWrite = false)
    {state : ConnState} {hdr : RequestHeader} (h1 : state ≠ .nread) (h2 : state ≠ .swallow) :
    c.Keeps { c with state := state, header := hdr } := by
  refine ⟨⟨hok.sbytes_lt, fun h => absurd h h1, fun h => absurd (ho.symm.trans h) nofun,
    fun h => absurd h h1⟩, rfl, ?_, fun _ => ⟨⟨h1, h2⟩, List.prefix_rfl, rfl, rfl⟩⟩
  have hn : ∀ d : Conn, d.Idle → d.next = d.consumed := by
    intro d hd
    unfold Conn.next
    split
    · exact absurd ‹_› hd.1
    · exact absurd ‹_› hd.2
    · rfl
  rw [hn c hid, hn _ ⟨h1, h2⟩]

theorem Keeps.between (hok : c.Ok) (h : c.state = .newCmd ∨ c.state = .parseCmd)
    {state : ConnState} {hdr : RequestHeader} (h1 : state ≠ .nread) (h2 : state ≠ .swallow) :
    c.Keeps { c with state := state, header := hdr } := by
  rcases h with h | h <;>
    exact .of_state hok ⟨by simp [h], by simp [h]⟩
      (hok.open_of_state (by simp [h]) (by simp [h])) h1 h2

theorem Takes.keeps {n : ℕ} (h : c.Takes c' n) (hid : ¬c.Idle) (hn : c.next = c.consumed + n) :
    c.Keeps c' :=
  ⟨h.ok, h.dispatched, h.next.trans hn.symm, fun hc => absurd hc hid⟩

section

variable (hok : c.Ok)
include hok

theorem completeNreadBinary_takes (hstate : c.state = .nread) :
    c.Takes (c.completeNreadBinary S env) 0 := by
  have hc : c.Dispatched :=
    ⟨hok.sbytes_lt, hok.open_of_state (by simp [hstate]) (by simp [hstate])⟩
  unfold completeNreadBinary
  split
  · exact answer_takes env hc
  rename_i hs
  obtain ⟨hnk, hn⟩ := hok.sasl hstate hs
  have hite : (c.initSaslConn S).item = c.item := by
    unfold initSaslConn
    split_ifs <;> rfl
  have hh : (c.initSaslConn S).header = c.header := by
    unfold initSaslConn
    split_ifs <;> rfl
  simp only [processBinCompleteSaslAuth, hite, hh]
  rw [if_neg (by omega), if_neg (by omega)]
  unfold initSaslConn
  split_ifs
  · exact .answered hc (.inl rfl)
  · exact .answered hc (.inl rfl)
  · exact .answered hc (.inr rfl)
  · exact .answered hc (.inr rfl)

theorem driveNread_keeps (hstate : c.state = .nread) :
    (c.driveNread S env).Closes ∨ c.Keeps (c.driveNread S env) := by
  have ho := hok.open_of_state (by simp [hstate]) (by simp [hstate])
  have hid : ¬c.Idle := fun h => h.1 hstate
  have hne : c.next = c.consumed + c.rlbytes.toNat := by rw [Conn.next, hstate]
  -- the bytes that are copied move from what is left to what was consumed
  have ht : ∀ n : ℕ, n ≤ c.rlbytes.toNat → 0 < c.rlbytes →
      c.Keeps { c.take n with rlbytes := c.rlbytes - n } := by
    intro n hn hp
    refine ⟨⟨hok.sbytes_lt, fun _ => ?_, hok.closes, hok.sasl⟩, rfl, ?_, fun h => absurd h hid⟩
    · have hl := hok.rlbytes_lt hstate
      show c.rlbytes - n < 2 ^ 31
      omega
    · rw [hne]
      show Conn.next { c.take n with rlbytes := c.rlbytes - n } = _
      simp only [Conn.next, take, hstate]
      omega
  unfold driveNread
  split_ifs with hz hneg hch hoo
  · exact .inr ((completeNreadBinary_takes hok hstate).keeps hid (by rw [hne, hz]; rfl))
  · exact .inl (.inl rfl)
  · have hk := ht (min (min c.rbuf.length c.rlbytes.toNat) env.room) (by omega) (by omega)
    have hl := hok.rlbytes_lt hstate
    refine .inr ⟨⟨?_, nofun, fun h => absurd (ho.symm.trans h) nofun, nofun⟩, rfl, ?_,
      fun h => absurd h hid⟩
    · show c.rlbytes - _ < 2 ^ 31
      omega
    · rw [← hk.next]
      simp only [Conn.next, take, hstate, writeBinError]
      rfl
  · exact .inr (ht _ (by omega) (by omega))
  · exact .inr (ht _ (by omega) (by omega))

theorem driveSwallow_keeps (hstate : c.state = .swallow) : c.Keeps c.driveSwallow := by
  have ho := hok.open_of_state (by simp [hstate]) (by simp [hstate])
  have hid : ¬c.Idle := fun h => h.2 hstate
  have hn : c.next = c.consumed + c.sbytes.toNat := by rw [Conn.next, hstate]
  have hl := hok.sbytes_lt
  unfold driveSwallow
  split_ifs with hz
  · refine ⟨⟨hl, nofun, fun h => absurd (ho.symm.trans h) nofun, nofun⟩, rfl, ?_,
      fun h => absurd h hid⟩
    rw [hn, Int.toNat_of_nonpos hz]
    rfl
  refine ⟨⟨?_, fun h => ?_, hok.closes, fun h => ?_⟩, rfl, ?_, fun h => absurd h hid⟩
  · show c.sbytes - _ < 2 ^ 31
    omega
  · exact hok.rlbytes_lt h
  · exact hok.sasl h
  · rw [hn]
    simp only [Conn.next, take, hstate]
    omega

theorem tryReadCommandBinary_cases (hstate : c.state = .parseCmd) :
    (c.tryReadCommandBinary S env).Closes ∨ c.Keeps (c.tryReadCommandBinary S env) ∨
      (requestLen ≤ c.rbuf.length ∧ valueOffset (requestHeader c.rbuf) ≤ c.rbuf.length ∧
        c.tryReadCommandBinary S env = c.atValue.dispatchBinCommand S env) := by
  have hm : ∀ hdr, c.Keeps { c.needMore env with header := hdr } := by
    intro hdr
    unfold needMore
    split_ifs <;> exact .between hok (.inr hstate) nofun nofun
  simp only [tryReadCommandBinary]
  split_ifs with hs hma hl hr
  · exact .inr (.inl (hm c.header))
  · exact .inl (.inl rfl)
  · exact .inr (.inl (hm _))
  · exact .inl (.inl rfl)
  · exact .inr (.inr ⟨not_lt.mp hs, not_lt.mp hl, rfl⟩)

theorem Keeps.refl : c.Keeps c :=
  ⟨hok, rfl, rfl, fun h => ⟨h, List.prefix_rfl, rfl, rfl⟩⟩

end

theorem recv_keeps {x : Bytes} (hok : c.Ok) (h : c.recv x = some c') : c.Keeps c' := by
  unfold recv at h
  split at h
  · rename_i hstate
    have ho := hok.open_of_state (by simp [hstate]) (by simp [hstate])
    simp only [Option.ite_none_right_eq_some, Option.some.injEq] at h
    obtain ⟨-, rfl⟩ := h
    refine ⟨⟨hok.sbytes_lt, nofun, fun h => absurd (ho.symm.trans h) nofun, nofun⟩, rfl, ?_,
      fun _ => ⟨⟨nofun, nofun⟩, List.prefix_append _ _, rfl, rfl⟩⟩
    simp only [Conn.next, hstate]
  · rename_i hstate
    have hl := hok.rlbytes_lt hstate
    simp only [Option.ite_none_right_eq_some, Option.some.injEq] at h
    obtain ⟨⟨-, hx⟩, rfl⟩ := h
    refine ⟨⟨hok.sbytes_lt, fun _ => ?_, hok.closes, hok.sasl⟩, rfl, ?_, fun h => absurd hstate h.1⟩
    · show c.rlbytes - x.length < 2 ^ 31
      omega
    · simp only [Conn.next, hstate]
      omega
  · rename_i hstate
    have hl := hok.sbytes_lt
    simp only [Option.ite_none_right_eq_some, Option.some.injEq] at h
    obtain ⟨⟨-, hx⟩, rfl⟩ := h
    refine ⟨⟨?_, hok.rlbytes_lt, hok.closes, hok.sasl⟩, rfl, ?_, fun h => absurd hstate h.2⟩
    · show c.sbytes - x.length < 2 ^ 31
      omega
    · simp only [Conn.next, hstate]
      omega
  · exact absurd h nofun

theorem step_cases (hok : c.Ok) (hs : c.step S e = some (c', ())) :
    c'.Closes ∨ c.Keeps c' ∨
      (c.state = .parseCmd ∧ requestLen ≤ c.rbuf.length ∧
        valueOffset (requestHeader c.rbuf) ≤ c.rbuf.length ∧
        ∃ env, c' = c.atValue.dispatchBinCommand S env) := by
  cases e with
  | hangup =>
    simp only [step, Option.some.injEq, Prod.mk.injEq, and_true] at hs
    subst hs
    exact .inl (.inl rfl)
  | recv x =>
    simp only [step, Option.map_eq_some_iff, Prod.mk.injEq, and_true, exists_eq_right] at hs
    exact .inr (.inl (recv_keeps hok hs))
  | drive env =>
    simp only [step, Option.some.injEq, Prod.mk.injEq, and_true] at hs
    subst hs
    cases hstate : c.state with
    | read =>
      rw [drive, hstate]
      exact .inr (.inl (.refl hok))
    | newCmd =>
      rw [drive, hstate]
      simp only [needMore]
      split_ifs
      · exact .inr (.inl (.between hok (.inl hstate) nofun nofun))
      · exact .inr (.inl (.refl hok))
      · exact .inr (.inl (.between hok (.inl hstate) nofun nofun))
      · exact .inr (.inl (.between hok (.inl hstate) nofun nofun))
      · exact .inr (.inl (.between hok (.inl hstate) nofun nofun))
    | parseCmd =>
      rw [drive, hstate]
      rcases tryReadCommandBinary_cases (S := S) hok hstate with h | h | ⟨hl, hv, he⟩
      · exact .inl h
      · exact .inr (.inl h)
      · exact .inr (.inr ⟨rfl, hl, hv, env, he⟩)
    | nread =>
      rw [drive, hstate]
      exact (driveNread_keeps hok hstate).imp_right .inl
    | swallow =>
      rw [drive, hstate]
      exact .inr (.inl (driveSwallow_keeps hok hstate))
    | mwrite =>
      have hid : c.Idle := ⟨by simp [hstate], by simp [hstate]⟩
      simp only [drive, hstate]
      split
      · by_cases hcl : c.closeAfterWrite = true
        · rw [if_pos hcl]
          exact .inl (.inl rfl)
        · rw [if_neg hcl]
          exact .inr (.inl (.of_state hok hid (by simpa using hcl) nofun nofun))
      · exact .inr (.inl (.refl hok))
      · exact .inl (.inl rfl)
    | closing =>
      rw [drive, hstate]
      exact .inl (.inl hstate)

theorem Closes.step (h : c.Closes) (hs : c.step S e = some (c', ())) : c'.Closes := by
  cases e with
  | hangup =>
    simp only [Conn.step, Option.some.injEq, Prod.mk.injEq, and_true] at hs
    subst hs
    exact .inl rfl
  | recv x =>
    rcases h with h | ⟨h, -⟩ <;> simp [Conn.step, recv, h] at hs
  | drive env =>
    simp only [Conn.step, Option.some.injEq, Prod.mk.injEq, and_true] at hs
    subst hs
    rcases h with h | ⟨h, hcl⟩
    · rw [drive, h]
      exact .inl h
    simp only [drive, h]
    split
    · rw [if_pos hcl]
      exact .inl rfl
    · exact .inr ⟨h, hcl⟩
    · exact .inl rfl

def Runs (S : Settings) (c c' : Conn) : Prop := ∃ l, (connections S).Steps anyEvent c l c'

theorem Runs.refl : c.Runs S c := ⟨[], .refl⟩

variable {d : Conn}

theorem Runs.step (h : c.Runs S c') (e : Event) (hs : c'.step S e = some (d, ())) :
    c.Runs S d := by
  obtain ⟨l, hl⟩ := h
  exact ⟨_, hl.tail trivial hs⟩

theorem Runs.trans (h : c.Runs S c') (h' : c'.Runs S d) : c.Runs S d := by
  obtain ⟨l, hl⟩ := h
  obtain ⟨l', hl'⟩ := h'
  exact ⟨_, hl.trans hl'⟩

theorem Dispatched.atValue (hok : c.Ok) (hstate : c.state = .parseCmd) : c.atValue.Dispatched :=
  ⟨hok.sbytes_lt, hok.open_of_state (by simp [hstate]) (by simp [hstate])⟩

theorem ok_of_reachable (h : (connections S).Reachable anyEvent c) : c.Closes ∨ c.Ok := by
  refine h.induct (P := fun c => c.Closes ∨ c.Ok) ?_ ?_
  · rintro d ⟨hstate, -, ho, hl⟩
    exact .inr ⟨hl, fun h => absurd (hstate.symm.trans h) nofun,
      fun h => absurd (ho.symm.trans h) nofun, fun h => absurd (hstate.symm.trans h) nofun⟩
  intro d e d' u hd _ hs
  rcases hd with hd | hd
  · exact .inl (hd.step hs)
  rcases step_cases hd hs with h | h | ⟨hstate, -, -, env, rfl⟩
  · exact .inl h
  · exact .inr h.ok
  refine (dispatchBinCommand_takes env (.atValue hd hstate)).imp_right fun h => ?_
  obtain ⟨n, ht, -⟩ := h
  exact ht.ok

/-! ## A run to the next header -/

/-- The connection comes to look at a header where it is. -/
def ComesTo (S : Settings) (c : Conn) : Prop :=
  ∃ c', c.Runs S c' ∧ c'.Interprets ∧ c'.dispatched = c.dispatched ∧ c'.consumed = c.next

theorem ComesTo.of_keeps (h : c'.ComesTo S) (hk : c.Keeps c') (hr : c.Runs S c') :
    c.ComesTo S := by
  obtain ⟨d, hd, hin, hdi, hco⟩ := h
  exact ⟨d, hr.trans hd, hin, hdi.trans hk.dispatched,
    hco.trans hk.next⟩

theorem ComesTo.of_drive (hd : c.drive S {} = c') (h : c'.Ok → c'.ComesTo S)
    (hk : c.Keeps c') : c.ComesTo S :=
  (h hk.ok).of_keeps hk (Runs.refl.step (.drive {}) (by rw [Conn.step, hd]))

theorem comesTo_read (hstate : c.state = .read) : c.ComesTo S := by
  have hr : c.recv (List.replicate requestLen 0) =
      some { c with rbuf := c.rbuf ++ List.replicate requestLen 0, state := .parseCmd } := by
    rw [recv, hstate]
    exact if_pos (by decide)
  have hs : c.step S (.recv (List.replicate requestLen 0)) =
      some ({ c with rbuf := c.rbuf ++ List.replicate requestLen 0, state := .parseCmd }, ()) := by
    rw [Conn.step, hr, Option.map_some]
  refine ⟨_, Runs.refl.step _ hs, ⟨rfl, ?_⟩, rfl, ?_⟩
  · rw [List.length_append, List.length_replicate]
    exact Nat.le_add_left _ _
  · rw [Conn.next, hstate]

section

variable (hok : c.Ok)
include hok

theorem comesTo_parseCmd (hstate : c.state = .parseCmd) : c.ComesTo S := by
  by_cases hl : requestLen ≤ c.rbuf.length
  · exact ⟨c, .refl, ⟨hstate, hl⟩, rfl, by rw [Conn.next, hstate]⟩
  have hd : c.drive S {} = { c with state := .read } := by
    rw [drive, hstate]
    exact if_pos (not_le.mp hl)
  exact .of_drive hd (fun _ => comesTo_read rfl) (.between hok (.inr hstate) nofun nofun)

theorem comesTo_newCmd (hstate : c.state = .newCmd) : c.ComesTo S := by
  by_cases he : c.rbuf ≠ []
  · have hd : c.drive S {} = { c with state := .parseCmd } := by
      rw [drive, hstate]
      exact if_pos he
    exact .of_drive hd (fun hok => comesTo_parseCmd hok rfl)
      (.between hok (.inl hstate) nofun nofun)
  · have hd : c.drive S {} = { c with state := .read } := by
      rw [drive, hstate]
      exact if_neg he
    exact .of_drive hd (fun _ => comesTo_read rfl) (.between hok (.inl hstate) nofun nofun)

theorem comesTo_mwrite (hstate : c.state = .mwrite)
    (ho : c.closeAfterWrite = false) : c.ComesTo S := by
  have hid : c.Idle := ⟨by simp [hstate], by simp [hstate]⟩
  have hd : c.drive S {} = { c with state := .newCmd } := by
    simp only [drive, hstate, ho]
    rfl
  exact .of_drive hd (fun hok => comesTo_newCmd hok rfl)
    (.of_state hok hid ho nofun nofun)

variable (hstate : c.state = .swallow)
include hstate

theorem comesTo_swallowed (hn : c.sbytes ≤ 0) : c.ComesTo S := by
  have hd : c.drive S {} = c.driveSwallow := by rw [drive, hstate]
  have hs : c.driveSwallow = { c with state := .newCmd } := if_pos hn
  refine .of_drive hd (fun hok => comesTo_newCmd hok ?_) (driveSwallow_keeps hok hstate)
  rw [hs]

theorem comesTo_swallow_rest (he : c.rbuf = []) : c.ComesTo S := by
  by_cases hn : c.sbytes ≤ 0
  · exact comesTo_swallowed hok hstate hn
  have hr : c.recv (List.replicate c.sbytes.toNat 0) =
      some { c with sbytes := 0, consumed := c.consumed + c.sbytes.toNat } := by
    have hl : (c.sbytes.toNat : ℤ) = c.sbytes := Int.toNat_of_nonneg (by omega)
    simp only [recv, hstate, he, List.length_replicate, hl, le_refl, and_self, if_true,
      sub_self]
  have hk := recv_keeps hok hr
  exact (comesTo_swallowed hk.ok hstate (le_refl _)).of_keeps hk
    (Runs.refl.step (.recv _) (by rw [Conn.step, hr]; rfl))

theorem comesTo_swallow : c.ComesTo S := by
  have hd : c.drive S {} = c.driveSwallow := by rw [drive, hstate]
  by_cases hn : c.sbytes ≤ 0
  · exact comesTo_swallowed hok hstate hn
  have hs : c.driveSwallow = { c.take (min c.rbuf.length c.sbytes.toNat) with
      sbytes := c.sbytes - (min c.rbuf.length c.sbytes.toNat : ℕ) } := if_neg hn
  refine .of_drive hd (fun hok => ?_) (driveSwallow_keeps hok hstate)
  rw [hs] at hok ⊢
  by_cases hl : c.sbytes.toNat ≤ c.rbuf.length
  · refine comesTo_swallowed hok hstate ?_
    show c.sbytes - (min c.rbuf.length c.sbytes.toNat : ℕ) ≤ 0
    omega
  · refine comesTo_swallow_rest hok hstate ?_
    show c.rbuf.drop (min c.rbuf.length c.sbytes.toNat) = []
    exact List.drop_eq_nil_of_le (by omega)

end

theorem Takes.comesTo {n : ℕ} (h : c.Takes c' n) (hstate : c'.state ≠ .nread) : c'.ComesTo S := by
  cases hca : c'.state with
  | read => exact comesTo_read hca
  | newCmd => exact comesTo_newCmd h.ok hca
  | parseCmd => exact comesTo_parseCmd h.ok hca
  | nread => exact absurd hca hstate
  | swallow => exact comesTo_swallow h.ok hca
  | mwrite => exact comesTo_mwrite h.ok hca h.open_
  | closing => exact absurd hca h.not_closing

/-! ## Framing -/

/-- Whenever the connection looks at the next header, it has taken the whole request from the
stream and nothing else. -/
def Framed (S : Settings) (c : Conn) : Prop :=
  ∀ c', c.Runs S c' → c'.Interprets → c'.dispatched = c.dispatched + 1 →
    c'.consumed = c.consumed + requestLen + (requestHeader c.rbuf).bodylen

theorem requestHeader_append {x y : Bytes} (h : requestLen ≤ x.length) :
    requestHeader (x ++ y) = requestHeader x := by
  have hg : ∀ i < 24, (x ++ y).getD i 0 = x.getD i 0 := by
    intro i hi
    rw [List.getD_eq_getElem?_getD, List.getElem?_append_left (lt_of_lt_of_le hi h),
      List.getD_eq_getElem?_getD]
  simp only [requestHeader, hg, Nat.reduceLT]

theorem requestHeader_bodylen_lt (x : Bytes) : (requestHeader x).bodylen < 2 ^ 32 := by
  have h1 := (x.getD 8 0).toNat_lt
  have h2 := (x.getD 9 0).toNat_lt
  have h3 := (x.getD 10 0).toNat_lt
  have h4 := (x.getD 11 0).toNat_lt
  simp only [requestHeader]
  omega

theorem requestHeader_extlen_lt (x : Bytes) : (requestHeader x).extlen < 2 ^ 8 :=
  (x.getD 4 0).toNat_lt

theorem misframed_congr (hh : c.header = d.header) (hs : c.sbytes = d.sbytes)
    (ha : c.authenticated = d.authenticated) : c.Misframed S ↔ d.Misframed S := by
  have hcm : ∀ cmd, c.MisframedCmd S cmd ↔ d.MisframedCmd S cmd := by
    intro cmd
    cases cmd <;> simp only [MisframedCmd, rest, hh, hs]
  rw [Misframed, Misframed, hcm, isAuthenticated, isAuthenticated, hh, ha]

/-- The connection still waits for the rest of a header's extras and key. -/
structure Waits (c d : Conn) : Prop where
  dispatched : d.dispatched = c.dispatched
  idle : d.Idle
  rbuf : c.rbuf <+: d.rbuf
  authenticated : d.authenticated = c.authenticated
  sbytes : d.sbytes = c.sbytes
  next : d.next = c.consumed

theorem Waits.requestHeader (h : c.Waits d) (hi : requestLen ≤ c.rbuf.length) :
    requestHeader d.rbuf = Binary.requestHeader c.rbuf := by
  obtain ⟨y, hy⟩ := h.rbuf
  rw [← hy, requestHeader_append hi]

variable (hok : c.Ok) (hi : c.Interprets)
include hok hi

theorem framed_of_not_misframed (hm : ¬c.atValue.Misframed S) : c.Framed S := by
  rintro c' ⟨l, hl⟩ hin hne
  have hinv : c'.Closes ∨ (c'.Ok ∧ (c.Waits c' ∨
      (c'.dispatched = c.dispatched + 1 ∧
        c'.next = c.consumed + requestLen + (Binary.requestHeader c.rbuf).bodylen) ∨
      c.dispatched + 1 < c'.dispatched)) := by
    refine hl.induct (P := fun d => d.Closes ∨ (d.Ok ∧ (c.Waits d ∨
      (d.dispatched = c.dispatched + 1 ∧
        d.next = c.consumed + requestLen + (Binary.requestHeader c.rbuf).bodylen) ∨
      c.dispatched + 1 < d.dispatched))) ?_ ?_
    · refine .inr ⟨hok, .inl ⟨rfl, ⟨?_, ?_⟩, List.prefix_rfl, rfl, rfl, ?_⟩⟩
      · simp [hi.1]
      · simp [hi.1]
      · rw [Conn.next, hi.1]
    intro d e d' u hd _ hs
    rcases hd with hd | ⟨hdo, hd⟩
    · exact .inl (hd.step hs)
    rcases step_cases hdo hs with hcl | hk | ⟨hstate, hle, hv, env, rfl⟩
    · exact .inl hcl
    · -- between two requests
      refine .inr ⟨hk.ok, ?_⟩
      rw [hk.dispatched, hk.next]
      refine hd.imp_left fun hd => ?_
      obtain ⟨hid, hr, ha, hsb⟩ := hk.idle hd.idle
      exact ⟨hk.dispatched.trans hd.dispatched, hid, hd.rbuf.trans hr,
        ha.trans hd.authenticated, hsb.trans hd.sbytes, hk.next.trans hd.next⟩
    rcases dispatchBinCommand_takes (S := S) env (.atValue hdo hstate) with
      hcl | ⟨n, ht, hn⟩
    · exact .inl hcl
    refine .inr ⟨ht.ok, .inr ?_⟩
    rw [ht.dispatched, ht.next]
    rcases hd with hd | hd
    · -- the request itself is dispatched
      have hh := hd.requestHeader hi.2
      have hb := hn (by
        rwa [misframed_congr (c := d.atValue) (d := c.atValue) hh hd.sbytes
          hd.authenticated])
      have hco : d.consumed = c.consumed := by rw [← hd.next, Conn.next, hstate]
      refine .inl ⟨congrArg (· + 1) hd.dispatched, ?_⟩
      simp only [atValue, take, valueOffset, hh, hco] at hb ⊢
      omega
    · -- a later request
      refine .inr ?_
      show c.dispatched + 1 < d.dispatched + 1
      omega
  rcases hinv with hcl | ⟨-, hw | ⟨-, hat⟩ | hla⟩
  · rcases hcl with h | h
    · exact absurd (hin.1.symm.trans h) nofun
    · exact absurd (hin.1.symm.trans h.1) nofun
  · have := hw.dispatched
    omega
  · rw [← hat, Conn.next, hin.1]
  · omega

theorem exists_complete (hm : (requestHeader c.rbuf).magic = protocolBinaryReq) :
    ∃ d, c.Runs S d ∧ d.Ok ∧ d.state = .parseCmd ∧ c.Waits d ∧
      valueOffset (requestHeader c.rbuf) ≤ d.rbuf.length := by
  have hid : c.Idle := ⟨by simp [hi.1], by simp [hi.1]⟩
  have hn : c.next = c.consumed := by rw [Conn.next, hi.1]
  by_cases hl : valueOffset (requestHeader c.rbuf) ≤ c.rbuf.length
  · exact ⟨c, .refl, hok, hi.1, ⟨rfl, hid, List.prefix_rfl, rfl, rfl, hn⟩, hl⟩
  have hd : c.drive S {} = { c with header := requestHeader c.rbuf, state := .read } := by
    simp only [drive, hi.1, tryReadCommandBinary]
    rw [if_neg (not_lt.mpr hi.2), if_neg (not_not.mpr hm), if_pos (not_le.mp hl)]
    rfl
  have hw : c.Keeps { c with header := requestHeader c.rbuf, state := .read } :=
    .between hok (.inr hi.1) nofun nofun
  have hr : recv { c with header := requestHeader c.rbuf, state := .read }
      (List.replicate (valueOffset (requestHeader c.rbuf)) 0) =
      some { c with
        header := requestHeader c.rbuf
        rbuf := c.rbuf ++ List.replicate (valueOffset (requestHeader c.rbuf)) 0
        state := .parseCmd } := by
    refine if_pos ?_
    rw [Ne, List.replicate_eq_nil_iff, valueOffset, requestLen]
    omega
  have hk := recv_keeps hw.ok hr
  obtain ⟨hi', hrb, ha, hs⟩ := hk.idle (hw.idle hid).1
  have hru : c.Runs S { c with header := requestHeader c.rbuf, state := .read } :=
    Runs.refl.step (.drive {}) (by rw [Conn.step, hd])
  refine ⟨_, hru.step (.recv _) (by rw [Conn.step, hr, Option.map_some]), hk.ok, rfl,
    ⟨hk.dispatched, hi', hrb, ha, hs, ?_⟩, ?_⟩
  · rw [hk.next, hw.next, hn]
  · rw [List.length_append, List.length_replicate]
    exact Nat.le_add_left _ _

theorem not_framed_of_misframed
    (hm : (requestHeader c.rbuf).magic = protocolBinaryReq) (hmi : c.atValue.Misframed S) :
    ¬c.Framed S := by
  intro hf
  obtain ⟨d, hr, hdo, hstate, hw, hl⟩ := exists_complete (S := S) hok hi hm
  have hh := hw.requestHeader hi.2
  rw [misframed_congr (c := c.atValue) (d := d.atValue) hh.symm hw.sbytes.symm
    hw.authenticated.symm] at hmi
  obtain ⟨n, hn, ht, hne⟩ := dispatchBinCommand_misframed (.atValue hdo hstate)
    (requestHeader_bodylen_lt _) (requestHeader_extlen_lt _) hmi
  have hdri : d.drive S { alloc := none } =
      d.atValue.dispatchBinCommand S { alloc := none } := by
    have hs : requestLen ≤ d.rbuf.length := hi.2.trans hw.rbuf.length_le
    simp only [drive, hstate, tryReadCommandBinary, hh]
    rw [if_neg (not_lt.mpr hs), if_neg (not_not.mpr hm), if_neg (not_lt.mpr hl),
      if_neg (by simp), atValue, hh]
  obtain ⟨c', hr', hin, hdi, hco⟩ := ht.comesTo (S := S) hn
  have hd : d.Runs S (d.atValue.dispatchBinCommand S { alloc := none }) :=
    Runs.refl.step (.drive { alloc := none }) (by rw [Conn.step, hdri])
  have ha := hf c' ((hr.trans hd).trans hr') hin (by
    rw [hdi, ht.dispatched]
    exact congrArg (· + 1) hw.dispatched)
  have hdc : d.consumed = c.consumed := by
    rw [← hw.next, Conn.next, hstate]
  have hle := hmi.1
  rw [hco, ht.next] at ha
  simp only [atValue, take, rest, valueOffset, hh, hdc] at ha hne hle
  omega

end Conn

/-- On every connection, when a header with the request magic is looked at, the next header is
looked for where the request ends, or the connection is closed, unless the request is
one of an unknown command with extras or a key, a stats or touch request with a value, or
one whose value is too long for an `int`. -/
theorem request_framed_iff (hr : (connections S).Reachable anyEvent c) (hi : c.Interprets)
    (hmagic : (requestHeader c.rbuf).magic = protocolBinaryReq) :
    c.Framed S ↔ ¬c.atValue.Misframed S := by
  have hok : c.Ok := by
    rcases Conn.ok_of_reachable hr with h | h
    · rcases h with h | h
      · exact absurd (hi.1.symm.trans h) nofun
      · exact absurd (hi.1.symm.trans h.1) nofun
    · exact h
  constructor
  · intro h hm
    exact Conn.not_framed_of_misframed hok hi hmagic hm h
  · exact Conn.framed_of_not_misframed hok hi

end Runs

/-! ## A request of an unknown command -/

def plainSettings : Settings where
  sasl := false
  useCas := true
  itemSizeMax := 2 ^ 20
  itemSizeMax_ge := by norm_num

/-- A request with the opcode, the lengths given and no extras. -/
def requestBytes (opcode : UInt8) (key value : Bytes) : Bytes :=
  [0x80, opcode, 0, key.length.toUInt8, 0, 0, 0, 0, 0, 0, 0, (key.length + value.length).toUInt8] ++
    List.replicate 12 0 ++ key ++ value

def newConn : Conn := {}

/-- The events of a connection on which the bytes arrive at once, up to the first header. -/
def arrives (x : Bytes) : List Event := [.drive {}, .recv x]

instance : ∀ c e, Decidable (anyEvent c e) := fun _ _ => inferInstanceAs (Decidable True)

instance (c : Conn) : Decidable c.Interprets := inferInstanceAs (Decidable (_ ∧ _))

theorem newConn_init (S : Settings) : (connections S).Reachable anyEvent newConn :=
  .of_init ⟨rfl, rfl, rfl, by decide⟩

/-- A get of `k` is framed. -/
theorem request_framed_iff_get :
    ∃ c, (connections plainSettings).Reachable anyEvent c ∧ c.Interprets ∧
      binCmd (requestHeader c.rbuf).opcode = .get ∧ c.Framed plainSettings := by
  obtain ⟨c, he, hi, hm, hcm⟩ := System.exists_exec (connections plainSettings) anyEvent
    newConn (arrives (requestBytes 0 (ascii "k") []))
    (fun c => c.Interprets ∧ (requestHeader c.rbuf).magic = protocolBinaryReq ∧
      binCmd (requestHeader c.rbuf).opcode = .get) (by decide +kernel)
  have hr := (newConn_init plainSettings).of_exec _ he
  refine ⟨c, hr, hi, hcm, (request_framed_iff hr hi hm).mpr fun hmi => ?_⟩
  have hn : c.atValue.MisframedCmd plainSettings (binCmd (requestHeader c.rbuf).opcode).loud :=
    hmi.2.2.2
  rw [hcm] at hn
  exact hn

/-- A request with the opcode `RGET`, which the server does not know, and the key `k` has 25
bytes; the next header is looked for after 26. -/
theorem unknown_command_misframed :
    ∃ c c', (connections plainSettings).Reachable anyEvent c ∧ c.Interprets ∧
      requestHeader c.rbuf = { magic := 0x80, opcode := 0x30, keylen := 1, bodylen := 1 } ∧
      c.Runs plainSettings c' ∧ c'.Interprets ∧ c'.dispatched = c.dispatched + 1 ∧
      c'.consumed = c.consumed + 26 := by
  obtain ⟨c, he, hi, hh, hr, hstate⟩ := System.exists_exec (connections plainSettings)
    anyEvent newConn
    (arrives (requestBytes 0x30 (ascii "k") [] ++ requestBytes 0x0a [] [] ++
      requestBytes 0x0a [] []))
    (fun c => c.Interprets ∧
      requestHeader c.rbuf = { magic := 0x80, opcode := 0x30, keylen := 1, bodylen := 1 } ∧
      c = { newConn with state := .parseCmd, rbuf := c.rbuf } ∧
      c.rbuf = requestBytes 0x30 (ascii "k") [] ++ requestBytes 0x0a [] [] ++
        requestBytes 0x0a [] []) (by decide +kernel)
  obtain ⟨c', he', hi', hd, hco⟩ := System.exists_exec
    (connections plainSettings) anyEvent c [.drive {}, .drive {}, .drive {}, .drive {}]
    (fun c' => c'.Interprets ∧ c'.dispatched = c.dispatched + 1 ∧
      c'.consumed = c.consumed + 26) (by rw [hr, hstate]; decide +kernel)
  exact ⟨c, c', (newConn_init _).of_exec _ he, hi, hh, System.Steps.of_exec _ he', hi',
    hd, hco⟩

end Memcached.Binary
