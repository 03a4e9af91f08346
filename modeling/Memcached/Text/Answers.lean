import Memcached.Items.BinaryKeys
import Memcached.Proto.DataBlocks

/-!
# Answers of the text protocol (`proto_text.c`)

A command line gets a response object, and its handler fills it; a storage command when
its data block has arrived. The handlers of this module work on no other response object,
so each of them is a function from the store and the words of the line to an answer.

Results:
* `processUpdateCommand_state`: where a storage command leaves its connection
-/

namespace Memcached.Text

open Items Util Proto

variable {Addr : Type*} [DecidableEq Addr] [Fintype Addr]

/-! ## Responses -/

structure TextSettings extends Settings where
  metaResponseOld : Bool

/-- `mc_resp`: what its iovecs give, `skip`, and the item that it holds a reference to. -/
structure Resp (Addr : Type*) where
  bytes : Bytes := []
  skip : Bool := false
  item : Option Addr := none
deriving DecidableEq

/-- A storage command that waits for its data block: `c->item`, `c->rlbytes`, `c->cmd`,
`c->noreply`, `c->set_stale`, and for a meta set (`c->mset_res`) what it has noted in
the write buffer of its response object. -/
structure Upload (Addr : Type*) where
  item : Addr
  rlbytes : ℕ
  cmd : Comm
  noreply : Bool
  setStale : Bool := false
  msetRes : Option Bytes := none
deriving DecidableEq

/-- The state that a handler leaves the connection in. -/
inductive Next (Addr : Type*) where
  | newCmd
  | mwrite
  | nread (upload : Upload Addr)
  | swallow (sbytes : ℕ)
deriving DecidableEq

/-- What a handler leaves: the store, its response object and the next state. -/
structure Answer (Addr : Type*) where
  store : Store Addr
  resp : Resp Addr
  next : Next Addr

/-- What a command finds: room in the bump buffer for each key, the memory for its item and
for the item of `do_store_item`, and what the copy of an append meets. -/
structure Env (Addr : Type*) where
  room : ℕ → Bool
  rounds : ℕ → Round Addr
  rounds' : ℕ → Round Addr
  copy : CopyEnv

def writeBufferSize : ℕ := 1024

/-- The line that `out_string` writes (`memcached.c`, lines 1439-1452). -/
def outLine (text : Bytes) : Bytes :=
  (if text.length + 2 > writeBufferSize then ascii "SERVER_ERROR output line too long" else text)
    ++ ascii "\r\n"

/-- The response object after `out_string` (`memcached.c`, lines 1416-1456). -/
def outResp (noreply : Bool) (text : Bytes) : Resp Addr :=
  if noreply then { skip := true } else { bytes := outLine text }

def outString (s : Store Addr) (noreply : Bool) (text : Bytes) : Answer Addr :=
  { store := s, resp := outResp noreply text, next := .newCmd }

/-- `out_errstring` (`memcached.c`, lines 1460-1463). -/
def outErrstring (s : Store Addr) (text : Bytes) : Answer Addr := outString s false text

/-- `set_noreply_maybe` (lines 497-513). -/
def setNoreplyMaybe (t : Tokens) : Bool := t.tok (t.ntokens - 2) = ascii "noreply"

def itRefcountLimit : ℕ := 60000

/-- `limited_get` (`memcached.c`, lines 2368-2383), with the new expiry time of a touch: the
item, and whether there were too many references to it. -/
def limitedGet (S : Settings) (s : Store Addr) (key : Bytes) (touch : Option ℕ)
    (doUpdate room : Bool) : Store Addr × Option Addr × Bool :=
  match (match touch with
    | some exptime => doItemTouch S s key exptime room
    | none => doItemGet S s key doUpdate room) with
  | (s, none) => (s, none, false)
  | (s, some a) =>
    if (s.items a).refcount > itRefcountLimit then (releaseRef s a, none, true)
    else (s, some a, false)

/-! ## Touch, incr, decr and delete -/

/-- `item_size_ok` (`items.c`, lines 381-394). -/
def itemSizeOk (S : Settings) (nkey flags nbytes : ℕ) : Bool :=
  2 ≤ nbytes ∧ S.slabsClsid (48 + (nkey + 1) + (if flags = 0 then 0 else 4) + nbytes +
    (if S.useCas then 8 else 0)) ≠ 0

def allocError (S : Settings) (nkey flags nbytes : ℕ) : Bytes :=
  if itemSizeOk S nkey flags nbytes then ascii "SERVER_ERROR out of memory storing object"
  else ascii "SERVER_ERROR object too large for cache"

/-- Removes the item that a key has, after a failed allocation. -/
def dropItem (S : Settings) (s : Store Addr) (key : Bytes) : Store Addr := (processDelete S s key).1

/-- The allocation of `process_update_command` (line 1969). -/
def updateAlloc (S : Settings) (env : Env Addr) (s : Store Addr) (t : Tokens)
    (line : UpdateLine) : Store Addr × Option Addr :=
  doItemAlloc S s (t.tok 1) line.flags (realtime S s (exptimeToPositiveTime line.exptime))
    line.vlen env.rounds

/-- `process_update_command` (lines 1922-2022). -/
def processUpdateCommand (S : Settings) (env : Env Addr) (s : Store Addr) (t : Tokens)
    (comm : Comm) (handleCas : Bool) : Answer Addr :=
  let noreply := setNoreplyMaybe t
  match parseUpdate t handleCas with
  | none => outString s noreply badLine
  | some line =>
    match updateAlloc S env s t line with
    | (s, none) =>
      { store := if comm = .set then dropItem S s (t.tok 1) else s
        resp := outResp noreply (allocError S (t.tok 1).length line.flags line.vlen)
        next := .swallow line.vlen }
    | (s, some it) =>
      { store := setCas s it line.cas
        resp := {}
        next := .nread { item := it, rlbytes := line.vlen, cmd := comm, noreply := noreply } }

/-- The flags of a meta set in its response (`_finalize_mset`, lines
90-115): `stash` is what the command has noted, byte by byte. -/
def finalizeFlags (it : Item) (cas : ℕ) : (fuel : ℕ) → (stash : Bytes) → Bytes
  | 0, _ => []
  | _, [] => []
  | fuel + 1, o :: stash =>
    if o = 79 then -- O
      32 :: o :: stash.takeWhile (· != 32) ++
        finalizeFlags it cas fuel ((stash.dropWhile (· != 32)).drop 1)
    else if o = 107 then ascii " k" ++ metaKey it ++ finalizeFlags it cas fuel stash -- k
    else if o = 99 then ascii " c" ++ itoaU64 cas ++ finalizeFlags it cas fuel stash -- c
    else finalizeFlags it cas fuel stash

/-- `_finalize_mset` (lines 54-122). -/
def finalizeMset (S : TextSettings) (it : Item) (cas : ℕ) (noreply : Bool) (stash : Bytes)
    (ret : StoreItemType) : Resp Addr :=
  let status := match ret with
    | .stored => if S.metaResponseOld then ascii "OK" else ascii "HD"
    | .exists => ascii "EX"
    | .notFound => ascii "NF"
    | .notStored => ascii "NS"
  { bytes := status ++ finalizeFlags it cas stash.length stash ++ ascii "\r\n"
    skip := noreply && decide (ret = .stored) }

def storedText : StoreItemType → Bytes
  | .stored => ascii "STORED"
  | .exists => ascii "EXISTS"
  | .notFound => ascii "NOT_FOUND"
  | .notStored => ascii "NOT_STORED"

/-- `complete_nread_ascii` (lines 167-234) after its check, with the data block in the item. -/
def completeChecked (S : TextSettings) (env : Env Addr) (s : Store Addr) (u : Upload Addr)
    (isValid : Bool) : Answer Addr :=
  if isValid then
    let (s, ret, cas) := doStoreItem S.toSettings s u.item u.cmd u.setStale env.rounds' env.copy
    let resp := match u.msetRes with
      | some stash => finalizeMset S (s.items u.item) (cas.getD 0) u.noreply stash ret
      | none => outResp u.noreply (storedText ret)
    { store := releaseRef s u.item, resp := resp, next := .newCmd }
  else
    let noreply := u.noreply && u.msetRes.isNone
    outString (releaseRef s u.item) noreply (ascii "CLIENT_ERROR bad data chunk")

def lastTwo (data : Bytes) : Bytes := data.drop (data.length - 2)

/-- `complete_nread_ascii` (lines 128-234) in a build with `NDEBUG`. -/
def completeNreadAscii (S : TextSettings) (env : Env Addr) (s : Store Addr) (u : Upload Addr)
    (data : Bytes) : Answer Addr :=
  completeChecked S env (setData s u.item data) u (lastTwo data = ascii "\r\n")

/-! ## Where the commands leave the connection -/

def Next.state (chunked : Bool) : Next Addr → ConnState
  | .newCmd | .mwrite => .newCmd
  | .nread u => .nread u.rlbytes chunked
  | .swallow sbytes => .swallow sbytes

/-- The handler leaves the connection in the state that the model of data blocks has for the
result of its allocation. -/
theorem processUpdateCommand_state (S : Settings) (env : Env Addr) (s : Store Addr) (t : Tokens)
    (comm : Comm) (ha : Bool) {penv : CommandEnv}
    (hp : ∀ line, parseUpdate t ha = some line →
      penv.itemAlloc = (updateAlloc S env s t line).2.isSome) :
    (processUpdateCommand S env s t comm ha).next.state penv.chunked =
      (Proto.processUpdateCommand penv t comm ha).state penv := by
  unfold processUpdateCommand Proto.processUpdateCommand
  rcases hl : parseUpdate t ha with _ | line
  · rfl
  · have hi := hp line hl
    rcases hal : updateAlloc S env s t line with ⟨s', _ | it⟩ <;> rw [hal] at hi <;>
      simp [hal, startUpload, hi, Next.state, Outcome.state]

end Memcached.Text
