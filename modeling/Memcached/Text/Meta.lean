import Memcached.Text.Answers

/-!
# Meta commands (`proto_text.c`)

The handlers of `mg`, `ms`, `md` and `ma`. Each reads its flags with
`_meta_flag_preparse`, works on the item of its key, and writes its response line flag
by flag, in the order of the command line.

Results:
* `processMsetCommand_state`: where `ms` leaves its connection
-/

namespace Memcached.Text

open Items Util Proto

variable {Addr : Type*} [DecidableEq Addr] [Fintype Addr]

/-- `META_KEY` for the key of the command line. -/
def metaKeyOf (key : Bytes) (binary : Bool) : Bytes :=
  if binary then base64Encode key 512 ++ ascii " b" else key

def nominal (S : TextSettings) : Bytes := if S.metaResponseOld then ascii "OK" else ascii "HD"

def opaqueTooLong : Bytes := ascii "CLIENT_ERROR opaque token too long"

/-- The time that is left to an item, as flag `t` gives it. -/
def ttlText (s : Store Addr) (it : Item) : Bytes :=
  if it.exptime = 0 then ascii "-1" else itoaU64 (sub32 it.exptime s.currentTime)

/-! ## `mg` -/

/-- What the loop over the flags of `process_mget_command` works on: the store, the
response line and `won_token`. -/
structure MgetLine (Addr : Type*) where
  store : Store Addr
  p : Bytes
  wonToken : Bool := false

/-- One flag of `mg` (lines 1152-1228); `none` is the jump to `error`. -/
def mgetFlag (of : MetaFlags) (a : Addr) (created : Bool) (m : MgetLine Addr) (token : Bytes) :
    Option (MgetLine Addr) :=
  let it := m.store.items a
  match (token.headD 0).toNat with
  | 84 => some { m with store := setExptime m.store a of.exptime } -- T
  | 78 => -- N
    if created then
      some { m with store := setExptime m.store a of.autovivExptime, wonToken := true }
    else some m
  | 82 => -- R
    if it.flags.tokenSent = false ∧ created = false ∧ it.exptime ≠ 0 ∧
        it.exptime < of.recacheTime then some { m with wonToken := true }
    else some m
  | 115 => some { m with p := m.p ++ ascii " s" ++ itoaU64 (it.nbytes - 2) } -- s
  | 116 => some { m with p := m.p ++ ascii " t" ++ ttlText m.store it } -- t
  | 99 => some { m with p := m.p ++ ascii " c" ++ itoaU64 it.getCas } -- c
  | 102 => some { m with p := m.p ++ ascii " f" ++ itoaU64 it.flagsConv } -- f
  | 108 => -- l
    some { m with p := m.p ++ ascii " l" ++ itoaU64 (sub32 m.store.currentTime it.time) }
  | 104 => -- h
    some { m with p := m.p ++ ascii " h" ++ (if it.flags.fetched then ascii "1" else ascii "0") }
  | 79 => -- O
    if token.length > mflagMaxOpaqueLength then none
    else some { m with p := m.p ++ ascii " " ++ token }
  | 107 => some { m with p := m.p ++ ascii " k" ++ metaKey it } -- k
  | _ => some m

def mgetFlags (of : MetaFlags) (a : Addr) (created : Bool) :
    List Bytes → MgetLine Addr → MgetLine Addr × Bool
  | [], m => (m, true)
  | token :: tokens, m =>
    match mgetFlag of a created m token with
    | none => (m, false)
    | some m => mgetFlags of a created tokens m

/-- The marks behind the flags (lines 1231-1251). -/
def mgetMarks (m : MgetLine Addr) (a : Addr) : MgetLine Addr :=
  let flags := (m.store.items a).flags
  let won := m.wonToken || (flags.stale && !flags.tokenSent)
  let p := m.p ++ (if flags.tokenSent then ascii " Z" else []) ++
    (if flags.stale then ascii " X" else []) ++ (if won then ascii " W" else [])
  { store := if won then m.store.modify a fun it =>
        { it with flags := { it.flags with tokenSent := true } } else m.store
    p := p
    wonToken := won }

/-- The item of `mg`: the one that the key has, or a new one after a miss with flag `N`
(lines 1100-1137). The second component says that it is new, the third
that there were too many references to it. -/
def mgetItem (S : Settings) (env : Env Addr) (s : Store Addr) (of : MetaFlags) (key : Bytes) :
    Store Addr × Option Addr × Bool × Bool :=
  match limitedGet S s key none (!of.locked && !of.noUpdate) (env.room 0) with
  | (s, it, true) => (s, it, false, true)
  | (s, some a, false) => (s, some a, false, false)
  | (s, none, false) =>
    if of.vivify then
      match doItemAlloc S s key 0 0 2 (lockHeld (S.hash key) env.rounds) with
      | (s, none) => (s, none, false, false)
      | (s, some a) => (doItemLink S (setData s a (ascii "\r\n")) a, some a, true, false)
    else (s, none, false, false)

/-- `process_mget_command` from the lookup on (lines 1100-1356). -/
def mgetAnswer (S : TextSettings) (env : Env Addr) (s : Store Addr) (of : MetaFlags)
    (key : Bytes) (tokens : List Bytes) : Answer Addr :=
  match mgetItem S.toSettings env s of key with
  | (s, _, _, true) => outErrstring s (ascii "SERVER_ERROR refcount overflow during fetch")
  | (s, none, _, false) => outString s of.noReply (ascii "EN")
  | (s, some a, created, false) =>
    let start := if of.value then ascii "VA " ++ itoaU64 ((s.items a).nbytes - 2) else nominal S
    match mgetFlags of a created tokens { store := s, p := start } with
    | (m, false) => outErrstring (releaseRef m.store a) opaqueTooLong
    | (m, true) =>
      let m := mgetMarks m a
      let value := if of.value then (m.store.items a).data else []
      { store := if of.locked && !of.noUpdate then
            doItemBump S.toSettings m.store a (env.room 0) else m.store
        resp := { bytes := m.p ++ ascii "\r\n" ++ value, item := some a }
        next := .newCmd }

/-- `process_mget_command` (lines 1052-1356). -/
def processMgetCommand (S : TextSettings) (env : Env Addr) (s : Store Addr) (t : Tokens) :
    Answer Addr :=
  if t.ntokens < 3 then outString s false (ascii "ERROR")
  else if (t.tok 1).length > keyMaxLength then outErrstring s badLine
  else if t.ntokens = 3 then outErrstring s badLine
  else if t.ntokens > mflagMaxOptLength then
    outErrstring s (ascii "CLIENT_ERROR options flags are too long")
  else
    match metaFlagPreparse (realtime S.toSettings s) t 2 {} with
    | .error errstr => outErrstring s errstr
    | .ok (of, key) => mgetAnswer S env s of key (t.toks.drop 2)

/-! ## `ms` -/

/-- What `ms` notes for its response (lines 1421-1442). -/
def msetStash (tokens : List Bytes) : Bytes :=
  tokens.flatMap fun token =>
    match (token.headD 0).toNat with
    | 79 => if token.length > mflagMaxOpaqueLength then [] else 32 :: token -- O
    | 107 => ascii " k" -- k
    | 99 => ascii " c" -- c
    | _ => []

/-- The item of `ms`, which waits for its data block (lines 1516-1545). -/
def msetUpload (s : Store Addr) (it : Addr) (of : MetaFlags) (vlen : ℕ) (comm : Comm)
    (stash : Bytes) : Answer Addr :=
  let s := setCas s it of.reqCasId
  { store := if of.keyBinary then setKeyBinary s it else s
    resp := {}
    next := .nread
      { item := it, rlbytes := vlen, cmd := comm, noreply := of.noReply
        setStale := of.setStale && decide (comm = .cas), msetRes := some stash } }

/-- `process_mset_command` (lines 1358-1555). -/
def processMsetCommand (S : Settings) (env : Env Addr) (s : Store Addr) (t : Tokens) :
    Answer Addr :=
  let error (s : Store Addr) (errstr : Bytes) (vlen : ℕ) : Answer Addr :=
    { store := s, resp := outResp false errstr, next := .swallow vlen }
  match parseMset (realtime S s) t with
  | .reply text => outErrstring s text
  | .swallow vlen text => error s text vlen
  | .upload vlen of key comm =>
    match doItemAlloc S s key of.clientFlags of.exptime vlen env.rounds with
    | (s, none) => error (dropItem S s key) (allocError S key.length of.clientFlags vlen) vlen
    | (s, some it) => msetUpload s it of vlen comm (msetStash (t.toks.drop 2))

theorem processMsetCommand_state (S : Settings) (env : Env Addr) (s : Store Addr) (t : Tokens)
    {penv : CommandEnv} (ht : penv.realtime = realtime S s)
    (hp : ∀ vlen of key comm, parseMset (realtime S s) t = .upload vlen of key comm →
      penv.itemAlloc =
        (doItemAlloc S s key of.clientFlags of.exptime vlen env.rounds).2.isSome) :
    (processMsetCommand S env s t).next.state penv.chunked =
      (Proto.processMsetCommand penv t).state penv := by
  unfold processMsetCommand Proto.processMsetCommand
  rw [ht]
  rcases hl : parseMset (realtime S s) t with text | ⟨vlen, text⟩ | ⟨vlen, of, key, comm⟩
  · rfl
  · rfl
  · have hi := hp vlen of key comm hl
    rcases ha : doItemAlloc S s key of.clientFlags of.exptime vlen env.rounds with
      ⟨s', _ | it⟩ <;> rw [ha] at hi <;>
      simp [ha, startUpload, hi, Next.state, Outcome.state, msetUpload]

/-! ## `md` -/

/-- The flags `O` and `k` of a response that needs no item (lines 1597-1612
and 1885-1902); `none` is the jump to `error`. -/
def echoFlags (of : MetaFlags) (key : Bytes) : List Bytes → Option Bytes
  | [] => some []
  | token :: tokens =>
    match (token.headD 0).toNat with
    | 79 => -- O
      if token.length > mflagMaxOpaqueLength then none
      else (echoFlags of key tokens).map (ascii " " ++ token ++ ·)
    | 107 => (echoFlags of key tokens).map (ascii " k" ++ metaKeyOf key of.keyBinary ++ ·) -- k
    | _ => echoFlags of key tokens

/-- `process_mdelete_command` (lines 1557-1687). -/
def processMdeleteCommand (S : TextSettings) (s : Store Addr) (t : Tokens) : Answer Addr :=
  if t.ntokens < 3 then outString s false (ascii "ERROR")
  else if (t.tok 1).length > keyMaxLength then outString s false badLine
  else if t.ntokens > mflagMaxOptLength then
    outString s false (ascii "CLIENT_ERROR options flags too long")
  else
    match metaFlagPreparse (realtime S.toSettings s) t 2 {} with
    | .error _ => outErrstring s (ascii "CLIENT_ERROR invalid or duplicate flag")
    | .ok (of, key) =>
      match echoFlags of key (t.toks.drop 2) with
      | none => outErrstring s opaqueTooLong
      | some flags =>
        let cas := if of.hasCas then some of.reqCasId else none
        let newTtl := if of.newTtl then some of.exptime else none
        let (s, result) := processMdelete S.toSettings s key cas of.setStale newTtl
        let status := match result with
          | .notFound => ascii "NF"
          | .exists => ascii "EX"
          | .done => nominal S
        { store := s
          resp :=
            { bytes := status ++ ascii " " ++ flags ++ ascii "\r\n"
              skip := of.noReply && decide (result = .done) }
          next := .newCmd }

/-! ## `ma` -/

/-- The mode switch of `ma` (lines 1733-1748): whether it increments. -/
def marithmeticIncr (of : MetaFlags) : Option Bool :=
  match of.mode.toNat with
  | 0 | 73 | 43 => some true -- I, +
  | 68 | 45 => some false -- D, -
  | _ => none

/-- One flag of `ma` with its item (lines 1836-1873). -/
def marithmeticFlag (of : MetaFlags) (key : Bytes) (a : Addr) (created : Bool)
    (m : Store Addr × Bytes) (token : Bytes) : Option (Store Addr × Bytes) :=
  let (s, p) := m
  let it := s.items a
  match (token.headD 0).toNat with
  | 99 => some (s, p ++ ascii " c" ++ itoaU64 it.getCas) -- c
  | 116 => some (s, p ++ ascii " t" ++ ttlText s it) -- t
  | 84 => some (setExptime s a of.exptime, p) -- T
  | 78 => some (if created then setExptime s a of.autovivExptime else s, p) -- N
  | 79 => -- O
    if token.length > mflagMaxOpaqueLength then none else some (s, p ++ ascii " " ++ token)
  | 107 => some (s, p ++ ascii " k" ++ metaKeyOf key of.keyBinary) -- k
  | _ => some (s, p)

def marithmeticFlags (of : MetaFlags) (key : Bytes) (a : Addr) (created : Bool) :
    List Bytes → Store Addr × Bytes → (Store Addr × Bytes) × Bool
  | [], m => (m, true)
  | token :: tokens, m =>
    match marithmeticFlag of key a created m token with
    | none => (m, false)
    | some m => marithmeticFlags of key a created tokens m

/-- The response of `ma` with its item, which is given back (lines
1803-1857). -/
def marithmeticItem (S : TextSettings) (s : Store Addr) (of : MetaFlags) (key : Bytes)
    (tokens : List Bytes) (a : Addr) (created skip : Bool) (value : Bytes) : Answer Addr :=
  let start := if of.value then ascii "VA " ++ itoaU64 value.length else nominal S
  match marithmeticFlags of key a created tokens (s, start) with
  | ((s, _), false) => outErrstring (releaseRef s a) opaqueTooLong
  | ((s, p), true) =>
    { store := releaseRef s a
      resp :=
        { bytes := p ++ (if of.value then ascii "\r\n" ++ value else []) ++ ascii "\r\n"
          skip := skip }
      next := .newCmd }

def marithmeticMiss (s : Store Addr) (of : MetaFlags) (key : Bytes) (tokens : List Bytes)
    (status : Bytes) : Answer Addr :=
  match echoFlags of key tokens with
  | none => outErrstring s opaqueTooLong
  | some flags =>
    { store := s
      resp := { bytes := status ++ ascii " " ++ flags ++ ascii "\r\n" }
      next := .newCmd }

/-- `process_marithmetic_command` from the result of `do_add_delta` on (lines 1757-1919). -/
def marithmeticAnswer (S : TextSettings) (env : Env Addr) (s : Store Addr) (of : MetaFlags)
    (key : Bytes) (tokens : List Bytes) (reply : DeltaReply Addr) : Answer Addr :=
  match reply.result with
  | .ok =>
    match reply.itRet with
    | some a => marithmeticItem S s of key tokens a false of.noReply reply.value
    | none => marithmeticMiss s of key tokens (nominal S)
  | .nonNumeric =>
    outErrstring s (ascii "CLIENT_ERROR cannot increment or decrement non-numeric value")
  | .eom => outErrstring s (ascii "SERVER_ERROR out of memory")
  | .casMismatch => marithmeticMiss s of key tokens (ascii "EX")
  | .itemNotFound =>
    if of.vivify then
      let value := itoaU64 of.initial
      match doItemAlloc S.toSettings s key 0 0 (value.length + 2)
          (lockHeld (S.hash key) env.rounds) with
      | (s, none) => outErrstring s (ascii "SERVER_ERROR Out of memory allocating new item")
      | (s, some a) =>
        let (s, ret, _) := doStoreItem S.toSettings (setData s a (value ++ ascii "\r\n")) a
          .add false env.rounds' env.copy
        marithmeticItem S s of key tokens a (decide (ret ≠ .notStored)) false value
    else marithmeticMiss s of key tokens (ascii "NF")

/-- `process_marithmetic_command` (lines 1689-1919). -/
def processMarithmeticCommand (S : TextSettings) (env : Env Addr) (s : Store Addr) (t : Tokens) :
    Answer Addr :=
  if t.ntokens < 3 then outString s false (ascii "ERROR")
  else if (t.tok 1).length > keyMaxLength then outString s false badLine
  else if t.ntokens > mflagMaxOptLength then
    outString s false (ascii "CLIENT_ERROR options flags too long")
  else
    match metaFlagPreparse (realtime S.toSettings s) t 2 { delta := 1 } with
    | .error _ => outErrstring s (ascii "CLIENT_ERROR invalid or duplicate flag")
    | .ok (of, key) =>
      match marithmeticIncr of with
      | none => outErrstring s (ascii "CLIENT_ERROR invalid mode for ma M token")
      | some incr =>
        let (s, reply) := doAddDelta S.toSettings s key incr of.delta of.reqCasId true env.rounds
        marithmeticAnswer S env s of key (t.toks.drop 2) reply

/-! ## `me` -/

end Memcached.Text
