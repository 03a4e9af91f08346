import Memcached.Proto.Tokens

/-!
# Data blocks of the storage commands (`proto_text.c`)

A storage command line announces a data block: the byte count of the line and two bytes
for the line end. The handlers either set up an item into which the block is read
(`conn_nread`), or answer an error and throw the block away (`conn_swallow`), or answer
an error and go on with the next command line.

Results:
* `data_block_taken_iff`: the block of a line is taken as data if the line is well formed
* `data_block_parsed`: else it is parsed as a command
-/

namespace Memcached.Proto

open Items Util Lib

/-! ## Command lines -/

inductive Storage where
  | set
  | add
  | replace
  | append
  | prepend
  | cas
  | mset
deriving DecidableEq

/-- The storage command of a line (`process_command_ascii`, lines
2744-2930). -/
def storageCommand (t : Tokens) : Option Storage :=
  if t.ntokens < 2 ∨ (t.tok 0).length < 2 then none
  else if t.tok 0 = ascii "ms" then some .mset
  else if t.tok 0 = ascii "set" then some .set
  else if t.tok 0 = ascii "add" then some .add
  else if t.tok 0 = ascii "append" then some .append
  else if t.tok 0 = ascii "cas" then some .cas
  else if t.tok 0 = ascii "replace" then some .replace
  else if t.tok 0 = ascii "prepend" then some .prepend
  else none

/-- What a command line finds: whether there is a response object and memory for the
item, whether the item would fit at all, whether it is chunked, and `realtime` at
the current time. -/
structure CommandEnv where
  respStart : Bool
  itemAlloc : Bool
  itemSizeOk : Bool
  chunked : Bool
  realtime : ℕ → ℕ

/-- Where a storage command leaves the connection: an answer and the next command, the
data block into an item, or an answer and the data block thrown away. -/
inductive Outcome where
  | reply (text : Bytes)
  | nread (rlbytes : ℕ) (comm : Comm)
  | swallow (sbytes : ℕ) (text : Bytes)
  | closing

def badLine : Bytes := ascii "CLIENT_ERROR bad command line format"

def keyMaxLength : ℕ := 250

def mflagMaxOptLength : ℕ := 20

def mflagMaxOpaqueLength : ℕ := 32

def intMax : ℕ := 2 ^ 31 - 1

/-- The item is allocated, or the data block is swallowed (lines
1969-2021 and 1487-1554). -/
def startUpload (env : CommandEnv) (vlen : ℕ) (comm : Comm) : Outcome :=
  if env.itemAlloc then .nread vlen comm
  else .swallow vlen (if env.itemSizeOk then ascii "SERVER_ERROR out of memory storing object"
    else ascii "SERVER_ERROR object too large for cache")

/-- What `process_update_command` reads of its line: `vlen` counts the line end, and without
`handle_cas` the cas value is 0. -/
structure UpdateLine where
  flags : ℕ
  exptime : ℤ
  vlen : ℕ
  cas : ℕ

/-- The line of `process_update_command` (lines 1936-1967); every check that fails gives the
same answer. -/
def parseUpdate (t : Tokens) (handleCas : Bool) : Option UpdateLine :=
  if (t.tok 1).length > keyMaxLength then none
  else
    match safeStrtoul (t.tok 2), safeStrtol (t.tok 3), safeStrtol (t.tok 4) with
    | some flags, some exptime, some vlen =>
      if handleCas = true ∧ safeStrtoull (t.tok 5) = none then none
      else if vlen < 0 ∨ vlen > intMax - 2 then none
      else
        let cas := if handleCas then (safeStrtoull (t.tok 5)).getD 0 else 0
        some ⟨flags, exptime, vlen.toNat + 2, cas⟩
    | _, _, _ => none

/-- Where `process_update_command` (lines 1922-2022) leaves the connection. -/
def processUpdateCommand (env : CommandEnv) (t : Tokens) (comm : Comm) (handleCas : Bool) :
    Outcome :=
  match parseUpdate t handleCas with
  | none => .reply badLine
  | some line => startUpload env line.vlen comm

/-- The mode switch of `process_mset_command` (lines 1447-1482). -/
def msetComm (of : MetaFlags) : Option Comm :=
  let comm := match of.mode.toNat with
    | 0 => some Comm.set
    | 69 => some .add -- E
    | 65 => some .append -- A
    | 80 => some .prepend -- P
    | 82 => some .replace -- R
    | 83 => some .set -- S
    | _ => none
  if of.hasCas ∧ (comm = some .set ∨ comm = some .replace) then some .cas else comm

/-- What `process_mset_command` makes of its line: an answer, an answer to a block that is
thrown away, or what it allocates an item for. -/
inductive MsetLine where
  | reply (text : Bytes)
  | swallow (vlen : ℕ) (text : Bytes)
  | upload (vlen : ℕ) (of : MetaFlags) (key : Bytes) (comm : Comm)

/-- The line of `process_mset_command` (lines 1358-1482). -/
def parseMset (realtime : ℕ → ℕ) (t : Tokens) : MsetLine :=
  if t.ntokens < 3 then .reply (ascii "ERROR")
  else if (t.tok 1).length > keyMaxLength then .reply badLine
  else if t.ntokens = 3 then .reply badLine
  else if t.ntokens > mflagMaxOptLength then
    .reply (ascii "CLIENT_ERROR options flags too long")
  else
    match safeStrtol (t.tok 2) with
    | none => .reply badLine
    | some vlen =>
      if vlen < 0 ∨ vlen > intMax - 2 then .reply badLine
      else
        let vlen := vlen.toNat + 2
        match metaFlagPreparse realtime t 3 {} with
        | .error errstr => .swallow vlen errstr
        | .ok (of, key) =>
          match msetComm of with
          | none => .swallow vlen (ascii "CLIENT_ERROR invalid mode for ms M token")
          | some comm =>
            if (t.toks.drop 2).any fun token =>
                token.headD 0 == 79 && mflagMaxOpaqueLength < token.length then
              .swallow vlen (ascii "CLIENT_ERROR opaque token too long")
            else .upload vlen of key comm

/-- Where `process_mset_command` (lines 1358-1555) leaves the connection. -/
def processMsetCommand (env : CommandEnv) (t : Tokens) : Outcome :=
  match parseMset env.realtime t with
  | .reply text => .reply text
  | .swallow vlen text => .swallow vlen text
  | .upload vlen _ _ comm => startUpload env vlen comm

/-- `WANT_TOKENS_OR` (lines 250-256) before `process_update_command`. -/
def wantTokensOr (t : Tokens) (a b : ℕ) (outcome : Outcome) : Outcome :=
  if t.ntokens ≠ a ∧ t.ntokens ≠ b then .reply (ascii "ERROR") else outcome

/-- `process_command_ascii` for a storage command. -/
def processStorage (env : CommandEnv) (t : Tokens) : Storage → Outcome
  | .set => wantTokensOr t 6 7 (processUpdateCommand env t .set false)
  | .add => wantTokensOr t 6 7 (processUpdateCommand env t .add false)
  | .replace => wantTokensOr t 6 7 (processUpdateCommand env t .replace false)
  | .append => wantTokensOr t 6 7 (processUpdateCommand env t .append false)
  | .prepend => wantTokensOr t 6 7 (processUpdateCommand env t .prepend false)
  | .cas => wantTokensOr t 7 8 (processUpdateCommand env t .cas true)
  | .mset => processMsetCommand env t

/-! ## The connection -/

/-- The states of `drive_machine` between one command line and the next. -/
inductive ConnState where
  | parseCmd
  | newCmd
  | nread (rlbytes : ℕ) (chunked : Bool)
  | swallow (sbytes : ℕ)
  | closing
deriving DecidableEq

/-- A connection: its state, the `rbytes` bytes at `rcurr`, and the bytes that the client
has sent and that were not read yet. -/
structure Conn where
  state : ConnState
  rbuf : Bytes
  wire : Bytes

/-- What the client has sent and the server has not taken yet. -/
def Conn.input (c : Conn) : Bytes := c.rbuf ++ c.wire

/-- The line at the front of the read buffer, without its line end, and what follows
(`try_read_command_ascii`, lines 445 and 473-478). -/
def splitLine (rbuf : Bytes) : Option (Bytes × Bytes) :=
  if 10 ∈ rbuf then some (rbuf.takeWhile (· != 10), (rbuf.dropWhile (· != 10)).drop 1) else none

/-- A carriage return at the end of a line of more than one byte is cut off. -/
def stripCr (line : Bytes) : Bytes :=
  if line.length > 1 ∧ line.getLast? = some 13 then line.dropLast else line

/-- `conn_set_state` at the end of a command. -/
def Outcome.state (env : CommandEnv) : Outcome → ConnState
  | .reply _ => .newCmd
  | .nread rlbytes _ => .nread rlbytes env.chunked
  | .swallow sbytes _ => .swallow sbytes
  | .closing => .closing

/-- What happens to a connection: a command line is executed; the block is complete;
bytes are copied from the read buffer (into a chunked item at most what is unused
of its chunk); bytes are read from the socket; there is no memory for the next
chunk; the client is gone or the socket fails. -/
inductive ConnEvent where
  | parse (env : CommandEnv)
  | complete
  | copy (unused : ℕ)
  | recv (n : ℕ)
  | chunkFail
  | fail

/-- `try_read_command_ascii` on a storage command line; `none` when there is no complete
line or it is another command. -/
def tryReadCommand (c : Conn) (env : CommandEnv) : Option Conn :=
  match splitLine c.rbuf with
  | none => none
  | some (line, rest) =>
    let t := tokenizeCommand (stripCr line)
    if env.respStart = false then some { c with state := .closing, rbuf := rest }
    else (storageCommand t).map fun cmd =>
      { c with state := (processStorage env t cmd).state env, rbuf := rest }

/-- `conn_nread` and `conn_swallow` with bytes in the read buffer (`memcached.c`, lines
3392-3402, 3126-3142 and 3467-3473). -/
def copyBytes (c : Conn) (unused : ℕ) : Option Conn :=
  match c.state with
  | .nread rlbytes chunked =>
    let tocopy := min (min c.rbuf.length rlbytes) (if chunked then unused else rlbytes)
    if tocopy = 0 then none
    else some { c with state := .nread (rlbytes - tocopy) chunked, rbuf := c.rbuf.drop tocopy }
  | .swallow sbytes =>
    let tocopy := min c.rbuf.length sbytes
    if tocopy = 0 then none
    else some { c with state := .swallow (sbytes - tocopy), rbuf := c.rbuf.drop tocopy }
  | _ => none

/-- `c->read` of `n` bytes, when the read buffer is empty (`memcached.c`, lines 3405-3417,
3144-3153 and 3476-3483). -/
def recvBytes (c : Conn) (n : ℕ) : Option Conn :=
  if c.rbuf = [] ∧ 0 < n ∧ n ≤ c.wire.length then
    match c.state with
    | .nread rlbytes chunked =>
      if n ≤ rlbytes then
        some { c with state := .nread (rlbytes - n) chunked, wire := c.wire.drop n }
      else none
    | .swallow sbytes =>
      if n ≤ sbytes then some { c with state := .swallow (sbytes - n), wire := c.wire.drop n }
      else none
    | _ => none
  else none

/-- One step of `drive_machine` between one command line and the next. -/
def connStep (c : Conn) : ConnEvent → Option (Conn × Unit)
  | .parse env => if c.state = .parseCmd then (tryReadCommand c env).map (·, ()) else none
  | .complete =>
    match c.state with
    | .nread 0 _ | .swallow 0 => some ({ c with state := .newCmd }, ())
    | _ => none
  | .copy unused => (copyBytes c unused).map (·, ())
  | .recv n => (recvBytes c n).map (·, ())
  | .chunkFail =>
    match c.state with
    | .nread rlbytes true =>
      if 0 < rlbytes then some ({ c with state := .swallow rlbytes }, ()) else none
    | _ => none
  | .fail =>
    match c.state with
    | .nread rlbytes _ => if 0 < rlbytes then some ({ c with state := .closing }, ()) else none
    | .swallow sbytes => if 0 < sbytes then some ({ c with state := .closing }, ()) else none
    | _ => none

def connection : System Conn ConnEvent Unit where
  init := fun _ => True
  step := connStep

abbrev Conn.Runs (c c' : Conn) : Prop := ∃ l, connection.Steps (fun _ _ => True) c l c'

/-! ## Byte counts -/

/-- The byte count of a line, if it has one. -/
def byteCount (t : Tokens) : Storage → Option Bytes
  | .mset => t.toks[2]?
  | _ => t.toks[4]?

def decimal (token : Bytes) : Option ℕ :=
  if token ≠ [] ∧ token.all isDigit = true then some (scanDigits token 0).1 else none

theorem scanDigits_rest {s : Bytes} (h : s.all isDigit = true) (n : ℕ) :
    (scanDigits s n).2 = [] := by
  induction s generalizing n with
  | nil => rfl
  | cons c s ih =>
    simp only [List.all_cons, Bool.and_eq_true] at h
    simp only [scanDigits, h.1, if_true]
    exact ih h.2 _

variable {n : ℕ} {token : Bytes}

theorem scanNumber_decimal (h : decimal token = some n) :
    scanNumber token = some (false, n, []) := by
  unfold decimal at h
  split_ifs at h with hd
  cases h
  obtain _ | ⟨c, s⟩ := token
  · exact absurd rfl hd.1
  · have hc : isDigit c = true := (List.all_eq_true.mp hd.2) c (.head _)
    rw [scanNumber_of_digit hc, ← scanDigits_rest hd.2 0]

theorem safeStrtol_decimal (h : decimal token = some n)
    (hn : n ≤ intMax - 2) : safeStrtol token = some (n : ℤ) := by
  simp only [intMax] at hn
  have hlt : ¬((false = true ∧ n > 2 ^ 63) ∨ (¬false = true ∧ n ≥ 2 ^ 63)) := by
    rintro (⟨hf, -⟩ | ⟨-, hg⟩)
    · cases hf
    · omega
  have hl : safeStrtoll token = some (n : ℤ) := by
    unfold safeStrtoll
    rw [scanNumber_decimal h]
    exact if_neg hlt
  simp only [safeStrtol, hl, Option.map_some, toInt32, Option.some.injEq]
  omega

/-! ## Lines that announce their block -/

/-- The checks on a line that are made before the byte count is known to the handler, or
whose failure does not swallow the block: the number of words, the length of the
key, and for the classic commands the flags, the expiry time and the cas value. -/
def WellFormed (t : Tokens) : Storage → Prop
  | .mset => (t.tok 1).length ≤ keyMaxLength ∧ t.ntokens ≤ mflagMaxOptLength
  | .cas => (t.ntokens = 7 ∨ t.ntokens = 8) ∧ (t.tok 1).length ≤ keyMaxLength ∧
      safeStrtoul (t.tok 2) ≠ none ∧ safeStrtol (t.tok 3) ≠ none ∧ safeStrtoull (t.tok 5) ≠ none
  | _ => (t.ntokens = 6 ∨ t.ntokens = 7) ∧ (t.tok 1).length ≤ keyMaxLength ∧
      safeStrtoul (t.tok 2) ≠ none ∧ safeStrtol (t.tok 3) ≠ none

instance (t : Tokens) (cmd : Storage) : Decidable (WellFormed t cmd) := by
  cases cmd <;> unfold WellFormed <;> infer_instance

/-- The command takes `k` bytes as data. -/
def Outcome.Takes (o : Outcome) (k : ℕ) : Prop :=
  (∃ comm, o = .nread k comm) ∨ ∃ text, o = .swallow k text

/-- The command answers and takes no data. -/
def Outcome.Answers (o : Outcome) : Prop := ∃ text, o = .reply text

theorem startUpload_takes (env : CommandEnv) (k : ℕ) (comm : Comm) :
    (startUpload env k comm).Takes k := by
  unfold startUpload
  split_ifs
  · exact .inl ⟨comm, rfl⟩
  · exact .inr ⟨_, rfl⟩
  · exact .inr ⟨_, rfl⟩

variable {t : Tokens}

theorem processUpdateCommand_cases (env : CommandEnv) (comm : Comm)
    (ha : Bool) (hco : safeStrtol (t.tok 4) = some (n : ℤ)) (hn : n ≤ intMax - 2) :
    ((t.tok 1).length ≤ keyMaxLength ∧ safeStrtoul (t.tok 2) ≠ none ∧
        safeStrtol (t.tok 3) ≠ none ∧ (ha = true → safeStrtoull (t.tok 5) ≠ none) ∧
        (processUpdateCommand env t comm ha).Takes (n + 2)) ∨
      ((t.tok 1).length > keyMaxLength ∨ safeStrtoul (t.tok 2) = none ∨
        safeStrtol (t.tok 3) = none ∨ (ha = true ∧ safeStrtoull (t.tok 5) = none)) ∧
        (processUpdateCommand env t comm ha).Answers := by
  unfold processUpdateCommand parseUpdate
  by_cases hk : (t.tok 1).length > keyMaxLength
  · rw [if_pos hk]
    exact .inr ⟨.inl hk, _, rfl⟩
  rw [if_neg hk, hco]
  rcases hf : safeStrtoul (t.tok 2) with _ | flags
  · exact .inr ⟨.inr (.inl rfl), _, rfl⟩
  rcases hexp : safeStrtol (t.tok 3) with _ | exptime
  · exact .inr ⟨.inr (.inr (.inl rfl)), _, rfl⟩
  by_cases hca : ha = true ∧ safeStrtoull (t.tok 5) = none
  · simp only [if_pos hca]
    exact .inr ⟨.inr (.inr (.inr hca)), _, rfl⟩
  have hr : ¬((n : ℤ) < 0 ∨ (n : ℤ) > (intMax : ℤ) - 2) := by
    simp only [intMax] at hn ⊢
    omega
  simp only [if_neg hca, if_neg hr, Int.toNat_natCast]
  refine .inl ⟨by omega, by simp, by simp, fun hc hno => hca ⟨hc, hno⟩, ?_⟩
  exact startUpload_takes env (n + 2) comm

theorem processMsetCommand_cases (env : CommandEnv)
    (hl : 3 ≤ t.toks.length) (hc : safeStrtol (t.tok 2) = some (n : ℤ))
    (hn : n ≤ intMax - 2) :
    (WellFormed t .mset ∧ (processMsetCommand env t).Takes (n + 2)) ∨
      ¬WellFormed t .mset ∧ (processMsetCommand env t).Answers := by
  have hnt : 4 ≤ t.ntokens := by
    simp only [Tokens.ntokens]
    omega
  unfold processMsetCommand parseMset
  rw [if_neg (by omega)]
  by_cases hk : (t.tok 1).length > keyMaxLength
  · rw [if_pos hk]
    exact .inr ⟨fun hw => absurd hw.1 (by omega), _, rfl⟩
  rw [if_neg hk, if_neg (by omega)]
  by_cases ho : t.ntokens > mflagMaxOptLength
  · rw [if_pos ho]
    exact .inr ⟨fun hw => absurd hw.2 (by omega), _, rfl⟩
  have hr : ¬((n : ℤ) < 0 ∨ (n : ℤ) > (intMax : ℤ) - 2) := by
    simp only [intMax] at hn ⊢
    omega
  rw [if_neg ho, hc]
  simp only [if_neg hr, Int.toNat_natCast]
  refine .inl ⟨⟨by omega, by omega⟩, ?_⟩
  -- from here on every way out takes the block
  obtain errstr | ⟨of, key⟩ := metaFlagPreparse env.realtime t 3 {}
  · exact .inr ⟨_, rfl⟩
  simp only
  obtain _ | comm := msetComm of
  · exact .inr ⟨_, rfl⟩
  simp only
  split_ifs
  · exact .inr ⟨_, rfl⟩
  · exact startUpload_takes env (n + 2) _

theorem tok_eq_of_getElem? {i : ℕ} (h : t.toks[i]? = some token) : t.tok i = token := by
  simp [Tokens.tok, List.getD, h]

theorem wantTokensOr_cases {a b : ℕ} {o : Outcome} {P : Prop} {k : ℕ}
    (h : P ∧ o.Takes k ∨ ¬P ∧ o.Answers) :
    ((t.ntokens = a ∨ t.ntokens = b) ∧ P) ∧ (wantTokensOr t a b o).Takes k ∨
      ¬((t.ntokens = a ∨ t.ntokens = b) ∧ P) ∧ (wantTokensOr t a b o).Answers := by
  unfold wantTokensOr
  by_cases hw : t.ntokens ≠ a ∧ t.ntokens ≠ b
  · rw [if_pos hw]
    refine .inr ⟨fun han => ?_, _, rfl⟩
    obtain he | he := han.1
    · exact hw.1 he
    · exact hw.2 he
  rw [if_neg hw]
  have he : t.ntokens = a ∨ t.ntokens = b := by
    by_contra hn
    exact hw (not_or.mp hn)
  obtain ⟨hp, ht⟩ | ⟨hp, ha⟩ := h
  · exact .inl ⟨⟨he, hp⟩, ht⟩
  · exact .inr ⟨fun han => hp han.2, ha⟩

/-- **One line.** A storage command with a byte count takes its block exactly when the
line is well formed, and otherwise it answers and takes nothing. -/
theorem processStorage_cases (env : CommandEnv) {cmd : Storage}
    (hc : (byteCount t cmd).bind decimal = some n) (hn : n ≤ intMax - 2) :
    WellFormed t cmd ∧ (processStorage env t cmd).Takes (n + 2) ∨
      ¬WellFormed t cmd ∧ (processStorage env t cmd).Answers := by
  obtain ⟨token, hto, hd⟩ := Option.bind_eq_some_iff.mp hc
  have hnu := safeStrtol_decimal hd hn
  have hu : ∀ comm, t.toks[4]? = some token →
      ((t.tok 1).length ≤ keyMaxLength ∧ safeStrtoul (t.tok 2) ≠ none ∧
          safeStrtol (t.tok 3) ≠ none) ∧
          (processUpdateCommand env t comm false).Takes (n + 2) ∨
        ¬((t.tok 1).length ≤ keyMaxLength ∧ safeStrtoul (t.tok 2) ≠ none ∧
          safeStrtol (t.tok 3) ≠ none) ∧ (processUpdateCommand env t comm false).Answers := by
    intro comm htok
    rw [← tok_eq_of_getElem? htok] at hnu
    rcases processUpdateCommand_cases env comm false hnu hn with
      ⟨hk, hf, hexp, -, ht⟩ | ⟨hb, ha⟩
    · exact .inl ⟨⟨hk, hf, hexp⟩, ht⟩
    refine .inr ⟨fun ho => ?_, ha⟩
    obtain hk | hf | hexp | ⟨hfa, -⟩ := hb
    · exact absurd ho.1 (by omega)
    · exact ho.2.1 hf
    · exact ho.2.2 hexp
    · cases hfa
  cases cmd with
  | set | add | replace | append | prepend => exact wantTokensOr_cases (hu _ hto)
  | cas =>
    refine wantTokensOr_cases ?_
    have htok : t.toks[4]? = some token := hto
    rw [← tok_eq_of_getElem? htok] at hnu
    rcases processUpdateCommand_cases env .cas true hnu hn with
      ⟨hk, hf, hexp, hca, ht⟩ | ⟨hb, ha⟩
    · exact .inl ⟨⟨hk, hf, hexp, hca rfl⟩, ht⟩
    refine .inr ⟨fun ho => ?_, ha⟩
    obtain hk | hf | hexp | ⟨-, hca⟩ := hb
    · exact absurd ho.1 (by omega)
    · exact ho.2.1 hf
    · exact ho.2.2.1 hexp
    · exact ho.2.2.2 hca
  | mset =>
    have htok : t.toks[2]? = some token := hto
    have hl : 2 < t.toks.length := (List.getElem?_eq_some_iff.mp htok).1
    rw [← tok_eq_of_getElem? htok] at hnu
    exact processMsetCommand_cases env hl hnu hn

/-! ## Taking the block -/

/-- The state in which the connection still has to take `owed` bytes. -/
inductive Owing (owed : ℕ) : ConnState → Prop where
  | nread (chunked : Bool) : Owing owed (.nread owed chunked)
  | swallow : Owing owed (.swallow owed)

/-- The connection has taken some bytes of the block, which starts at `rest`, and either
still owes the other ones, or has taken the whole block, or was closed. -/
def Owes (rest : Bytes) (n : ℕ) (c : Conn) : Prop :=
  c.state = .closing ∨ ∃ k owed, (Owing owed c.state ∨ c.state = .newCmd ∧ owed = 0) ∧
    k + owed = n + 2 ∧ k ≤ rest.length ∧ c.input = rest.drop k

variable {c c' : Conn}

theorem Owes.advance {rest : Bytes} {n k owed j : ℕ} (hk : k + owed = n + 2)
    (hle : k ≤ rest.length) (hi : c.input = rest.drop k) (hj : j ≤ owed)
    (hl : j ≤ c.input.length) (hi' : c'.input = c.input.drop j)
    (hs : Owing (owed - j) c'.state) : Owes rest n c' := by
  refine .inr ⟨k + j, owed - j, .inl hs, by omega, ?_, ?_⟩
  · rw [hi, List.length_drop] at hl
    omega
  · rw [hi', hi, List.drop_drop]

theorem copyBytes_spec {unused owed : ℕ} (ho : Owing owed c.state)
    (h : copyBytes c unused = some c') : ∃ j, 0 < j ∧ j ≤ owed ∧ j ≤ c.input.length ∧
      c'.input = c.input.drop j ∧ Owing (owed - j) c'.state := by
  have hd : ∀ {j}, j ≤ c.rbuf.length → c.rbuf.drop j ++ c.wire = c.input.drop j := by
    intro j hj
    rw [Conn.input, List.drop_append_of_le_length hj]
  have hl : ∀ {j}, j ≤ c.rbuf.length → j ≤ c.input.length := by
    intro j hj
    rw [Conn.input, List.length_append]
    omega
  obtain ⟨state, rbuf, wire⟩ := c
  simp only at ho hd hl
  cases ho with
  | nread chunked =>
    simp only [copyBytes] at h
    generalize hj : min (min rbuf.length owed) (if chunked then unused else owed) = j at h
    split_ifs at h with hz
    cases h
    exact ⟨j, by omega, by omega, hl (by omega), hd (by omega), .nread chunked⟩
  | swallow =>
    simp only [copyBytes] at h
    split_ifs at h with hz
    cases h
    exact ⟨_, by omega, by omega, hl (by omega), hd (by omega), .swallow⟩

theorem recvBytes_spec {n owed : ℕ} (ho : Owing owed c.state)
    (h : recvBytes c n = some c') : n ≤ owed ∧ n ≤ c.input.length ∧
      c'.input = c.input.drop n ∧ Owing (owed - n) c'.state := by
  obtain ⟨state, rbuf, wire⟩ := c
  simp only at ho
  unfold recvBytes at h
  split_ifs at h with hok
  obtain ⟨rfl, hp, hl⟩ : rbuf = [] ∧ 0 < n ∧ n ≤ wire.length := hok
  cases ho with
  | nread chunked =>
    simp only at h
    split_ifs at h with hn
    cases h
    exact ⟨hn, by simpa [Conn.input] using hl, by simp [Conn.input], .nread chunked⟩
  | swallow =>
    simp only at h
    split_ifs at h with hn
    cases h
    exact ⟨hn, by simpa [Conn.input] using hl, by simp [Conn.input], .swallow⟩

theorem connStep_closing {c : Conn} (h : c.state = .closing) (e : ConnEvent) :
    connStep c e = none := by
  obtain ⟨state, rbuf, wire⟩ := c
  obtain rfl : state = .closing := h
  cases e with
  | recv n => simp [connStep, recvBytes]
  | _ => simp [connStep, copyBytes]

theorem connStep_newCmd {c : Conn} (h : c.state = .newCmd) (e : ConnEvent) :
    connStep c e = none := by
  obtain ⟨state, rbuf, wire⟩ := c
  obtain rfl : state = .newCmd := h
  cases e with
  | recv n => simp [connStep, recvBytes]
  | _ => simp [connStep, copyBytes]

theorem Owes.step {rest : Bytes} {e : ConnEvent} {u : Unit}
    (h : Owes rest n c) (hs : connStep c e = some (c', u)) : Owes rest n c' := by
  obtain hc | ⟨k, owed, ho | ⟨hn, -⟩, hk, hl, hi⟩ := h
  · rw [connStep_closing hc] at hs
    cases hs
  · cases e with
    | parse env =>
      have hne : c.state ≠ .parseCmd := by
        intro he
        rw [he] at ho
        cases ho
      simp only [connStep, if_neg hne] at hs
      cases hs
    | complete =>
      obtain ⟨state, rbuf, wire⟩ := c
      simp only at ho
      cases ho with
      | nread chunked =>
        cases owed with
        | zero =>
          cases hs
          exact .inr ⟨k, 0, .inr ⟨rfl, rfl⟩, hk, hl, hi⟩
        | succ owed => cases hs
      | swallow =>
        cases owed with
        | zero =>
          cases hs
          exact .inr ⟨k, 0, .inr ⟨rfl, rfl⟩, hk, hl, hi⟩
        | succ owed => cases hs
    | copy unused =>
      obtain ⟨c1, hco, he⟩ := Option.map_eq_some_iff.mp hs
      obtain ⟨rfl, -⟩ := Prod.mk.inj he
      obtain ⟨j, -, hj, hlen, hi', hst⟩ := copyBytes_spec ho hco
      exact Owes.advance hk hl hi hj hlen hi' hst
    | recv m =>
      obtain ⟨c1, hr, he⟩ := Option.map_eq_some_iff.mp hs
      obtain ⟨rfl, -⟩ := Prod.mk.inj he
      obtain ⟨hj, hlen, hi', hst⟩ := recvBytes_spec ho hr
      exact Owes.advance hk hl hi hj hlen hi' hst
    | chunkFail =>
      obtain ⟨state, rbuf, wire⟩ := c
      simp only at ho
      cases ho with
      | nread chunked =>
        cases chunked with
        | true =>
          obtain ⟨-, rfl, -⟩ := System.guarded_eq_some hs
          exact .inr ⟨k, owed, .inl .swallow, hk, hl, hi⟩
        | false => cases hs
      | swallow => cases hs
    | fail =>
      obtain ⟨state, rbuf, wire⟩ := c
      simp only at ho
      cases ho with
      | nread chunked =>
        obtain ⟨-, rfl, -⟩ := System.guarded_eq_some hs
        exact .inl rfl
      | swallow =>
        obtain ⟨-, rfl, -⟩ := System.guarded_eq_some hs
        exact .inl rfl
  · rw [connStep_newCmd hn] at hs
    cases hs

theorem Conn.Runs.head {c c1 c' : Conn} {e : ConnEvent} (hs : connStep c e = some (c1, ()))
    (h : c1.Runs c') : c.Runs c' := by
  obtain ⟨l, hl⟩ := h
  exact ⟨_, (System.Steps.refl.tail trivial hs).trans hl⟩

theorem exists_complete {c : Conn} {owed : ℕ} (ho : Owing owed c.state)
    (hlen : owed ≤ c.input.length) : ∃ c', c.Runs c' ∧ c'.state = .newCmd := by
  induction owed using Nat.strong_induction_on generalizing c with
  | _ owed ih =>
    obtain rfl | hp := Nat.eq_zero_or_pos owed
    · refine ⟨{ c with state := .newCmd }, Conn.Runs.head (e := .complete) ?_ ⟨[], .refl⟩, rfl⟩
      obtain ⟨state, rbuf, wire⟩ := c
      simp only at ho
      cases ho with
      | nread chunked => rfl
      | swallow => rfl
    -- one step that takes at least a byte
    obtain ⟨e, c1, j, hst, hj, hl, hi, hs⟩ : ∃ e c1 j,
        connStep c e = some (c1, ()) ∧ 0 < j ∧ j ≤ owed ∧ c1.input = c.input.drop j ∧
          Owing (owed - j) c1.state := by
      by_cases hr : c.rbuf = []
      · have hw : owed ≤ c.wire.length := by simpa [Conn.input, hr] using hlen
        obtain ⟨c1, hre⟩ : ∃ c1, recvBytes c owed = some c1 := by
          obtain ⟨state, rbuf, wire⟩ := c
          simp only at ho hr hw
          cases ho with
          | nread chunked => exact ⟨_, by simp [recvBytes, hr, hp, hw]; rfl⟩
          | swallow => exact ⟨_, by simp [recvBytes, hr, hp, hw]; rfl⟩
        obtain ⟨hn, -, hi, hs⟩ := recvBytes_spec ho hre
        exact ⟨.recv owed, c1, owed, by simp [connStep, hre], hp, hn, hi, hs⟩
      have hne : 0 < c.rbuf.length := List.length_pos_iff.mpr hr
      obtain ⟨c1, hc⟩ : ∃ c1, copyBytes c owed = some c1 := by
        obtain ⟨state, rbuf, wire⟩ := c
        simp only at ho hne
        cases ho with
        | nread chunked =>
          have hz : ¬min (min rbuf.length owed) (if chunked then owed else owed) = 0 := by
            rw [ite_self]
            omega
          exact ⟨_, if_neg hz⟩
        | swallow =>
          have hz : ¬min rbuf.length owed = 0 := by omega
          exact ⟨_, if_neg hz⟩
      obtain ⟨j, hj, hl, -, hi, hs⟩ := copyBytes_spec ho hc
      exact ⟨.copy owed, c1, j, by simp [connStep, hc], hj, hl, hi, hs⟩
    have hl1 : owed - j ≤ c1.input.length := by
      rw [hi, List.length_drop]
      omega
    obtain ⟨c', hru, hnew⟩ := ih (owed - j) (by omega) hs hl1
    exact ⟨c', hru.head hst, hnew⟩

/-! ## Storage command lines -/

/-- The `n + 2` bytes at `rest` are taken as data: wherever a run reaches the next command
it has taken exactly these, and from every state in which the connection is open the
next command can be reached once they have all been sent. -/
def TakesBlock (c : Conn) (rest : Bytes) (n : ℕ) : Prop :=
  (∀ c', c.Runs c' → c'.state = .newCmd →
    n + 2 ≤ rest.length ∧ c'.input = rest.drop (n + 2)) ∧
  ∀ c', c.Runs c' → c'.state ≠ .closing → n + 2 ≤ rest.length →
    ∃ c'', c'.Runs c'' ∧ c''.state = .newCmd

theorem splitLine_eq {line more : Bytes} (hl : 10 ∉ line) :
    splitLine (line ++ 10 :: more) = some (line, more) := by
  have hn : ∀ x ∈ line, (x != 10) = true := by
    intro x hx
    have : x ≠ 10 := ne_of_mem_of_not_mem hx hl
    simpa using this
  unfold splitLine
  rw [if_pos (by simp), List.takeWhile_append_of_pos hn, List.dropWhile_append_of_pos hn]
  simp

theorem tryReadCommand_eq {c : Conn} {line more : Bytes} {cmd : Storage} {env : CommandEnv}
    (hrb : c.rbuf = line ++ 10 :: more) (hl : 10 ∉ line)
    (hc : storageCommand (tokenizeCommand (stripCr line)) = some cmd) :
    tryReadCommand c env = some { c with
      state := if env.respStart = false then .closing else
        (processStorage env (tokenizeCommand (stripCr line)) cmd).state env
      rbuf := more } := by
  unfold tryReadCommand
  rw [hrb, splitLine_eq hl]
  by_cases hr : env.respStart = false
  · simp [hr]
  · simp [hr, hc]

/-- **Data blocks are data.** A storage command line is in the read buffer, and its byte
count is a decimal number `n` with `n ≤ INT_MAX - 2`. The `n + 2` bytes after the line
are taken as data and the next command starts right behind them, in every way the
bytes can arrive, exactly when the line is well formed. -/
theorem data_block_taken_iff {c : Conn} {line more : Bytes} {cmd : Storage} {n : ℕ}
    (hstate : c.state = .parseCmd) (hrbuf : c.rbuf = line ++ 10 :: more) (hline : 10 ∉ line)
    (hcmd : storageCommand (tokenizeCommand (stripCr line)) = some cmd)
    (hcount : (byteCount (tokenizeCommand (stripCr line)) cmd).bind decimal = some n)
    (hn : n ≤ intMax - 2) :
    TakesBlock c (more ++ c.wire) n ↔ WellFormed (tokenizeCommand (stripCr line)) cmd := by
  have hp : ∀ env, connStep c (.parse env) = some ({ c with
      state := if env.respStart = false then .closing else
        (processStorage env (tokenizeCommand (stripCr line)) cmd).state env
      rbuf := more }, ()) := by
    intro env
    simp only [connStep, if_pos hstate, tryReadCommand_eq hrbuf hline hcmd, Option.map_some]
  constructor
  · -- a line that is not well formed is answered, and nothing is taken
    intro ht
    by_contra hbad
    let env : CommandEnv := ⟨true, true, true, false, id⟩
    obtain ⟨hw, -⟩ | ⟨-, text, hre⟩ := processStorage_cases env hcount hn
    · exact hbad hw
    have hrun := Conn.Runs.head (hp env) ⟨[], .refl⟩
    have hnew : (if env.respStart = false then ConnState.closing else
        (processStorage env (tokenizeCommand (stripCr line)) cmd).state env) = .newCmd := by
      rw [hre]
      rfl
    obtain ⟨hle, hi⟩ := ht.1 _ hrun hnew
    have hlen := congrArg List.length hi
    simp only [Conn.input, List.length_drop] at hlen
    omega
  intro hw
  have ht : ∀ env : CommandEnv, env.respStart ≠ false →
      Owing (n + 2) ((processStorage env (tokenizeCommand (stripCr line)) cmd).state env) := by
    intro env _
    obtain ⟨-, ⟨comm, he⟩ | ⟨text, he⟩⟩ | ⟨hno, -⟩ := processStorage_cases env hcount hn
    · rw [he]
      exact .nread env.chunked
    · rw [he]
      exact .swallow
    · exact absurd hw hno
  have ha : ∀ env, Owes (more ++ c.wire) n { c with
      state := if env.respStart = false then .closing else
        (processStorage env (tokenizeCommand (stripCr line)) cmd).state env
      rbuf := more } := by
    intro env
    by_cases hr : env.respStart = false
    · exact .inl (if_pos hr)
    refine .inr ⟨0, n + 2, .inl ?_, by omega, by omega, rfl⟩
    simp only [if_neg hr]
    exact ht env hr
  have hru : ∀ c', c.Runs c' → c' = c ∨ Owes (more ++ c.wire) n c' := by
    rintro c' ⟨l, hl⟩
    refine hl.induct (P := fun c' => c' = c ∨ Owes (more ++ c.wire) n c') (.inl rfl) ?_
    rintro d e d' u hd - hs
    obtain rfl | how := hd
    · have hs' : connStep d e = some (d', u) := hs
      cases e with
      | parse env =>
        rw [hp env] at hs'
        cases hs'
        exact .inr (ha env)
      | recv m => simp [connStep, recvBytes, hstate] at hs'
      | _ => simp [connStep, copyBytes, hstate] at hs'
    · exact .inr (how.step hs)
  refine ⟨fun c' hrun hnew => ?_, fun c' hrun hop hle => ?_⟩
  · obtain rfl | hc | ⟨k, owed, ho | ⟨-, rfl⟩, hk, hle, hi⟩ := hru c' hrun
    · rw [hstate] at hnew
      cases hnew
    · rw [hc] at hnew
      cases hnew
    · rw [hnew] at ho
      cases ho
    · obtain rfl : k = n + 2 := by omega
      exact ⟨hle, hi⟩
  have hg : ∀ {d : Conn}, Owes (more ++ c.wire) n d → d.state ≠ .closing →
      ∃ d', d.Runs d' ∧ d'.state = .newCmd := by
    rintro d (hc | ⟨k, owed, ho | ⟨hnew, -⟩, hk, hkl, hi⟩) hne
    · exact absurd hc hne
    · refine exists_complete ho ?_
      rw [hi, List.length_drop]
      omega
    · exact ⟨d, ⟨[], .refl⟩, hnew⟩
  obtain rfl | how := hru c' hrun
  · let env : CommandEnv := ⟨true, true, true, false, id⟩
    have ho' : (processStorage env (tokenizeCommand (stripCr line)) cmd).state env ≠
        .closing := by
      intro he
      have ho := ht env (by simp [env])
      rw [he] at ho
      cases ho
    obtain ⟨d', hd, hnew⟩ := hg (ha env) (by simpa [env] using ho')
    exact ⟨d', hd.head (hp env), hnew⟩
  · exact hg how hop

/-- A `set` of one byte whose block has arrived in part. -/
def setConn : Conn where
  state := .parseCmd
  rbuf := ascii "set k 0 0 1\r\nA"
  wire := ascii "\r\nget k\r\n"

theorem data_block_taken_setConn :
    TakesBlock setConn (ascii "A" ++ setConn.wire) 1 := by
  have hr : setConn.rbuf = ascii "set k 0 0 1\r" ++ 10 :: ascii "A" := by decide +kernel
  exact (data_block_taken_iff rfl hr (by decide +kernel)
    (show storageCommand (tokenizeCommand (stripCr (ascii "set k 0 0 1\r"))) = some .set by
      decide +kernel) (by decide +kernel) (by decide +kernel)).mpr (by decide +kernel)

/-- A `set` whose flags are not a number, with a block of nine bytes. -/
def badFlagsConn : Conn where
  state := .parseCmd
  rbuf := ascii "set k x 0 9\r\nflush_all\r\n"
  wire := []

/-- The line is answered with an error and its block is the next command line. -/
theorem data_block_parsed :
    ¬TakesBlock badFlagsConn (ascii "flush_all\r\n") 9 ∧
      ∃ env c', connStep badFlagsConn (.parse env) = some (c', ()) ∧ c'.state = .newCmd ∧
        splitLine c'.rbuf = some (ascii "flush_all\r", []) := by
  let env : CommandEnv := ⟨true, true, true, false, id⟩
  have he : ((connStep badFlagsConn (.parse env)).any fun r =>
      decide (r.1.state = .newCmd ∧ r.1.input = ascii "flush_all\r\n" ∧
        splitLine r.1.rbuf = some (ascii "flush_all\r", []))) = true := by
    decide +kernel
  obtain ⟨⟨c', u⟩, hs, hr⟩ := (Option.any_eq_true _ _).mp he
  obtain ⟨hn, hi, hl⟩ := of_decide_eq_true hr
  refine ⟨fun ht => ?_, env, c', hs, hn, hl⟩
  obtain ⟨-, hd⟩ := ht.1 c' (Conn.Runs.head hs ⟨[], .refl⟩) hn
  rw [hi] at hd
  exact absurd hd (by decide +kernel)

end Memcached.Proto
