import Memcached.Items.Commands
import Memcached.Util.Base64

/-!
# Command lines (`proto_text.c`)

`tokenize_command` cuts a command line into words at its spaces, at most
`MAX_TOKENS - 1` of them; the words are followed by a terminal token whose value is
the rest of the line, if there is one. `_meta_flag_preparse` reads the flags of the
meta commands, one word each.
-/

namespace Memcached.Proto

open Items Util

/-! ## Words -/

/-- The tokens of a command line: its words, and the value of the terminal token,
`none` for `NULL`. -/
structure Tokens where
  toks : List Bytes
  rest : Option Bytes
deriving DecidableEq

/-- `ntokens`, which counts the terminal token. -/
def Tokens.ntokens (t : Tokens) : ℕ := t.toks.length + 1

/-- `tokens[i]`, for a word of the line. -/
def Tokens.tok (t : Tokens) (i : ℕ) : Bytes := t.toks.getD i []

/-- The loop of `tokenize_command` (lines 290-321): `e` is what is left
of the line and `s` the word it is in. -/
def tokenizeLoop (maxTokens : ℕ) : (e s : Bytes) → (toks : List Bytes) → Tokens
  | [], s, toks => { toks := if s = [] then toks else toks ++ [s], rest := none }
  | c :: e, s, toks =>
    if c = 32 then
      if s = [] then tokenizeLoop maxTokens e [] toks
      else if toks.length + 1 = maxTokens - 1 then
        { toks := toks ++ [s], rest := if e = [] then none else some e }
      else tokenizeLoop maxTokens e [] (toks ++ [s])
    else tokenizeLoop maxTokens e (s ++ [c]) toks

def maxTokens : ℕ := 24

/-- `tokenize_command` (lines 283-324). The line is a C string: it ends
at its first NUL. -/
def tokenizeCommand (command : Bytes) : Tokens :=
  tokenizeLoop maxTokens (command.takeWhile (· != 0)) [] []

/-! ## Meta flags -/

/-- `EXPTIME_TO_POSITIVE_TIME` (`memcached.h`, lines 1027-1028). -/
def exptimeToPositiveTime (exptime : ℤ) : ℕ :=
  if exptime < 0 then 60 * 60 * 24 * 30 + 1 else exptime.toNat

/-- `struct _meta_flags` (lines 896-917), the fields that are read. -/
structure MetaFlags where
  hasError : Bool := false
  noUpdate : Bool := false
  locked : Bool := false
  vivify : Bool := false
  value : Bool := false
  setStale : Bool := false
  noReply : Bool := false
  hasCas : Bool := false
  newTtl : Bool := false
  keyBinary : Bool := false
  mode : UInt8 := 0
  exptime : ℕ := 0
  autovivExptime : ℕ := 0
  recacheTime : ℕ := 0
  clientFlags : ℕ := 0
  reqCasId : ℕ := 0
  delta : ℕ := 0
  initial : ℕ := 0
deriving DecidableEq

/-- What `_meta_flag_preparse` works on: the flags, the key and the error text. -/
structure Preparse where
  of : MetaFlags
  key : Bytes
  errstr : Bytes
deriving DecidableEq

/-- An error of one flag: the text is kept and the other flags are still read. -/
def Preparse.fail (p : Preparse) (errstr : Bytes) : Preparse :=
  { p with of := { p.of with hasError := true }, errstr := errstr }

/-- A flag with a number (`N`, `T`, `R`, `C`, `J`, `D` and `F`): what follows its letter. -/
def Preparse.number {α : Type} (p : Preparse) (arg : Option α) (errstr : Bytes)
    (set : MetaFlags → α → MetaFlags) : Preparse :=
  match arg with
  | none => p.fail errstr
  | some n => { p with of := set p.of n }

/-- The switch of `_meta_flag_preparse` (lines 934-1046) for one flag;
`realtime` is the function of that name at the current time, and `none` means that
the letter is unknown. -/
def Preparse.flag (realtime : ℕ → ℕ) (p : Preparse) (o : UInt8) (token : Bytes) :
    Option Preparse :=
  let arg := token.drop 1
  let badToken := ascii "CLIENT_ERROR bad token in command line format"
  match o.toNat with
  | 98 => -- b
    let key := base64Decode p.key p.key.length
    let p := if key = [] then p.fail (ascii "CLIENT_ERROR error decoding key") else p
    some { p with key := key, of := { p.of with keyBinary := true } }
  | 78 => -- N
    let p := { p with of := { p.of with locked := true, vivify := true } }
    some (p.number (safeStrtol arg) badToken fun of n =>
      { of with autovivExptime := realtime (exptimeToPositiveTime n) })
  | 84 => -- T
    let p := { p with of := { p.of with locked := true } }
    some (p.number (safeStrtol arg) badToken fun of n =>
      { of with exptime := realtime (exptimeToPositiveTime n), newTtl := true })
  | 82 => -- R
    let p := { p with of := { p.of with locked := true } }
    some (p.number (safeStrtol arg) badToken fun of n =>
      { of with recacheTime := realtime (exptimeToPositiveTime n) })
  | 108 | 104 => some { p with of := { p.of with locked := true } } -- l, h
  | 79 | 80 | 76 => some p -- O, P, L
  | 107 | 115 | 116 | 99 | 102 => some p -- k, s, t, c, f
  | 118 => some { p with of := { p.of with value := true } } -- v
  | 117 => some { p with of := { p.of with noUpdate := true } } -- u
  | 113 => some { p with of := { p.of with noReply := true } } -- q
  | 70 => -- F: the only number whose error has no text of its own
    some (p.number (safeStrtoul arg) p.errstr fun of n => { of with clientFlags := n })
  | 67 => -- C
    some (p.number (safeStrtoull arg) badToken fun of n =>
      { of with reqCasId := n, hasCas := true })
  | 77 => -- M
    if token.length ≠ 2 then some (p.fail (ascii "CLIENT_ERROR incorrect length for M token"))
    else some { p with of := { p.of with mode := arg.headD 0 } }
  | 74 => -- J
    some (p.number (safeStrtoull arg) (ascii "CLIENT_ERROR invalid numeric initial value")
      fun of n => { of with initial := n })
  | 68 => -- D
    some (p.number (safeStrtoull arg) (ascii "CLIENT_ERROR invalid numeric delta value")
      fun of n => { of with delta := n })
  | 73 => some { p with of := { p.of with setStale := true } } -- I
  | _ => none

/-- The loop of `_meta_flag_preparse` (lines 926-1047); `seen` are the
letters so far. The result is the flags and the key, or the error text. -/
def preparseLoop (realtime : ℕ → ℕ) :
    List Bytes → List UInt8 → Preparse → Except Bytes (MetaFlags × Bytes)
  | [], _, p => if p.of.hasError then .error p.errstr else .ok (p.of, p.key)
  | token :: tokens, seen, p =>
    let o := token.headD 0
    if o ≥ 127 ∨ o ∈ seen then .error (ascii "CLIENT_ERROR duplicate flag")
    else
      match p.flag realtime o token with
      | none => .error (ascii "CLIENT_ERROR invalid flag")
      | some p => preparseLoop realtime tokens (o :: seen) p

/-- `_meta_flag_preparse` (lines 919-1050): the flags start at token
`start`, the key is token 1. -/
def metaFlagPreparse (realtime : ℕ → ℕ) (t : Tokens) (start : ℕ) (of : MetaFlags) :
    Except Bytes (MetaFlags × Bytes) :=
  preparseLoop realtime (t.toks.drop start) []
    { of := of, key := t.tok 1, errstr := ascii "CLIENT_ERROR bad command line format" }

/-! ## The words of a line -/

/-- The words of a line: what stands between its spaces, without the empty ones. -/
def words (line : Bytes) : List Bytes := (line.splitOn 32).filter (· ≠ [])

theorem no_space {s : Bytes} (hs : 32 ∉ s) : ∀ x ∈ s, (x == 32) = false := fun _ hx =>
  beq_false_of_ne (ne_of_mem_of_not_mem hx hs)

theorem words_append {s : Bytes} (hs : 32 ∉ s) (e : Bytes) :
    words (s ++ 32 :: e) = (if s = [] then [] else [s]) ++ words e := by
  rw [words, List.splitOn, List.splitOnP_append_cons_of_forall_mem (no_space hs) 32 rfl,
    List.filter_cons]
  by_cases h : s = [] <;> simp [h, words, List.splitOn]

theorem words_of_not_mem {s : Bytes} (hs : 32 ∉ s) : words s = if s = [] then [] else [s] := by
  rw [words, List.splitOn, List.splitOnP_eq_singleton (no_space hs)]
  by_cases h : s = [] <;> simp [h]

/-- The loop in the word `s`, with `e` behind it and room for `k + 1` words. -/
theorem tokenizeLoop_words {m k : ℕ} {e s : Bytes} {toks : List Bytes} (hs : 32 ∉ s)
    (hk : toks.length + k + 2 = m) :
    let t := tokenizeLoop m e s toks
    t.toks = toks ++ (words (s ++ e)).take (k + 1) ∧
      words (t.rest.getD []) = (words (s ++ e)).drop (k + 1) ∧ t.rest.getD [] <:+ e.tail := by
  induction e generalizing s toks k with
  | nil =>
    rw [List.append_nil, words_of_not_mem hs, tokenizeLoop]
    by_cases h : s = [] <;> simp [h, words]
  | cons c e ih =>
    rw [tokenizeLoop, List.tail_cons]
    by_cases hc : c = 32
    · subst hc
      rw [if_pos rfl, words_append hs]
      by_cases h : s = []
      · subst h
        obtain ⟨ht, hr, he⟩ := ih hs hk
        exact ⟨ht, hr, he.trans (List.tail_suffix e)⟩
      rw [if_neg h, if_neg h]
      by_cases hl : toks.length + 1 = m - 1
      · obtain rfl : k = 0 := by omega
        rw [if_pos hl]
        by_cases he : e = [] <;> simp [he]
      obtain ⟨k, rfl⟩ : ∃ j, k = j + 1 := ⟨k - 1, by omega⟩
      obtain ⟨ht, hr, he⟩ := @ih k [] (toks ++ [s]) (by simp) (by simp; omega)
      simpa [hl, ht, hr] using he.trans (List.tail_suffix e)
    · obtain ⟨ht, hr, he⟩ := @ih k (s ++ [c]) toks (by simp [hs, Ne.symm hc]) hk
      simpa [hc, ht, hr] using he.trans (List.tail_suffix e)

/-- A read buffer without a line end for which the connection is closed
(lines 342-350 and 446-460). -/
def closesOn (authenticated : Bool) (rbuf : Bytes) : Bool :=
  let ptr := rbuf.dropWhile (· = 32)
  decide (10 ∉ rbuf) && decide (2048 < rbuf.length) &&
    (!authenticated || decide (rbuf.length - ptr.length > 100) ||
      !((ascii "get ").isPrefixOf ptr || (ascii "gets ").isPrefixOf ptr))

end Memcached.Proto
