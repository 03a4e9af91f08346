import Memcached.Proto.Tokens

/-!
# Authentication of text connections (`proto_text.c`, `authfile.c`)

When an auth file is configured, a new text connection is served by
`try_read_command_asciiauth`, which takes a `set` line and its data block, and hands over to
the ordinary parser when the block holds a user and a password of the file. The length of
the block is kept in an `int`: from `2^31 - 2` on it is negative, and the user and the
password are read behind the bytes received, where another connection's may still be.

Results:
* `gate_holds`: no command is served before a login, if the lengths fit into an `int`
-/

namespace Memcached.Text.Auth

open Lib Util Proto
open Function (update update_of_ne)

/-! ## Memory -/

def readBufferSize : ℕ := 16384

abbrev Mem := ℕ → UInt8

/-- `n` bytes from the address `a` on. -/
def region (mem : Mem) (a n : ℕ) : Bytes := (List.range n).map fun i => mem (a + i)

/-- An address in the buffer; what other accesses do is not defined. -/
def addr (a : ℤ) : Option ℕ := if 0 ≤ a ∧ a < readBufferSize then some a.toNat else none

def readAt (mem : Mem) (a : ℤ) : Option UInt8 := (addr a).map mem

def writeAt (mem : Mem) (a : ℤ) (b : UInt8) : Option Mem :=
  (addr a).map fun a => update mem a b

/-- The string at an address, up to its NUL; `none` if there is none in the buffer. -/
def cstring (mem : Mem) : (fuel a : ℕ) → Option Bytes
  | 0, _ => none
  | fuel + 1, a => if mem a = 0 then some [] else (cstring mem fuel (a + 1)).map (mem a :: ·)

/-- `strncmp(a, "\r\n", 2) == 0` -/
def endsAt (mem : Mem) (a : ℤ) : Option Bool :=
  (readAt mem a).bind fun b =>
    if b ≠ 13 then some false else (readAt mem (a + 1)).map fun b' => b' == 10

/-- What `tokenize_command` writes: the space behind each word becomes a NUL (`proto_text.c`,
line 297). -/
def markTokens (mem : Mem) : (a : ℕ) → Bytes → (inWord : Bool) → (ntokens : ℕ) → Mem
  | _, [], _, _ => mem
  | a, c :: e, inWord, ntokens =>
    if c = 32 then
      if inWord then
        if ntokens + 1 = maxTokens - 1 then update mem a 0
        else markTokens (update mem a 0) (a + 1) e false (ntokens + 1)
      else markTokens mem (a + 1) e false ntokens
    else markTokens mem (a + 1) e true ntokens

/-! ## Connections -/

inductive Parser where
  | asciiauth
  | ascii
deriving DecidableEq

/-- `conn`, what the authentication reads of it, as `conn_new` leaves it (`memcached.c`, lines
899-960); `rcurr` is an offset into the buffer. The bytes received are collected. -/
structure AuthConn where
  mem : Mem
  rcurr : ℤ := 0
  rbytes : ℤ := 0
  rlbytes : ℤ := 0
  saslStarted : Bool := false
  tryRead : Parser := .asciiauth
  authenticated : Bool := false
  closing : Bool := false
  received : Bytes := []

/-- What a call of `try_read_command` leads to. -/
inductive Out where
  | wait
  | closed
  | reply (text : Bytes)
  | command (line : Bytes)
deriving DecidableEq

/-- `main_auth_entries`: users and passwords. -/
abbrev Entries := List (Bytes × Bytes)

/-- `authfile_check` (`authfile.c`, lines 112-126). -/
def authfileCheck (entries : Entries) (user pass : Bytes) : Bool :=
  entries.any fun e => user == e.1 && pass == e.2

def AuthConn.InBuffer (c : AuthConn) : Prop :=
  0 ≤ c.rcurr ∧ 0 ≤ c.rbytes ∧ c.rcurr + c.rbytes ≤ readBufferSize

instance (c : AuthConn) : Decidable c.InBuffer := inferInstanceAs (Decidable (_ ∧ _ ∧ _))

def AuthConn.unread (c : AuthConn) : Bytes := region c.mem c.rcurr.toNat c.rbytes.toNat

/-- The length that a `set` line declares (lines 364-366). -/
def declaredSize (t : Tokens) : Option ℕ :=
  if t.ntokens < 6 ∨ t.tok 0 ≠ ascii "set" then none else safeStrtoul (t.tok 4)

/-- The line is taken from the buffer: its end becomes a NUL, and so do the ends of its
words. -/
def AuthConn.takeLine (c : AuthConn) (i : ℕ) : AuthConn :=
  let a := c.rcurr.toNat
  { c with
    mem := markTokens (update c.mem (a + i) 0) a
      ((c.unread.take i).takeWhile (· != 0)) false 0
    rbytes := c.rbytes - (i + 1)
    rcurr := c.rcurr + (i + 1) }

/-- The first part of `try_read_command_asciiauth` (lines 332-381): an answer,
or the connection that waits for its data block. -/
def readLine (respOk : Bool) (c : AuthConn) : Option ((AuthConn × Out) ⊕ AuthConn) :=
  if c.rbytes < 2 then some (.inl (c, .wait))
  else if ¬c.InBuffer then none
  else
    match c.unread.findIdx? (· == 10) with
    | none =>
      some (.inl (if 2048 < c.rbytes then ({ c with closing := true }, .closed) else (c, .wait)))
    | some i =>
      match declaredSize (tokenizeCommand (c.unread.take i)) with
      | none =>
        some (.inl (if respOk then (c.takeLine i, .reply (ascii "CLIENT_ERROR unauthenticated"))
          else ({ c.takeLine i with closing := true }, .closed)))
      | some size =>
        some (.inr { c.takeLine i with rlbytes := toInt32 (size + 2), saslStarted := true })

/-- What is said to a data block that ends as it should (lines 411-433). -/
def checkBlock (entries : Entries) (c : AuthConn) (t : Tokens) : AuthConn × Out :=
  if t.ntokens < 3 then (c, .reply (ascii "CLIENT_ERROR bad authentication token format"))
  else if authfileCheck entries (t.tok 0) (t.tok 1) then
    ({ c with authenticated := true, tryRead := .ascii }, .reply (ascii "STORED"))
  else (c, .reply (ascii "CLIENT_ERROR authentication failure"))

/-- The second part of `try_read_command_asciiauth` (lines 383-436). -/
def readBlock (entries : Entries) (respOk : Bool) (c : AuthConn) : Option (AuthConn × Out) :=
  if c.rbytes < c.rlbytes then some (c, .wait)
  else if !respOk then some ({ c with closing := true }, .closed)
  else
    let cont := c.rcurr
    let c := { c with
      rbytes := c.rbytes - c.rlbytes, rcurr := c.rcurr + c.rlbytes, saslStarted := false }
    (endsAt c.mem (cont + c.rlbytes - 2)).bind fun ends =>
      if !ends then
        some (c, .reply (ascii "CLIENT_ERROR bad command line termination"))
      else
        (writeAt c.mem (cont + c.rlbytes - 2) 0).bind fun mem =>
          (addr cont).bind fun a =>
            (cstring mem (readBufferSize - a) a).map fun str =>
              checkBlock entries { c with mem := markTokens mem a str false 0 }
                (tokenizeCommand str)

/-- `try_read_command_asciiauth` (lines 326-436). -/
def tryReadCommandAsciiauth (entries : Entries) (respOk : Bool) (c : AuthConn) :
    Option (AuthConn × Out) :=
  if c.saslStarted then readBlock entries respOk c
  else
    (readLine respOk c).bind fun r =>
      match r with
      | .inl answer => some answer
      | .inr c => readBlock entries respOk c

/-- `try_read_command_ascii` (lines 438-494): a line is executed. The larger buffer of a long
`get` is not modelled. -/
def tryReadCommandAscii (c : AuthConn) : Option (AuthConn × Out) :=
  if c.rbytes = 0 then some (c, .wait)
  else if ¬c.InBuffer then none
  else
    match c.unread.findIdx? (· == 10) with
    | none =>
      some (if closesOn true c.unread then ({ c with closing := true }, .closed) else (c, .wait))
    | some i =>
      let line := c.unread.take i
      let line := if 1 < i ∧ line.getLast? = some 13 then line.dropLast else line
      some ({ c with
        mem := update c.mem (c.rcurr.toNat + line.length) 0
        rbytes := c.rbytes - (i + 1)
        rcurr := c.rcurr + (i + 1) }, .command line)

/-- The buffer after `try_read_network` moved the unread bytes to its start and read `x`
(`memcached.c`, lines 2613-2675). -/
def received (c : AuthConn) (x : Bytes) : Mem := fun i =>
  if i < c.rbytes.toNat then c.mem (c.rcurr.toNat + i)
  else if i < c.rbytes.toNat + x.length then x.getD (i - c.rbytes.toNat) 0
  else c.mem i

inductive Event where
  /-- `conn_parse_cmd`; the auth file may have been loaded anew in the meantime. -/
  | parse (entries : Entries) (respOk : Bool)
  | recv (x : Bytes)
  /-- The empty buffer is given back, and another one taken (`rbuf_release`, `rbuf_alloc`). -/
  | swap (mem : Mem)
  | hangup

def step (c : AuthConn) : Event → Option (AuthConn × Out)
  | .parse entries respOk =>
    if c.closing then none
    else
      match c.tryRead with
      | .asciiauth => tryReadCommandAsciiauth entries respOk c
      | .ascii => tryReadCommandAscii c
  | .recv x =>
    if c.InBuffer ∧ c.rbytes + x.length ≤ readBufferSize then
      some ({ c with
        mem := received c x, rcurr := 0, rbytes := c.rbytes + x.length
        received := c.received ++ x }, .wait)
    else none
  | .swap mem => if c.rbytes = 0 then some ({ c with mem := mem, rcurr := 0 }, .wait) else none
  | .hangup => some ({ c with closing := true }, .closed)

/-- The text connections made while an auth file is configured: the read buffer holds what it
was last used for. -/
def connections : System AuthConn Event Out where
  init c := c = { mem := c.mem }
  step := step

/-- The length that the line that is read next declares. -/
def AuthConn.declared (c : AuthConn) : Option ℕ :=
  if c.tryRead = .asciiauth ∧ c.saslStarted = false then
    (c.unread.findIdx? (· == 10)).bind fun i => declaredSize (tokenizeCommand (c.unread.take i))
  else none

/-- The declared length and that of the line end fit into an `int`. -/
def lengthFits (c : AuthConn) : Event → Prop
  | .parse _ _ => ∀ size ∈ c.declared, size + 2 < 2 ^ 31
  | _ => True

/-- Every event may happen, with any length. -/
def anyEvent (_ : AuthConn) (_ : Event) : Prop := True

/-! ## Regions of the buffer -/

section Regions

variable {mem mem' : Mem} {a n : ℕ}

@[simp] theorem length_region : (region mem a n).length = n := by
  simp [region]

theorem region_add (m : ℕ) : region mem a (n + m) = region mem a n ++ region mem (a + n) m := by
  simp only [region, List.range_add, List.map_append, List.map_map, Nat.add_assoc]
  rfl

theorem region_congr (h : ∀ i < n, mem' (a + i) = mem (a + i)) : region mem' a n = region mem a n :=
  List.map_congr_left fun i hi => h i (List.mem_range.mp hi)

theorem region_succ : region mem a (n + 1) = mem a :: region mem (a + 1) n := by
  rw [Nat.add_comm n 1, region_add]
  rfl

theorem markTokens_of_outside {str : Bytes} {inWord : Bool} {k b : ℕ}
    (h : b < a ∨ a + str.length ≤ b) : markTokens mem a str inWord k b = mem b := by
  induction str generalizing mem a inWord k with
  | nil => rfl
  | cons c e ih =>
    rw [List.length_cons] at h
    have hr : b < a + 1 ∨ a + 1 + e.length ≤ b := by omega
    have hn : b ≠ a := by omega
    unfold markTokens
    split_ifs
    · exact update_of_ne hn _ _
    · rw [ih hr, update_of_ne hn]
    · exact ih hr
    · exact ih hr

theorem cstring_region {fuel : ℕ} (hn : mem (a + n) = 0) (hf : n < fuel) :
    cstring mem fuel a = some ((region mem a n).takeWhile (· != 0)) := by
  induction n generalizing a fuel with
  | zero =>
    obtain ⟨fuel, rfl⟩ := Nat.exists_eq_add_one_of_ne_zero (by omega : fuel ≠ 0)
    rw [cstring, if_pos (by simpa using hn)]
    rfl
  | succ n ih =>
    obtain ⟨fuel, rfl⟩ := Nat.exists_eq_add_one_of_ne_zero (by omega : fuel ≠ 0)
    rw [cstring, region_succ]
    split_ifs with hz
    · rw [List.takeWhile_cons_of_neg (by simp [hz])]
    rw [ih (by rw [← hn]; congr 1; omega) (by omega),
      List.takeWhile_cons_of_pos (by simpa using hz)]
    rfl

end Regions

/-! ## Words of a block -/

/-- The words stand in the string, one after the other. -/
def Words : Bytes → List Bytes → Prop
  | _, [] => True
  | str, w :: ws => ∃ x rest, str = x ++ w ++ rest ∧ Words rest ws

theorem Words.append_left {str : Bytes} {ws : List Bytes} (h : Words str ws) (y : Bytes) :
    Words (y ++ str) ws := by
  cases ws with
  | nil => trivial
  | cons w ws =>
    obtain ⟨x, rest, rfl, hr⟩ := h
    exact ⟨y ++ x, rest, by simp, hr⟩

theorem Words.append_right {str : Bytes} {ws : List Bytes} (h : Words str ws) (y : Bytes) :
    Words (str ++ y) ws := by
  induction ws generalizing str with
  | nil => trivial
  | cons w ws ih =>
    obtain ⟨x, rest, rfl, hr⟩ := h
    exact ⟨x, rest ++ y, by simp, ih hr⟩

theorem tokenizeLoop_words (m : ℕ) (e s : Bytes) (toks : List Bytes) :
    ∃ ws, (tokenizeLoop m e s toks).toks = toks ++ ws ∧ Words (s ++ e) ws := by
  induction e generalizing s toks with
  | nil =>
    rw [tokenizeLoop]
    split_ifs with hs
    · exact ⟨[], by simp, trivial⟩
    · exact ⟨[s], rfl, [], [], by simp, trivial⟩
  | cons c e ih =>
    rw [tokenizeLoop]
    split_ifs with hsp hs hl
    · obtain ⟨ws, ht, hw⟩ := ih [] toks
      rw [hs]
      exact ⟨ws, ht, hw.append_left [c]⟩
    · exact ⟨[s], rfl, [], c :: e, by simp, trivial⟩
    · exact ⟨[s], rfl, [], c :: e, by simp, trivial⟩
    · obtain ⟨ws, ht, hw⟩ := ih [] (toks ++ [s])
      refine ⟨s :: ws, by rw [ht]; simp, [], c :: e, by simp, ?_⟩
      exact hw.append_left [c]
    · obtain ⟨ws, ht, hw⟩ := ih (s ++ [c]) toks
      exact ⟨ws, ht, by simpa using hw⟩

theorem tokenizeCommand_words (str : Bytes) : Words str (tokenizeCommand str).toks := by
  obtain ⟨ws, ht, hw⟩ := tokenizeLoop_words maxTokens (str.takeWhile (· != 0)) [] []
  have h := hw.append_right (str.dropWhile (· != 0))
  rw [List.nil_append, List.takeWhile_append_dropWhile] at h
  rw [tokenizeCommand, ht, List.nil_append]
  exact h

/-- The user and the password were sent on the connection. -/
def SentOn (c : AuthConn) (user pass : Bytes) : Prop := Words c.received [user, pass]

/-! ## The gate -/

variable {c c' : AuthConn} {entries : Entries} {respOk : Bool} {out : Out}

/-- As long as the lengths fit, the unread bytes are the last ones that were received. -/
structure Good (c : AuthConn) : Prop where
  inBuffer : c.InBuffer
  block : c.saslStarted = true → 2 ≤ c.rlbytes
  unread : ∃ done, c.received = done ++ c.unread

theorem Good.taken (h : Good c) {n : ℕ} (hn : (n : ℤ) ≤ c.rbytes)
    (hm : ∀ b, c.rcurr.toNat + n ≤ b → c'.mem b = c.mem b)
    (hrc : c'.rcurr = c.rcurr + n) (hrb : c'.rbytes = c.rbytes - n)
    (hr : c'.received = c.received) (hb : c'.saslStarted = true → 2 ≤ c'.rlbytes) :
    Good c' := by
  obtain ⟨h1, h2, h3⟩ := h.inBuffer
  refine ⟨⟨by omega, by omega, by omega⟩, hb, ?_⟩
  obtain ⟨done, hd⟩ := h.unread
  refine ⟨done ++ region c.mem c.rcurr.toNat n, ?_⟩
  have hl : c.rbytes.toNat = n + c'.rbytes.toNat := by omega
  have ha : c'.rcurr.toNat = c.rcurr.toNat + n := by omega
  have hre : c'.unread = region c.mem (c.rcurr.toNat + n) c'.rbytes.toNat := by
    rw [AuthConn.unread, ha]
    exact region_congr fun i _ => hm _ (by omega)
  rw [hr, hd, hre, AuthConn.unread, hl, region_add, List.append_assoc]

theorem length_unread (c : AuthConn) : c.unread.length = c.rbytes.toNat := length_region

theorem Good.takeLine (h : Good c) {i : ℕ} (hi : c.unread.findIdx? (· == 10) = some i)
    {rlbytes : ℤ} {started closing : Bool} (hbl : started = true → 2 ≤ rlbytes) :
    Good { c.takeLine i with rlbytes := rlbytes, saslStarted := started, closing := closing } := by
  obtain ⟨hl, -⟩ := List.findIdx?_eq_some_iff_findIdx_eq.mp hi
  rw [length_unread] at hl
  have hle : ((c.unread.take i).takeWhile (· != 0)).length ≤ i := by
    refine (List.takeWhile_prefix _).length_le.trans ?_
    rw [List.length_take]
    exact min_le_left _ _
  refine h.taken (n := i + 1) (by omega) (fun b hb => ?_) ?_ ?_ rfl hbl
  · show markTokens _ _ _ _ _ b = _
    rw [markTokens_of_outside (.inr (by omega)), update_of_ne (by omega)]
  · show c.rcurr + (i + 1) = _
    push_cast
    ring
  · show c.rbytes - (i + 1) = _
    push_cast
    ring

variable (respOk) in
theorem readLine_good (h : Good c) (hfi : ∀ i size, c.unread.findIdx? (· == 10) = some i →
      declaredSize (tokenizeCommand (c.unread.take i)) = some size → size + 2 < 2 ^ 31) :
    (∃ c' out, readLine respOk c = some (.inl (c', out)) ∧ Good c' ∧ c'.tryRead = c.tryRead ∧
        c'.received = c.received ∧ ∀ line, out ≠ .command line) ∨
      ∃ c', readLine respOk c = some (.inr c') ∧ Good c' ∧ c'.tryRead = c.tryRead ∧
        c'.received = c.received ∧ c'.saslStarted = true := by
  unfold readLine
  by_cases hs : c.rbytes < 2
  · rw [if_pos hs]
    exact .inl ⟨c, .wait, rfl, h, rfl, rfl, nofun⟩
  rw [if_neg hs, if_neg (not_not.mpr h.inBuffer)]
  cases hf : c.unread.findIdx? (· == 10) with
  | none =>
    refine .inl ?_
    by_cases hl : 2048 < c.rbytes
    · exact ⟨{ c with closing := true }, .closed, by simp only [if_pos hl],
        ⟨h.inBuffer, h.block, h.unread⟩, rfl, rfl, nofun⟩
    · exact ⟨c, .wait, by simp only [if_neg hl], h, rfl, rfl, nofun⟩
  | some i =>
    simp only
    cases hsi : declaredSize (tokenizeCommand (c.unread.take i)) with
    | none =>
      refine .inl ?_
      have hb : c.saslStarted = true → 2 ≤ c.rlbytes := h.block
      cases respOk with
      | true => exact ⟨_, _, rfl, h.takeLine hf hb, rfl, rfl, nofun⟩
      | false => exact ⟨_, _, rfl, h.takeLine hf hb, rfl, rfl, nofun⟩
    | some size =>
      have hlt := hfi i size hf hsi
      refine .inr ⟨_, rfl, h.takeLine hf fun _ => ?_, rfl, rfl, rfl⟩
      unfold toInt32
      omega

theorem checkBlock_spec {t : Tokens} (h : checkBlock entries c t = (c', out)) :
    (c' = c ∧ (∀ line, out ≠ .command line)) ∨
      (c' = { c with authenticated := true, tryRead := .ascii } ∧
        out = .reply (ascii "STORED") ∧
        ∃ user pass ws, t.toks = user :: pass :: ws ∧ authfileCheck entries user pass = true) := by
  unfold checkBlock at h
  split_ifs at h with hs hc
  · obtain ⟨rfl, rfl⟩ := Prod.mk.inj h
    exact .inl ⟨rfl, nofun⟩
  · obtain ⟨rfl, rfl⟩ := Prod.mk.inj h
    obtain ⟨toks, rest⟩ := t
    match toks, hs, hc with
    | [], hs, _ => exact absurd (by simp [Tokens.ntokens]) hs
    | [_], hs, _ => exact absurd (by simp [Tokens.ntokens]) hs
    | user :: pass :: ws, _, hc => exact .inr ⟨rfl, rfl, user, pass, ws, rfl, hc⟩
  · obtain ⟨rfl, rfl⟩ := Prod.mk.inj h
    exact .inl ⟨rfl, nofun⟩

/-- One call leaves the gate closed and the connection good, or accepts a user and a password
that were received. -/
inductive Gated (entries : Entries) (c c' : AuthConn) (out : Out) : Prop where
  | shut (good : Good c') (tryRead : c'.tryRead = c.tryRead)
      (no_command : ∀ line, out ≠ .command line)
  | accepted (user pass : Bytes) (check : authfileCheck entries user pass = true)
      (sent : SentOn c' user pass) (stored : out = .reply (ascii "STORED"))
      (tryRead : c'.tryRead = .ascii)

theorem addr_of_lt {a : ℤ} (h0 : 0 ≤ a) (h : a < readBufferSize) : addr a = some a.toNat :=
  if_pos ⟨h0, h⟩

theorem block_string {mem mem' : Mem} (h : Good c) (hs : c.saslStarted = true)
    (hlen : c.rlbytes ≤ c.rbytes) {str : Bytes} {a : ℕ}
    (hw : writeAt mem (c.rcurr + c.rlbytes - 2) 0 = some mem') (ha : addr c.rcurr = some a)
    (hm : mem = c.mem) (hst : cstring mem' (readBufferSize - a) a = some str) :
    a = c.rcurr.toNat ∧ str.length + 2 ≤ c.rlbytes.toNat ∧ Words c.received
      (tokenizeCommand str).toks ∧ ∀ b, a + c.rlbytes.toNat ≤ b → mem' b = c.mem b := by
  subst hm
  have hbl := h.block hs
  obtain ⟨h1, h2, h3⟩ := h.inBuffer
  have had : a = c.rcurr.toNat := by
    rw [addr_of_lt h1 (by omega)] at ha
    exact (Option.some.inj ha).symm
  have he : mem' = update c.mem (a + (c.rlbytes.toNat - 2)) 0 := by
    rw [writeAt, addr_of_lt (by omega) (by omega)] at hw
    rw [← Option.some.inj hw]
    congr 1
    omega
  have hr : region mem' a (c.rlbytes.toNat - 2) = region c.mem a (c.rlbytes.toNat - 2) := by
    rw [he]
    exact region_congr fun i hi => update_of_ne (by omega) _ _
  have hn : mem' (a + (c.rlbytes.toNat - 2)) = 0 := by rw [he, Function.update_self]
  rw [cstring_region hn (by omega), hr] at hst
  obtain rfl := (Option.some.inj hst).symm
  refine ⟨had, ?_, ?_, fun b hb => ?_⟩
  · have hl := (List.takeWhile_prefix (l := region c.mem a (c.rlbytes.toNat - 2))
      (· != (0 : UInt8))).length_le
    rw [length_region] at hl
    omega
  · obtain ⟨done, hd⟩ := h.unread
    have hsp : c.rbytes.toNat =
        (c.rlbytes.toNat - 2) + (c.rbytes.toNat - (c.rlbytes.toNat - 2)) :=
      by omega
    have hwo := tokenizeCommand_words
      ((region c.mem a (c.rlbytes.toNat - 2)).takeWhile (· != 0))
    have hal := hwo.append_right ((region c.mem a (c.rlbytes.toNat - 2)).dropWhile (· != 0))
    rw [List.takeWhile_append_dropWhile] at hal
    rw [hd, AuthConn.unread, hsp, region_add, ← had]
    exact (hal.append_right _).append_left done
  · rw [he, update_of_ne (by omega)]

theorem readBlock_gated (h : Good c) (hs : c.saslStarted = true)
    (hc : readBlock entries respOk c = some (c', out)) :
    Gated entries c c' out ∧ c'.received = c.received := by
  unfold readBlock at hc
  split_ifs at hc with hsh hr
  · cases hc
    exact ⟨.shut h rfl nofun, rfl⟩
  · cases hc
    exact ⟨.shut ⟨h.inBuffer, h.block, h.unread⟩ rfl nofun, rfl⟩
  have hbl := h.block hs
  obtain ⟨h1, h2, h3⟩ := h.inBuffer
  have hn : ((c.rlbytes.toNat : ℕ) : ℤ) = c.rlbytes := Int.toNat_of_nonneg (by omega)
  obtain ⟨ends, he, hc⟩ := Option.bind_eq_some_iff.mp hc
  split_ifs at hc with hba
  · cases hc
    exact ⟨.shut (h.taken (n := c.rlbytes.toNat) (by omega) (fun _ _ => rfl) (by rw [hn])
      (by rw [hn]) rfl nofun) rfl nofun, rfl⟩
  obtain ⟨mem, hwr, hc⟩ := Option.bind_eq_some_iff.mp hc
  obtain ⟨a, ha, hc⟩ := Option.bind_eq_some_iff.mp hc
  obtain ⟨str, hst, hch⟩ := Option.map_eq_some_iff.mp hc
  obtain ⟨had, hl, hw, hm⟩ :=
    block_string h hs (not_lt.mp hsh) hwr ha rfl hst
  obtain ⟨rfl, ho⟩ | ⟨rfl, rfl, user, pass, ws, ht, hok⟩ := checkBlock_spec hch
  · refine ⟨.shut (h.taken (n := c.rlbytes.toNat) (by omega) (fun b hb => ?_) (by rw [hn])
      (by rw [hn]) rfl nofun) rfl ho, rfl⟩
    show markTokens mem a str false 0 b = _
    rw [markTokens_of_outside (.inr (by omega)), hm b (by omega)]
  · rw [ht] at hw
    obtain ⟨x, rest, hx, y, rest', hy, -⟩ := hw
    exact ⟨.accepted user pass hok ⟨x, rest, hx, y, rest', hy, trivial⟩ rfl rfl, rfl⟩

theorem tryReadCommandAsciiauth_gated (h : Good c) (ht : c.tryRead = .asciiauth)
    (hf : lengthFits c (.parse entries respOk))
    (hc : tryReadCommandAsciiauth entries respOk c = some (c', out)) :
    Gated entries c c' out ∧ c'.received = c.received := by
  unfold tryReadCommandAsciiauth at hc
  split_ifs at hc with hs
  · exact readBlock_gated h hs hc
  have hs : c.saslStarted = false := by simpa using hs
  have hl : ∀ i size, c.unread.findIdx? (· == 10) = some i →
      declaredSize (tokenizeCommand (c.unread.take i)) = some size → size + 2 < 2 ^ 31 := by
    intro i size hi hsi
    refine hf size ?_
    rw [Option.mem_def, AuthConn.declared, if_pos ⟨ht, hs⟩, hi]
    exact hsi
  rcases readLine_good respOk h hl with
    ⟨d, o, hl, hg, ht', hr, ho⟩ | ⟨d, hl, hg, ht', hr, hd⟩
  · rw [hl, Option.bind_some] at hc
    cases hc
    exact ⟨.shut hg ht' ho, hr⟩
  rw [hl, Option.bind_some] at hc
  obtain ⟨hga, hre⟩ := readBlock_gated hg hd hc
  refine ⟨?_, hre.trans hr⟩
  cases hga with
  | shut good tryRead no_command => exact .shut good (tryRead.trans ht') no_command
  | accepted user pass check sent stored tryRead =>
    exact .accepted user pass check sent stored tryRead

theorem recv_good (h : Good c) {x : Bytes} (hx : c.rbytes + x.length ≤ readBufferSize) :
    Good { c with
      mem := received c x, rcurr := 0, rbytes := c.rbytes + x.length
      received := c.received ++ x } := by
  obtain ⟨h1, h2, h3⟩ := h.inBuffer
  refine ⟨⟨le_refl _, by show 0 ≤ c.rbytes + x.length; omega, by simpa using hx⟩, h.block, ?_⟩
  obtain ⟨done, hd⟩ := h.unread
  refine ⟨done, ?_⟩
  show c.received ++ x = done ++ region (received c x) 0 (c.rbytes + x.length).toNat
  have hl : (c.rbytes + x.length).toNat = c.rbytes.toNat + x.length := by omega
  have ho : region (received c x) 0 c.rbytes.toNat = c.unread := by
    refine List.map_congr_left fun i hi => ?_
    rw [Nat.zero_add, received, if_pos (List.mem_range.mp hi)]
  have hn : region (received c x) (0 + c.rbytes.toNat) x.length = x := by
    refine List.ext_getElem (by simp) fun i hi hi' => ?_
    rw [length_region] at hi
    simp only [region, List.getElem_map, List.getElem_range, received]
    rw [if_neg (by omega), if_pos (by omega)]
    simp [hi]
  rw [hd, hl, region_add, ho, hn, List.append_assoc]

theorem tryReadCommandAscii_spec (h : tryReadCommandAscii c = some (c', out)) :
    c'.tryRead = c.tryRead ∧ c'.received = c.received := by
  unfold tryReadCommandAscii at h
  split_ifs at h
  · cases h
    exact ⟨rfl, rfl⟩
  all_goals split at h <;> cases h <;> exact ⟨rfl, rfl⟩

/-- A user and a password that were received were accepted in the run. -/
def Accepted (l : List (Event × Out)) (c : AuthConn) : Prop :=
  ∃ entries respOk user pass, (Event.parse entries respOk, Out.reply (ascii "STORED")) ∈ l ∧
    authfileCheck entries user pass = true ∧ SentOn c user pass

variable {l : List (Event × Out)}

theorem Accepted.mono (h : Accepted l c) (x : Event × Out) {y : Bytes}
    (hr : c'.received = c.received ++ y) : Accepted (l ++ [x]) c' := by
  obtain ⟨entries, respOk, user, pass, hm, hc, hs⟩ := h
  refine ⟨entries, respOk, user, pass, List.mem_append_left _ hm, hc, ?_⟩
  rw [SentOn, hr]
  exact hs.append_right y

/-- A connection whose gate is shut is good, and one whose gate is open was let in. -/
def GateInv (l : List (Event × Out)) (c : AuthConn) : Prop :=
  (c.tryRead = .asciiauth ∧ Good c) ∨ (c.tryRead = .ascii ∧ Accepted l c)

theorem step_gateInv {e : Event} (h : GateInv l c)
    (hf : lengthFits c e) (hs : step c e = some (c', out)) :
    GateInv (l ++ [(e, out)]) c' := by
  cases e with
  | parse entries respOk =>
    simp only [step] at hs
    split_ifs at hs with hc
    obtain ⟨ht, hg⟩ | ⟨ht, ha⟩ := h
    · rw [ht] at hs
      obtain ⟨hga, hr⟩ := tryReadCommandAsciiauth_gated hg ht hf hs
      cases hga with
      | shut good tryRead no_command => exact .inl ⟨tryRead.trans ht, good⟩
      | accepted user pass check sent stored tryRead =>
        subst stored
        exact .inr ⟨tryRead, entries, respOk, user, pass, by simp, check, sent⟩
    · rw [ht] at hs
      obtain ⟨ht', hr⟩ := tryReadCommandAscii_spec hs
      exact .inr ⟨ht'.trans ht, ha.mono (y := []) _ (by simpa using hr)⟩
  | recv x =>
    obtain ⟨⟨-, hx⟩, rfl, rfl⟩ := System.guarded_eq_some hs
    obtain ⟨ht, hg⟩ | ⟨ht, ha⟩ := h
    · exact .inl ⟨ht, recv_good hg hx⟩
    · exact .inr ⟨ht, ha.mono _ rfl⟩
  | swap mem =>
    obtain ⟨he, rfl, rfl⟩ := System.guarded_eq_some hs
    obtain ⟨ht, hg⟩ | ⟨ht, ha⟩ := h
    · refine .inl ⟨ht, ⟨le_refl _, hg.inBuffer.2.1, ?_⟩, hg.block, c.received, ?_⟩
      · show (0 : ℤ) + c.rbytes ≤ readBufferSize
        rw [he]
        exact Int.natCast_nonneg _
      · simp [AuthConn.unread, region, he]
    · exact .inr ⟨ht, ha.mono (y := []) _ (List.append_nil _).symm⟩
  | hangup =>
    simp only [step, Option.some.injEq, Prod.mk.injEq] at hs
    obtain ⟨rfl, rfl⟩ := hs
    obtain ⟨ht, hg⟩ | ⟨ht, ha⟩ := h
    · exact .inl ⟨ht, hg.inBuffer, hg.block, hg.unread⟩
    · exact .inr ⟨ht, ha.mono (y := []) _ (List.append_nil _).symm⟩

theorem steps_gateInv {c0 : AuthConn} (hi : connections.init c0)
    (h : connections.Steps lengthFits c0 l c) : GateInv l c := by
  induction h with
  | refl =>
    rw [hi]
    exact .inl ⟨rfl, ⟨le_refl _, le_refl _, Int.natCast_nonneg readBufferSize⟩, nofun, [], rfl⟩
  | tail _ ho hs ih => exact step_gateInv ih ho hs

/-- In every run of a text connection in which all declared lengths fit into an `int`, no
command is executed before a user and a password that were sent on the connection were
accepted. -/
theorem gate_holds {c₀ : AuthConn} {l : List (Event × Out)} {e : Event} {line : Bytes}
    (hinit : connections.init c₀) (hrun : connections.Steps lengthFits c₀ l c)
    (hfits : lengthFits c e) (hstep : step c e = some (c', .command line)) : Accepted l c := by
  obtain ⟨ht, hgo⟩ | ⟨-, ha⟩ := steps_gateInv hinit hrun
  · cases e with
    | parse entries respOk =>
      simp only [step] at hstep
      split_ifs at hstep
      rw [ht] at hstep
      obtain ⟨hg, -⟩ := tryReadCommandAsciiauth_gated hgo ht hfits hstep
      cases hg with
      | shut _ _ no_command => exact absurd rfl (no_command line)
      | accepted _ _ _ _ stored _ => exact absurd stored nofun
    | recv x => simp [step] at hstep
    | swap mem => simp [step] at hstep
    | hangup => simp [step] at hstep
  · exact ha

/-! ## A connection that sent no password -/

def oneUser : Entries := [(ascii "u", ascii "p")]

/-- A read buffer in which another connection left `u p` behind its first 41 bytes. -/
def staleBuffer : Mem := fun i => (ascii "u p").getD (i - 41) 0

def newConnection (mem : Mem) : AuthConn := { mem := mem }

instance : ∀ c e, Decidable (lengthFits c e)
  | c, .parse _ _ => inferInstanceAs (Decidable (∀ size ∈ c.declared, size + 2 < 2 ^ 31))
  | _, .recv _ => inferInstanceAs (Decidable True)
  | _, .swap _ => inferInstanceAs (Decidable True)
  | _, .hangup => inferInstanceAs (Decidable True)

instance : ∀ c e, Decidable (anyEvent c e) := fun _ _ => inferInstanceAs (Decidable True)

/-- The user logs in, and a get is executed. -/
theorem gate_holds_login :
    ∃ l c c', connections.Steps lengthFits (newConnection staleBuffer) l c ∧
      step c (.parse oneUser true) = some (c', .command (ascii "get x")) ∧ Accepted l c := by
  obtain ⟨c, he, hf, ho⟩ := System.exists_exec connections lengthFits
    (newConnection staleBuffer)
    [.recv (ascii "set a 0 0 3\r\nu p\r\nget x\r\n"), .parse oneUser true]
    (fun c => lengthFits c (.parse oneUser true) ∧
      (step c (.parse oneUser true)).map Prod.snd = some (.command (ascii "get x")))
    (by decide +kernel)
  obtain ⟨l, hl⟩ := System.Steps.of_exec _ he
  obtain ⟨⟨c', out⟩, hs, rfl⟩ := Option.map_eq_some_iff.mp ho
  have hi : connections.init (newConnection staleBuffer) := rfl
  exact ⟨l, c, c', hl, hs, gate_holds hi hl hf hs⟩

/-- The bytes of a connection that never sends a `u` or a `p`: a block with a line end inside,
and a `set` line whose declared length makes `rlbytes` -25. -/
def noPassword : Bytes := ascii "set a 0 0 4\r\nx\r\ny\r\nset a 0 0 4294967269\r\n"

/-- A command is executed although no password was sent: the line end is found in the first
block, and the user and the password in what another connection left. -/
theorem gate_opened_by_stale_buffer :
    ∃ l c c' line, connections.Steps anyEvent (newConnection staleBuffer) l c ∧
      step c (.parse oneUser true) = some (c', .command line) ∧
      ∀ user pass, authfileCheck oneUser user pass = true → ¬SentOn c user pass := by
  obtain ⟨c, he, hr, ho⟩ := System.exists_exec connections anyEvent
    (newConnection staleBuffer) [.recv noPassword, .parse oneUser true, .parse oneUser true]
    (fun c => c.received = noPassword ∧
      (step c (.parse oneUser true)).map Prod.snd = some (.command [121, 0]))
    (by decide +kernel)
  obtain ⟨l, hl⟩ := System.Steps.of_exec _ he
  obtain ⟨⟨c', out⟩, hst, rfl⟩ := Option.map_eq_some_iff.mp ho
  refine ⟨l, c, c', _, hl, hst, fun user pass hc hs => ?_⟩
  have hu : user = ascii "u" := by
    simp only [authfileCheck, oneUser, List.any_cons, List.any_nil, Bool.or_false,
      Bool.and_eq_true, beq_iff_eq] at hc
    exact hc.1
  obtain ⟨x, rest, heq, -⟩ := hs
  have hm : (117 : UInt8) ∈ c.received := by
    rw [heq, hu]
    exact List.mem_append_left _ (List.mem_append_right _ (by decide))
  rw [hr] at hm
  exact absurd hm (by decide)

end Memcached.Text.Auth
