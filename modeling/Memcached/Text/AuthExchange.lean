import Memcached.Text.AuthGate

/-!
# The data block of an authentication (`proto_text.c`)

After a `set` line that declares `N` bytes, `try_read_command_asciiauth` waits for `N + 2`
bytes and answers. The number that it waits for is kept in an `int`: from `2^31 - 2` on it is
negative or at most one, and the function answers before the block is there.

Results:
* `auth_exchange_exact_iff`: for which lengths the block is waited for
-/

namespace Memcached.Text.Auth

open Lib Util Proto

variable {c c' : AuthConn} {entries : Entries} {N : ℕ}

/-- The line was taken, and its block is waited for. -/
structure WaitsFor (N : ℕ) (c : AuthConn) : Prop where
  inBuffer : c.InBuffer
  started : c.saslStarted = true
  rlbytes : c.rlbytes = toInt32 (N + 2)
  tryRead : c.tryRead = .asciiauth
  not_closing : c.closing = false

/-- A call of the command reader: it waits as long as the block is not complete, and then
takes and changes only the block, and what it says depends on nothing else. -/
def ExactCall (entries : Entries) (N : ℕ) (c : AuthConn) : Prop :=
  (c.rbytes < N + 2 → step c (.parse entries true) = some (c, .wait)) ∧
  (N + 2 ≤ c.rbytes → ∃ c' out, step c (.parse entries true) = some (c', out) ∧ out ≠ .wait ∧
    c'.rcurr = c.rcurr + (N + 2) ∧ c'.rbytes = c.rbytes - (N + 2) ∧ 0 ≤ c'.rbytes ∧
    (∀ b, b < c.rcurr.toNat ∨ c.rcurr.toNat + (N + 2) ≤ b → c'.mem b = c.mem b) ∧
    ∀ mem : Mem, (∀ i < N + 2, mem (c.rcurr.toNat + i) = c.mem (c.rcurr.toNat + i)) →
      ∃ d, step { c with mem := mem } (.parse entries true) = some (d, out))

/-- Bytes arrive in segments, and the command reader is called at any time. -/
def Arrives (entries : Entries) (_ : AuthConn) : Event → Prop
  | .parse entries' respOk => entries' = entries ∧ respOk = true
  | .recv _ => True
  | _ => False

def arrived : Event × Out → Bytes
  | (.recv x, _) => x
  | _ => []

/-- The line that is read next has `i` bytes, and declares a block of `N`. -/
structure ReadsLine (N i : ℕ) (c : AuthConn) : Prop where
  inBuffer : c.InBuffer
  not_started : c.saslStarted = false
  tryRead : c.tryRead = .asciiauth
  not_closing : c.closing = false
  line : c.unread.findIdx? (· == 10) = some i
  declares : declaredSize (tokenizeCommand (c.unread.take i)) = some N

/-- The exchange that starts with such a line. -/
structure ExactExchange (entries : Entries) (N i : ℕ) (c : AuthConn) : Prop where
  /-- The line is taken, and the call goes on with the block. -/
  line : ∃ c', readLine true c = some (.inr c') ∧
    step c (.parse entries true) = step c' (.parse entries true) ∧ WaitsFor N c' ∧
    c'.rcurr = c.rcurr + (i + 1) ∧ c'.rbytes = c.rbytes - (i + 1)
  /-- That call is exact and, if it waits, so are those that come after it as long as all of
      them wait: up to then nothing of the block is consumed. -/
  block : ∀ c' l d, readLine true c = some (.inr c') →
    (l ≠ [] → step c' (.parse entries true) = some (c', .wait)) →
    connections.Steps (Arrives entries) c' l d → (∀ x ∈ l, x.2 = .wait) →
    d.unread = c'.unread ++ l.flatMap arrived ∧ ExactCall entries N d

theorem WaitsFor.step_parse (h : WaitsFor N c) :
    step c (.parse entries true) = readBlock entries true c := by
  simp [step, h.not_closing, h.tryRead, tryReadCommandAsciiauth, h.started]

section

variable {i : ℕ} (h : ReadsLine N i c)
include h

theorem ReadsLine.taken :
    ∃ c', readLine true c = some (.inr c') ∧ WaitsFor N c' ∧
      c'.rcurr = c.rcurr + (i + 1) ∧ c'.rbytes = c.rbytes - (i + 1) := by
  obtain ⟨hl, -⟩ := List.findIdx?_eq_some_iff_findIdx_eq.mp h.line
  rw [length_unread] at hl
  -- an empty line declares nothing
  have hp : i ≠ 0 := by
    rintro rfl
    have hn : declaredSize (tokenizeCommand []) = none := by decide
    cases hn.symm.trans h.declares
  obtain ⟨h1, h2, h3⟩ := id h.inBuffer
  refine ⟨{ c.takeLine i with rlbytes := toInt32 (N + 2), saslStarted := true }, ?_,
    ⟨⟨?_, ?_, ?_⟩, rfl, rfl, h.tryRead, h.not_closing⟩, rfl, rfl⟩
  · rw [readLine, if_neg (by omega), if_neg (not_not.mpr h.inBuffer), h.line]
    simp only [h.declares]
  all_goals
    simp only [AuthConn.takeLine]
    omega

theorem ReadsLine.step_parse (hr : readLine true c = some (.inr c')) (hw : WaitsFor N c') :
    step c (.parse entries true) = step c' (.parse entries true) := by
  rw [hw.step_parse]
  simp [step, h.not_closing, h.tryRead, tryReadCommandAsciiauth, h.not_started, hr]

theorem ReadsLine.declared_lt : N < 2 ^ 32 := by
  have hs := h.declares
  unfold declaredSize at hs
  split_ifs at hs
  obtain ⟨n, -, rfl⟩ := Option.map_eq_some_iff.mp hs
  exact Nat.mod_lt _ (by decide)

end

theorem readBlock_wait (h : readBlock entries true c = some (c', .wait)) :
    c.rbytes < c.rlbytes ∧ c' = c := by
  unfold readBlock at h
  split_ifs at h with hs hr
  · cases h
    exact ⟨hs, rfl⟩
  · simp at hr
  obtain ⟨ends, -, h⟩ := Option.bind_eq_some_iff.mp h
  split_ifs at h
  · simp at h
  obtain ⟨mem, -, h⟩ := Option.bind_eq_some_iff.mp h
  obtain ⟨a, -, h⟩ := Option.bind_eq_some_iff.mp h
  obtain ⟨str, -, hc⟩ := Option.map_eq_some_iff.mp h
  unfold checkBlock at hc
  split_ifs at hc <;> simp at hc

theorem WaitsFor.recv {x : Bytes} {out : Out} (h : WaitsFor N c)
    (hs : step c (.recv x) = some (c', out)) : WaitsFor N c' ∧ c'.unread = c.unread ++ x := by
  obtain ⟨⟨⟨h1, h2, h3⟩, hr⟩, rfl, -⟩ := System.guarded_eq_some hs
  refine ⟨⟨⟨le_rfl, by simp only; omega, by simpa using hr⟩, h.started, h.rlbytes, h.tryRead,
    h.not_closing⟩, ?_⟩
  have hl : (c.rbytes + x.length).toNat = c.rbytes.toNat + x.length := by omega
  simp only [AuthConn.unread, hl, region_add, Int.toNat_zero]
  congr 1
  · exact List.map_congr_left fun i hi => by
      simp [received, List.mem_range.mp hi]
  · refine List.ext_getElem (by simp) fun i hi hi' => ?_
    simp [region, received, hi']

theorem WaitsFor.steps {l : List (Event × Out)} (h : WaitsFor N c)
    (hl : connections.Steps (Arrives entries) c l c') (hw : ∀ x ∈ l, x.2 = .wait) :
    WaitsFor N c' ∧ c'.unread = c.unread ++ l.flatMap arrived := by
  induction hl with
  | refl => exact ⟨h, by simp⟩
  | @tail l d e u out _ ho hs ih =>
    obtain ⟨hd, hu⟩ := ih fun x hx => hw x (List.mem_append_left _ hx)
    obtain rfl : out = .wait := hw _ (List.mem_append_right _ (.head _))
    rw [List.flatMap_append, List.flatMap_singleton, ← List.append_assoc, ← hu]
    cases e with
    | recv x => exact hd.recv hs
    | parse entries' respOk =>
      obtain ⟨rfl, rfl⟩ := ho
      obtain ⟨-, rfl⟩ := readBlock_wait (hd.step_parse.symm.trans hs)
      exact ⟨hd, by simp [arrived]⟩
    | swap mem => exact ho.elim
    | hangup => exact ho.elim

variable (entries) in
theorem readBlock_eq {n : ℕ} (h : c.InBuffer) (hr : c.rlbytes = n + 2)
    (hl : c.rlbytes ≤ c.rbytes) :
    readBlock entries true c =
      let a := c.rcurr.toNat
      let str := (region c.mem a n).takeWhile (· != 0)
      let d := { c with
        rbytes := c.rbytes - (n + 2), rcurr := c.rcurr + (n + 2), saslStarted := false }
      some (if c.mem (a + n) = 13 ∧ c.mem (a + (n + 1)) = 10 then
        checkBlock entries
          { d with mem := markTokens (Function.update c.mem (a + n) 0) a str false 0 }
          (tokenizeCommand str)
      else (d, .reply (ascii "CLIENT_ERROR bad command line termination"))) := by
  obtain ⟨h1, h2, h3⟩ := h
  have hen : ∀ k : ℕ, k ≤ 1 →
      addr (c.rcurr + c.rlbytes - 2 + k) = some (c.rcurr.toNat + (n + k)) := by
    intro k hk
    rw [addr_of_lt (by omega) (by omega)]
    congr 1
    omega
  have hz := hen 0 (by omega)
  have ho := hen 1 le_rfl
  simp only [Nat.cast_zero, Nat.cast_one, add_zero] at hz ho
  have he : endsAt c.mem (c.rcurr + c.rlbytes - 2) =
      some (decide (c.mem (c.rcurr.toNat + n) = 13 ∧ c.mem (c.rcurr.toNat + (n + 1)) = 10)) := by
    simp only [endsAt, readAt, hz, ho, Option.map_some, Option.bind_some]
    by_cases hcr : c.mem (c.rcurr.toNat + n) = 13
    · simp [hcr, beq_eq_decide]
    · simp [hcr]
  unfold readBlock
  rw [if_neg (not_lt.mpr hl)]
  simp only [Bool.not_true, Bool.false_eq_true, if_false, he, Option.bind_some]
  by_cases hc : c.mem (c.rcurr.toNat + n) = 13 ∧ c.mem (c.rcurr.toNat + (n + 1)) = 10
  · have hs : cstring (Function.update c.mem (c.rcurr.toNat + n) 0)
        (readBufferSize - c.rcurr.toNat) c.rcurr.toNat =
          some ((region c.mem c.rcurr.toNat n).takeWhile (· != 0)) := by
      rw [cstring_region (Function.update_self ..) (by omega)]
      rw [region_congr fun i hi => Function.update_of_ne (by omega) _ _]
    simp only [hc, and_self, decide_true, Bool.not_true, Bool.false_eq_true, if_false, if_true,
      writeAt, hz, Option.map_some, Option.bind_some, addr_of_lt h1 (by omega : c.rcurr < _),
      hs]
    rw [hr]
  · simp only [hc, decide_false, Bool.not_false, if_true, if_false, hr]

variable (entries) in
theorem checkBlock_eq (t : Tokens) : ∃ (text : Bytes) (authenticated tryRead : Bool),
    ∀ d : AuthConn, checkBlock entries d t =
      ({ d with
        authenticated := if authenticated then true else d.authenticated
        tryRead := if tryRead then .ascii else d.tryRead }, .reply text) := by
  unfold checkBlock
  split_ifs
  · exact ⟨_, false, false, fun _ => rfl⟩
  · exact ⟨_, true, true, fun _ => rfl⟩
  · exact ⟨_, false, false, fun _ => rfl⟩

theorem WaitsFor.exactCall (h : WaitsFor N c) (hN : N + 2 < 2 ^ 31) : ExactCall entries N c := by
  have hrl : c.rlbytes = N + 2 := by
    rw [h.rlbytes]
    unfold toInt32
    omega
  unfold ExactCall
  rw [h.step_parse]
  refine ⟨fun hsh => ?_, fun hle => ?_⟩
  · rw [readBlock, if_pos (by omega)]
  have he := readBlock_eq entries h.inBuffer hrl (by omega)
  have hm' : ∀ mem, WaitsFor N { c with mem := mem } := fun mem =>
    ⟨h.inBuffer, h.started, h.rlbytes, h.tryRead, h.not_closing⟩
  have ho : ∀ mem : Mem, _ := fun mem =>
    readBlock_eq entries (hm' mem).inBuffer hrl (by simpa [hrl] using hle)
  have hs : ∀ mem : Mem, (∀ i < N + 2, mem (c.rcurr.toNat + i) = c.mem (c.rcurr.toNat + i)) →
      region mem c.rcurr.toNat N = region c.mem c.rcurr.toNat N ∧
        mem (c.rcurr.toNat + N) = c.mem (c.rcurr.toNat + N) ∧
        mem (c.rcurr.toNat + (N + 1)) = c.mem (c.rcurr.toNat + (N + 1)) :=
    fun mem hm => ⟨region_congr fun i hi => hm i (by omega), hm N (by omega),
      hm (N + 1) (by omega)⟩
  rw [he]
  by_cases hc : c.mem (c.rcurr.toNat + N) = 13 ∧ c.mem (c.rcurr.toNat + (N + 1)) = 10
  · obtain ⟨text, auth, try', hch⟩ := checkBlock_eq entries
      (tokenizeCommand ((region c.mem c.rcurr.toNat N).takeWhile (· != 0)))
    simp only [hc, and_self, if_true, hch]
    refine ⟨_, _, rfl, by simp, rfl, rfl, by simp only; omega, fun b hb => ?_, fun mem hm => ?_⟩
    · have hlen := (List.takeWhile_prefix (l := region c.mem c.rcurr.toNat N)
        (· != (0 : UInt8))).length_le
      rw [length_region] at hlen
      have hou : b < c.rcurr.toNat ∨ c.rcurr.toNat +
          ((region c.mem c.rcurr.toNat N).takeWhile (· != 0)).length ≤ b := by omega
      exact (markTokens_of_outside hou).trans (Function.update_of_ne (by omega) _ _)
    · obtain ⟨hr, hcr, hl⟩ := hs mem hm
      rw [(hm' mem).step_parse, ho mem]
      simp only [hr, hcr, hl, hc, and_self, if_true, hch]
      exact ⟨_, rfl⟩
  · simp only [hc, if_false]
    refine ⟨_, _, rfl, by simp, rfl, rfl, by simp only; omega, fun _ _ => rfl, fun mem hm => ?_⟩
    obtain ⟨-, hcr, hl⟩ := hs mem hm
    rw [(hm' mem).step_parse, ho mem]
    simp only [hcr, hl, hc, if_false]
    exact ⟨_, rfl⟩

/-- A length that does not fit is at most one when it is kept, so that the call does not wait
once a byte of the block is there. -/
theorem WaitsFor.rlbytes_le (h : WaitsFor N c) (hN : N < 2 ^ 32) (hl : ¬N + 2 < 2 ^ 31) :
    c.rlbytes ≤ 1 ∧ c.rbytes < N + 2 := by
  obtain ⟨h1, h2, h3⟩ := h.inBuffer
  rw [readBufferSize] at h3
  rw [h.rlbytes, toInt32]
  omega

theorem WaitsFor.not_exactCall (h : WaitsFor N c) (hN : N < 2 ^ 32) (hl : ¬N + 2 < 2 ^ 31)
    (hle : c.rlbytes ≤ c.rbytes) : ¬ExactCall entries N c := by
  intro he
  have hc := he.1 (h.rlbytes_le hN hl).2
  rw [h.step_parse] at hc
  exact absurd (readBlock_wait hc).1 (not_lt.mpr hle)

/-- The exchange is exact if and only if the length and that of the line end fit into an
`int`. -/
theorem auth_exchange_exact_iff (entries : Entries) {i : ℕ} (h : ReadsLine N i c) :
    ExactExchange entries N i c ↔ N + 2 < 2 ^ 31 := by
  obtain ⟨c', hr, hw, hrc, hrb⟩ := h.taken
  have hN := h.declared_lt
  constructor
  · intro he
    by_contra hla
    by_cases hle : c'.rlbytes ≤ c'.rbytes
    · exact hw.not_exactCall hN hla hle
        (he.block c' [] c' hr (by simp) .refl (by simp)).2
    -- the call waits for one byte, and does not wait any more when it is there
    obtain ⟨h1, h2, h3⟩ := id hw.inBuffer
    have ho := (hw.rlbytes_le hN hla).1
    have hwa : step c' (.parse entries true) = some (c', .wait) := by
      rw [hw.step_parse, readBlock, if_pos (not_le.mp hle)]
    have hro : c'.InBuffer ∧ c'.rbytes + ([0] : Bytes).length ≤ readBufferSize :=
      ⟨hw.inBuffer, by simp [readBufferSize]; omega⟩
    have hre : step c' (.recv [0]) = some (_, .wait) := if_pos hro
    exact (hw.recv hre).1.not_exactCall hN hla (by simp; omega)
      (he.block c' [(.recv [0], .wait)] _ hr (fun _ => hwa)
        (.tail .refl trivial hre) (by simp)).2
  · intro hf
    refine ⟨⟨c', hr, h.step_parse hr hw, hw, hrc, hrb⟩, ?_⟩
    intro c'' l d hr' _ hl hwa
    obtain rfl : c' = c'' := Sum.inr.inj (Option.some.inj (hr.symm.trans hr'))
    obtain ⟨hd, hu⟩ := hw.steps hl hwa
    exact ⟨hu, hd.exactCall hf⟩

def holding (x : Bytes) : AuthConn :=
  { mem := fun k => x.getD k 0, rbytes := x.length, received := x }

theorem auth_exchange_exact_iff_three :
    ExactExchange oneUser 3 12 (holding (ascii "set k 0 0 3\r\nu p\r\n")) :=
  (auth_exchange_exact_iff oneUser ⟨by decide, rfl, rfl, rfl, by decide, by decide⟩).mpr
    (by decide)

/-- A block of 4294967293 bytes is declared, and one byte is there: the call does not wait,
and looks for the line end in the line itself. -/
theorem large_block_not_awaited :
    ReadsLine 4294967293 21 (holding (ascii "set k 0 0 4294967293\r\nu")) ∧
      (step (holding (ascii "set k 0 0 4294967293\r\nu")) (.parse oneUser true)).map Prod.snd =
        some (.reply (ascii "CLIENT_ERROR bad command line termination")) :=
  ⟨⟨by decide, rfl, rfl, rfl, by decide, by decide⟩, by decide⟩

end Memcached.Text.Auth
