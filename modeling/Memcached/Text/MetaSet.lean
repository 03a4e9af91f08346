import Memcached.Text.Pipeline

/-!
# Meta set and the classic storage commands

`ms` with one of its modes is meant to do to the store what the classic command of that
mode does. The two handlers parse their lines, allocate the item and clean up separately.
They differ when the item cannot be allocated: the classic handler then removes the item
that the key has for `set` only, `ms` for every mode.

Results:
* `mset_same_store_iff`: when `ms` does what the classic command does
* `mset_add_removes`: it removes an item that `add` leaves
-/

namespace Memcached.Text

open Lib Assoc Items Util Proto

variable {Addr : Type*} [DecidableEq Addr] [Fintype Addr]

/-! ## The two lines of one request -/

/-- A storage request: the key, and its numbers as the client writes them. -/
structure StoreWords where
  key : Bytes
  flags : Bytes
  exptime : Bytes
  bytes : Bytes
  cas : Bytes

def classicName : Comm → Bytes
  | .add => ascii "add"
  | .set => ascii "set"
  | .replace => ascii "replace"
  | .append => ascii "append"
  | .prepend => ascii "prepend"
  | .cas => ascii "cas"

/-- The letter of the `M` token. -/
def msetMode : Comm → UInt8
  | .add => 69 -- E
  | .set | .cas => 83 -- S
  | .replace => 82 -- R
  | .append => 65 -- A
  | .prepend => 80 -- P

/-- The line of the classic command. -/
def classicLine (comm : Comm) (w : StoreWords) : Tokens where
  toks := [classicName comm, w.key, w.flags, w.exptime, w.bytes] ++
    if comm = .cas then [w.cas] else []
  rest := none

/-- The line of the meta command. -/
def msetLine (comm : Comm) (w : StoreWords) : Tokens where
  toks := [ascii "ms", w.key, w.bytes, 70 :: w.flags, 84 :: w.exptime, [77, msetMode comm]] ++
    if comm = .cas then [67 :: w.cas] else []
  rest := none

structure StoreNumbers where
  flags : ℕ
  exptime : ℤ
  bytes : ℤ
  cas : ℕ

/-- The words of the request are these numbers, and the key and the value have an allowed
length. -/
structure StoreWords.Are (w : StoreWords) (comm : Comm) (n : StoreNumbers) : Prop where
  key : w.key.length ≤ keyMaxLength
  flags : safeStrtoul w.flags = some n.flags
  exptime : safeStrtol w.exptime = some n.exptime
  bytes : safeStrtol w.bytes = some n.bytes
  range : 0 ≤ n.bytes ∧ n.bytes ≤ intMax - 2
  cas : comm = .cas → safeStrtoull w.cas = some n.cas

/-- The CAS value of the request, 0 when there is none. -/
def StoreNumbers.reqCas (n : StoreNumbers) (comm : Comm) : ℕ := if comm = .cas then n.cas else 0

/-- `exptime` of the item. -/
def StoreNumbers.time (n : StoreNumbers) (S : Settings) (s : Store Addr) : ℕ :=
  realtime S s (exptimeToPositiveTime n.exptime)

/-- The memory for the item of the request. -/
def StoreWords.alloc (w : StoreWords) (n : StoreNumbers) (S : Settings) (env : Env Addr)
    (s : Store Addr) : Store Addr × Option Addr :=
  doItemAlloc S s w.key n.flags (n.time S s) (n.bytes.toNat + 2) env.rounds

/-! ## The two handlers -/

section Handlers

variable {w : StoreWords} {comm : Comm} {n : StoreNumbers} (h : w.Are comm n) (S : Settings)
  (env : Env Addr) (s : Store Addr)

include h

theorem StoreWords.Are.length : ¬(n.bytes < 0 ∨ n.bytes > intMax - 2) := by
  have := h.range
  omega

theorem processUpdateCommand_classicLine :
    processUpdateCommand S env s (classicLine comm w) comm (decide (comm = .cas)) =
      match w.alloc n S env s with
      | (s, none) =>
        { store := if comm = .set then dropItem S s w.key else s
          resp := outResp (setNoreplyMaybe (classicLine comm w))
            (allocError S w.key.length n.flags (n.bytes.toNat + 2))
          next := .swallow (n.bytes.toNat + 2) }
      | (s, some it) =>
        { store := setCas s it (n.reqCas comm)
          resp := {}
          next := .nread { item := it, rlbytes := n.bytes.toNat + 2, cmd := comm
                           noreply := setNoreplyMaybe (classicLine comm w) } } := by
  have ht : (classicLine comm w).tok 1 = w.key ∧ (classicLine comm w).tok 2 = w.flags ∧
      (classicLine comm w).tok 3 = w.exptime ∧ (classicLine comm w).tok 4 = w.bytes := by
    cases comm <;> exact ⟨rfl, rfl, rfl, rfl⟩
  obtain ⟨h1, h2, h3, h4⟩ := ht
  have hca : ¬(decide (comm = .cas) = true ∧ safeStrtoull ((classicLine comm w).tok 5) = none) := by
    rintro ⟨hc, hn⟩
    obtain rfl := of_decide_eq_true hc
    rw [show (classicLine .cas w).tok 5 = w.cas from rfl, h.cas rfl] at hn
    cases hn
  have hr : (if decide (comm = .cas) = true then
      (safeStrtoull ((classicLine comm w).tok 5)).getD 0 else 0) = n.reqCas comm := by
    by_cases hc : comm = .cas
    · subst hc
      rw [show (classicLine .cas w).tok 5 = w.cas from rfl, h.cas rfl]
      rfl
    · simp [StoreNumbers.reqCas, hc]
  simp only [processUpdateCommand, parseUpdate, updateAlloc, h1, h2, h3, h4, h.flags, h.exptime,
    h.bytes, if_neg (Nat.not_lt.mpr h.key), if_neg hca, if_neg h.length, hr]
  rfl

theorem metaFlagPreparse_msetLine (time : ℕ → ℕ) :
    metaFlagPreparse time (msetLine comm w) 3 {} =
      .ok ({ locked := true, newTtl := true, clientFlags := n.flags
             exptime := time (exptimeToPositiveTime n.exptime)
             mode := msetMode comm, hasCas := decide (comm = .cas), reqCasId := n.reqCas comm },
        w.key) := by
  have hf := h.flags
  have hexp := h.exptime
  cases comm with
  | cas =>
    have hc := h.cas rfl
    simp [metaFlagPreparse, msetLine, Tokens.tok, preparseLoop, Preparse.flag, Preparse.number,
      hf, hexp, hc, msetMode, StoreNumbers.reqCas]
  | _ =>
    simp [metaFlagPreparse, msetLine, Tokens.tok, preparseLoop, Preparse.flag, Preparse.number,
      hf, hexp, msetMode, StoreNumbers.reqCas]

theorem msetComm_msetLine (of : MetaFlags) (hm : of.mode = msetMode comm)
    (hc : of.hasCas = decide (comm = .cas)) : Proto.msetComm of = some comm := by
  unfold Proto.msetComm
  rw [hm, hc]
  cases comm <;> rfl

/-- No word of the line is an opaque token: the number of bytes, which the loop over the
flags sees too, does not start with an `O`. -/
theorem msetLine_opaque : ((msetLine comm w).toks.drop 2).any (fun token =>
    token.headD 0 == 79 && mflagMaxOpaqueLength < token.length) = false := by
  have hb : w.bytes.head?.getD 0 ≠ 79 := by
    intro hh
    have hs := h.bytes
    rcases hw : w.bytes with _ | ⟨c, rest⟩
    · rw [hw] at hh
      exact absurd hh (by decide)
    · rw [hw] at hh hs
      obtain rfl : c = 79 := hh
      exact absurd hs (by simp [safeStrtol, safeStrtoll, scanNumber, isSpace, isDigit])
  cases comm <;> simp [msetLine, hb]

theorem processMsetCommand_msetLine :
    processMsetCommand S env s (msetLine comm w) =
      match w.alloc n S env s with
      | (s, none) =>
        { store := dropItem S s w.key
          resp := outResp false (allocError S w.key.length n.flags (n.bytes.toNat + 2))
          next := .swallow (n.bytes.toNat + 2) }
      | (s, some it) =>
        { store := setCas s it (n.reqCas comm)
          resp := {}
          next := .nread { item := it, rlbytes := n.bytes.toNat + 2, cmd := comm, noreply := false
                           msetRes := some (msetStash ((msetLine comm w).toks.drop 2)) } } := by
  have hn : (msetLine comm w).ntokens = 7 ∨ (msetLine comm w).ntokens = 8 := by
    cases comm <;> simp [msetLine, Tokens.ntokens]
  have h1 : ¬(msetLine comm w).ntokens < 3 := by omega
  have h2 : ¬(msetLine comm w).ntokens = 3 := by omega
  have h3 : ¬(msetLine comm w).ntokens > mflagMaxOptLength := by
    unfold mflagMaxOptLength
    omega
  have ht : (msetLine comm w).tok 1 = w.key ∧ (msetLine comm w).tok 2 = w.bytes := ⟨rfl, rfl⟩
  have hc := msetComm_msetLine h
    { locked := true, newTtl := true, clientFlags := n.flags
      exptime := realtime S s (exptimeToPositiveTime n.exptime)
      mode := msetMode comm, hasCas := decide (comm = .cas), reqCasId := n.reqCas comm }
    rfl rfl
  simp only [processMsetCommand, parseMset, if_neg h1, if_neg h2, if_neg h3, ht.1, ht.2,
    if_neg (Nat.not_lt.mpr h.key), h.bytes, if_neg h.length, metaFlagPreparse_msetLine h,
    hc, msetLine_opaque h, Bool.false_eq_true, if_false]
  rfl

end Handlers

/-! ## The effect on the store -/

/-- The store after a storage command and its data block, which is thrown away when the
command could not allocate its item. -/
def afterBlock (S : TextSettings) (env : Env Addr) (ans : Answer Addr) (data : Bytes) :
    Store Addr :=
  match ans.next with
  | .nread u => (completeNreadAscii S env ans.store u data).store
  | _ => ans.store

theorem store_completeNreadAscii (S : TextSettings) (env : Env Addr) (s : Store Addr)
    {u u' : Upload Addr} (hi : u'.item = u.item) (hc : u'.cmd = u.cmd)
    (hs : u'.setStale = u.setStale) (data : Bytes) :
    (completeNreadAscii S env s u' data).store = (completeNreadAscii S env s u data).store := by
  simp only [completeNreadAscii, completeChecked, hi, hc, hs]
  split_ifs <;> rfl

theorem dropItem_eq_self_iff {S : Settings} {s : Store Addr} (h : Inv S s) (hlt : CountsLow s)
    (key : Bytes) : dropItem S s key = s ↔ ∀ b, s.Linked b → s.key b ≠ key := by
  constructor
  · intro he b hb hk
    obtain hm | ⟨a, hh⟩ := missing_or_hit s key
    · obtain ⟨s', hge, -, -, -, hg⟩ := doItemGet_of_missing h hlt hm false false
      have hs' : s' = s := by
        rw [← he, dropItem, processDelete, hge]
      rw [hs'] at hg
      exact hg b hb hk
    · obtain ⟨s', hd, -, -, hl⟩ := processDelete_of_hit h hlt hh
      rw [dropItem, hd] at he
      obtain rfl : s' = s := he
      exact hl hh.linked
  · intro hn
    have hf := h.find_eq_none_iff.mpr hn
    simp only [dropItem, processDelete, doItemGet, hf]

/-- **Meta set.** For every request and every store: `ms` leaves the store that the classic
command leaves, with the same memory, if and only if its item can be allocated, or the
mode is set, or the key has no item when the allocation has failed. -/
theorem mset_same_store_iff {S : TextSettings} {s : Store Addr} (hinv : Inv S.toSettings s)
    (hlt : CountsLow s) {comm : Comm} {w : StoreWords} {n : StoreNumbers} (h : w.Are comm n)
    (env : Env Addr) (data : Bytes) :
    afterBlock S env (processMsetCommand S.toSettings env s (msetLine comm w)) data =
        afterBlock S env (processUpdateCommand S.toSettings env s (classicLine comm w) comm
          (decide (comm = .cas))) data ↔
      (w.alloc n S.toSettings env s).2 ≠ none ∨ comm = .set ∨
        ∀ b, (w.alloc n S.toSettings env s).1.Linked b →
          (w.alloc n S.toSettings env s).1.key b ≠ w.key := by
  rw [processMsetCommand_msetLine h, processUpdateCommand_classicLine h]
  rcases ha : w.alloc n S.toSettings env s with ⟨s1, _ | it⟩
  · obtain ⟨hp, hl1⟩ := doItemAlloc_none hinv hlt ha
    simp only [afterBlock, ne_eq, not_true_eq_false, false_or]
    by_cases hs : comm = .set
    · simp only [if_pos hs]
      exact iff_of_true trivial (.inl hs)
    · rw [if_neg hs, dropItem_eq_self_iff hp.inv hl1, or_iff_right hs]
  · refine iff_of_true ?_ (.inl (by simp))
    simp only [afterBlock]
    apply store_completeNreadAscii <;> rfl

def noMemory : Env (Fin 1) := ⟨fun _ => true, fun _ => ⟨none, fun _ _ => false⟩, slabAt 0, {}⟩

def storeV : StoreWords := ⟨ascii "k", ascii "0", ascii "0", ascii "1", ascii "1"⟩

theorem storeV_are (comm : Comm) : storeV.Are comm ⟨0, 0, 1, 1⟩ where
  key := by decide
  flags := by decide
  exptime := by decide
  bytes := by decide
  range := by decide
  cas := fun _ => by decide

/-- In an empty cache without memory `ms` in add mode and `add` both fail and leave the same
store. -/
theorem mset_same_store_iff_empty :
    afterBlock textSettings noMemory (processMsetCommand smallSettings noMemory (emptyStore 1)
        (msetLine .add storeV)) (ascii "v\r\n") =
      afterBlock textSettings noMemory (processUpdateCommand smallSettings noMemory (emptyStore 1)
        (classicLine .add storeV) .add false) (ascii "v\r\n") := by
  refine (mset_same_store_iff (S := textSettings) (inv_of_init (emptyStore_init 1)) (by decide)
    (storeV_are .add) noMemory (ascii "v\r\n")).mpr (.inr (.inr ?_))
  decide +kernel

/-- The key `k` has a value. Without memory, `ms k 1 F0 T0 ME` and `add k 0 0 1` both fail;
after the first the value is gone, after the second it is not. -/
theorem mset_add_removes : ∃ s : Store (Fin 1),
    (system (Fin 1) smallSettings).Reachable (fun s _ => CountsLow s) s ∧ CountsLow s ∧
    s.Linked 0 ∧ s.key 0 = ascii "k" ∧
    (processMsetCommand smallSettings noMemory s (msetLine .add storeV)).resp.bytes =
      ascii "SERVER_ERROR out of memory storing object\r\n" ∧
    (processUpdateCommand smallSettings noMemory s (classicLine .add storeV) .add
        false).resp.bytes =
      ascii "SERVER_ERROR out of memory storing object\r\n" ∧
    ¬(afterBlock textSettings noMemory
      (processMsetCommand smallSettings noMemory s (msetLine .add storeV))
        (ascii "v\r\n")).Linked 0 ∧
    (afterBlock textSettings noMemory
      (processUpdateCommand smallSettings noMemory s (classicLine .add storeV) .add false)
      (ascii "v\r\n")).Linked 0 := by
  exact (emptyStore_reachable 1 _ _).exists_of_exec
    (storeOps 0 (ascii "k") (ascii "a\r\n") 0 .set 0) (by decide +kernel)

end Memcached.Text
