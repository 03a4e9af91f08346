import Memcached.Util.Numbers
import Mathlib.Data.Fintype.Card
import Mathlib.Data.List.TakeWhile

/-!
# The metadata file of a restart (`memcached.c`, `restart.c`)

At a clean stop the settings and counters that a restart needs are written to a file, one
key and value a line; at the start a callback compares the settings, takes over the
counters, and counts the lines with keys that it knows. The count stands for the presence
of all 17 keys, but a line that is repeated is counted again.

Results:
* `restart_metadata_iff`: which files are accepted, and what they give back
-/

namespace Memcached.Restart

open Util

/-! ## Hexadecimal numbers -/

/-- The digit of a number below 16, as `printf` writes it. -/
def hexDigit (n : ℕ) : UInt8 := UInt8.ofNat (if n < 10 then 48 + n else 87 + n)

def hexValue (c : UInt8) : Option ℕ :=
  if 48 ≤ c.toNat ∧ c.toNat ≤ 57 then some (c.toNat - 48)
  else if 97 ≤ c.toNat ∧ c.toNat ≤ 102 then some (c.toNat - 87)
  else if 65 ≤ c.toNat ∧ c.toNat ≤ 70 then some (c.toNat - 55)
  else none

/-- The digits of a number in base 16, in front of `acc`. -/
def hexLoop : (fuel n : ℕ) → (acc : Bytes) → Bytes
  | 0, _, acc => acc
  | fuel + 1, n, acc =>
    if n < 16 then hexDigit n :: acc else hexLoop fuel (n / 16) (hexDigit (n % 16) :: acc)

/-- `%p` -/
def printPointer (p : ℕ) : Bytes := if p = 0 then ascii "(nil)" else ascii "0x" ++ hexLoop 16 p []

/-- The hexadecimal number at the front of a string, and the rest. -/
def scanHexDigits : Bytes → ℕ → ℕ × Bytes
  | [], n => (n, [])
  | c :: s, n =>
    match hexValue c with
    | some d => scanHexDigits s (n * 16 + d)
    | none => (n, c :: s)

/-- `0x` in front of a digit is skipped. -/
def skipHexMark : Bytes → Bytes
  | 48 :: x :: d :: s =>
    if (x = 120 ∨ x = 88) ∧ (hexValue d).isSome then d :: s else 48 :: x :: d :: s
  | s => s

/-- What `strtoull` reads in base 16. -/
def scanHex (str : Bytes) : Option (Bool × ℕ × Bytes) :=
  let s := str.dropWhile isSpace
  let (negative, s) := match s with
    | 45 :: s => (true, s)
    | 43 :: s => (false, s)
    | s => (false, s)
  match skipHexMark s with
  | c :: s =>
    if (hexValue c).isSome then
      let (n, rest) := scanHexDigits (c :: s) 0
      some (negative, n, rest)
    else none
  | [] => none

/-- `safe_strtoull_hex` (`util.c`, lines 79-102). -/
def safeStrtoullHex (str : Bytes) : Option ℕ :=
  match scanHex str with
  | none => none
  | some (negative, n, rest) =>
    if n ≥ 2 ^ 64 then none
    else
      let ull := if negative then (2 ^ 64 - n) % 2 ^ 64 else n
      if endsNumber rest then
        if ull ≥ 2 ^ 63 ∧ hasMinus str then none else some ull
      else none

/-! ## Keys -/

/-- The keys of the file, in the order of the `enum` of `_mc_meta_load_cb`. -/
inductive MetaKey where
  | mmapOldbase
  | maxbytes
  | chunkSize
  | itemSizeMax
  | slabChunkSizeMax
  | slabPageSize
  | slabConfig
  | useCas
  | slabReassign
  | currentCas
  | oldestCas
  | oldestLive
  | loggerGid
  | currentTime
  | stopTime
  | processStarted
  | hashpower
deriving DecidableEq

/-- `opts[]` -/
def MetaKey.name : MetaKey → Bytes
  | .mmapOldbase => ascii "mmap_oldbase"
  | .maxbytes => ascii "maxbytes"
  | .chunkSize => ascii "chunk_size"
  | .itemSizeMax => ascii "item_size_max"
  | .slabChunkSizeMax => ascii "slab_chunk_size_max"
  | .slabPageSize => ascii "slab_page_size"
  | .slabConfig => ascii "slab_config"
  | .useCas => ascii "use_cas"
  | .slabReassign => ascii "slab_reassign"
  | .currentCas => ascii "current_cas"
  | .oldestCas => ascii "oldest_cas"
  | .oldestLive => ascii "oldest_live"
  | .loggerGid => ascii "logger_gid"
  | .currentTime => ascii "current_time"
  | .stopTime => ascii "stop_time"
  | .processStarted => ascii "process_started"
  | .hashpower => ascii "hashpower"

/-- The keys in the order of `opts[]`. -/
def allKeys : List MetaKey :=
  [.mmapOldbase, .maxbytes, .chunkSize, .itemSizeMax, .slabChunkSizeMax, .slabPageSize,
    .slabConfig, .useCas, .slabReassign, .currentCas, .oldestCas, .oldestLive, .loggerGid,
    .currentTime, .stopTime, .processStarted, .hashpower]

instance : Fintype MetaKey := Fintype.ofList allKeys fun k => by cases k <;> decide

/-- The search through `opts[]`. -/
def keyOf (key : Bytes) : Option MetaKey := allKeys.find? fun k => k.name == key

/-- `RESTART_REQUIRED_META` -/
def requiredMeta : ℕ := 17

/-! ## State -/

/-- The settings that have to match, within the bounds of their C types. -/
structure Settings where
  slabConfig : Bytes
  maxbytes : ℕ
  chunkSize : ℕ
  itemSizeMax : ℕ
  slabChunkSizeMax : ℕ
  slabPageSize : ℕ
  useCas : Bool
  slabReassign : Bool
  slabConfig_cstr : 0 ∉ slabConfig
  maxbytes_lt : maxbytes < 2 ^ 64
  chunkSize_lt : chunkSize < 2 ^ 31
  itemSizeMax_lt : itemSizeMax < 2 ^ 31
  slabChunkSizeMax_lt : slabChunkSizeMax < 2 ^ 31
  slabPageSize_lt : slabPageSize < 2 ^ 31

/-- The state of a server that stops, within the bounds of its C types; no mapping is at the
null address. -/
structure ServerState where
  settings : Settings
  currentTime : ℕ
  processStarted : ℕ
  stopTime : ℕ
  casId : ℕ
  oldestCas : ℕ
  loggerGid : ℕ
  hashPowerLevel : ℕ
  oldestLive : ℕ
  mmapBase : ℕ
  currentTime_lt : currentTime < 2 ^ 32
  processStarted_lt : processStarted < 2 ^ 64
  stopTime_lt : stopTime < 2 ^ 63
  casId_lt : casId < 2 ^ 64
  oldestCas_lt : oldestCas < 2 ^ 64
  loggerGid_lt : loggerGid < 2 ^ 64
  hashPowerLevel_lt : hashPowerLevel < 2 ^ 32
  oldestLive_lt : oldestLive < 2 ^ 32
  mmapBase_lt : mmapBase < 2 ^ 64
  mmapBase_pos : 0 < mmapBase

/-- What a restart takes over from the file. -/
structure Loaded where
  oldBase : ℕ := 0
  casId : ℕ := 0
  oldestCas : ℕ := 0
  oldestLive : ℕ := 0
  loggerGid : ℕ := 0
  processStarted : ℕ := 0
  currentTime : ℕ := 0
  timeDelta : ℤ := 0
  hashpowerInit : ℕ := 0
deriving DecidableEq

/-! ## Saving -/

/-- `%s` of a boolean. -/
def boolText (b : Bool) : Bytes := if b then ascii "true" else ascii "false"

/-- The lines that `_mc_meta_save_cb` writes (lines 5134-5186); `get_cas_id`
takes the next CAS. -/
def metaSaveCb (s : ServerState) : List (MetaKey × Bytes) :=
  [(.slabConfig, s.settings.slabConfig),
    (.maxbytes, itoaU64 s.settings.maxbytes),
    (.chunkSize, itoaU64 s.settings.chunkSize),
    (.itemSizeMax, itoaU64 s.settings.itemSizeMax),
    (.slabChunkSizeMax, itoaU64 s.settings.slabChunkSizeMax),
    (.slabPageSize, itoaU64 s.settings.slabPageSize),
    (.useCas, boolText s.settings.useCas),
    (.slabReassign, boolText s.settings.slabReassign),
    (.currentTime, itoaU64 s.currentTime),
    (.processStarted, itoaU64 s.processStarted),
    (.stopTime, itoaU64 s.stopTime),
    (.currentCas, itoaU64 ((s.casId + 1) % 2 ^ 64)),
    (.oldestCas, itoaU64 s.oldestCas),
    (.loggerGid, itoaU64 s.loggerGid),
    (.hashpower, itoaU64 s.hashPowerLevel),
    (.oldestLive, itoaU64 s.oldestLive),
    (.mmapOldbase, printPointer s.mmapBase)]

def setValMax : ℕ := 4096

/-- `restart_set_kv` (`restart.c`, lines 263-283): `vsnprintf` is given one byte less than the
buffer has; `none` is `abort`. -/
def restartSetKv (e : MetaKey × Bytes) : Option Bytes :=
  if setValMax ≤ e.2.length then none
  else some (75 :: e.1.name ++ 32 :: e.2.take (setValMax - 2) ++ [10])

/-- `restart_save` (`restart.c`, lines 217-257) with the one callback that `main` registers. -/
def restartSave (s : ServerState) : Option Bytes :=
  ((metaSaveCb s).mapM restartSetKv).map fun lines => ascii "Tmain\n" ++ lines.flatten

/-! ## Loading -/

/-- The lines that `getline` gives, and what is left behind the last line end. -/
def splitLines : Bytes → List Bytes × Bytes
  | [] => ([], [])
  | c :: s =>
    if c = 10 then ([] :: (splitLines s).1, (splitLines s).2)
    else
      match (splitLines s).1 with
      | [] => ([], c :: (splitLines s).2)
      | l :: ls => ((c :: l) :: ls, (splitLines s).2)

/-- A C string ends at its first NUL. -/
def cstr (s : Bytes) : Bytes := s.takeWhile (· != 0)

/-- What `restart_get_kv` finds in a line. -/
inductive Line where
  | kv (key val : Bytes)
  | tag
  | noTag
  | bad
deriving DecidableEq

/-- `restart_get_kv` (`restart.c`, lines 138-211), for one line. In a key without a space it
runs over the end of the line, and what it finds there is not defined. -/
def restartGetKv : Bytes → Option Line
  | 84 :: tag => if cstr tag = ascii "main" then some .tag else some .noTag
  | 75 :: kv =>
    if 32 ∈ kv then
      some (.kv (cstr (kv.takeWhile (· != 32))) (cstr ((kv.dropWhile (· != 32)).drop 1)))
    else none
  | _ => some .bad

/-- An `int` setting that has to match. -/
def checkInt (field : ℕ) (val : Bytes) (m : Loaded) : Option Loaded :=
  if safeStrtol val = some (field : ℤ) then some m else none

/-- A boolean setting that has to match. -/
def checkBool (field : Bool) (val : Bytes) (m : Loaded) : Option Loaded :=
  if val = boolText field then some m else none

/-- The switch of `_mc_meta_load_cb` (lines 5277-5393); `none` is
`reuse_mmap = -1`. -/
def check (S : Settings) (now : ℤ) (k : MetaKey) (val : Bytes) (m : Loaded) : Option Loaded :=
  match k with
  | .mmapOldbase => (safeStrtoullHex val).map fun n => { m with oldBase := n }
  | .maxbytes =>
    (safeStrtoll val).bind fun n => if n % 2 ^ 64 = (S.maxbytes : ℤ) then some m else none
  | .chunkSize => checkInt S.chunkSize val m
  | .itemSizeMax => checkInt S.itemSizeMax val m
  | .slabChunkSizeMax => checkInt S.slabChunkSizeMax val m
  | .slabPageSize => checkInt S.slabPageSize val m
  | .slabConfig => if val = S.slabConfig then some m else none
  | .useCas => checkBool S.useCas val m
  | .slabReassign => checkBool S.slabReassign val m
  | .currentCas => (safeStrtoull val).map fun n => { m with casId := n }
  | .oldestCas => (safeStrtoull val).map fun n => { m with oldestCas := n }
  | .oldestLive => (safeStrtoul val).map fun n => { m with oldestLive := n }
  | .loggerGid => (safeStrtoull val).map fun n => { m with loggerGid := n }
  | .processStarted => (safeStrtoull val).map fun n => { m with processStarted := n }
  | .currentTime => (safeStrtoul val).map fun n => { m with currentTime := n }
  | .stopTime =>
    (safeStrtoll val).bind fun n =>
      if now - n ≤ 0 then none else some { m with timeDelta := now - n }
  | .hashpower => (safeStrtoul val).map fun n => { m with hashpowerInit := n }

/-- How a call of the callback ends: whether it accepts, what it loaded, the lines that are
left, and whether the file is at its end. -/
structure CbResult where
  accepts : Bool
  loaded : Loaded
  rest : List Bytes
  done : Bool

/-- The loop of `_mc_meta_load_cb` (lines 5251-5404): `seen` counts the lines
with a known key. -/
def metaLoadLoop (S : Settings) (now : ℤ) (tail : Bytes) :
    List Bytes → (seen : ℕ) → Loaded → Option CbResult
  | [], seen, m => if tail = [] then some ⟨requiredMeta ≤ seen, m, [], true⟩ else none
  | line :: rest, seen, m =>
    match restartGetKv line with
    | none => none
    | some (.kv key val) =>
      match keyOf key with
      | none => metaLoadLoop S now tail rest seen m
      | some k =>
        match check S now k val m with
        | none => some ⟨false, m, rest, false⟩
        | some m' => metaLoadLoop S now tail rest (seen + 1) m'
    | some _ => some ⟨requiredMeta ≤ seen, m, rest, false⟩

/-- `_mc_meta_load_cb` (lines 5198-5407). -/
def metaLoadCb (S : Settings) (now : ℤ) (tail : Bytes) (lines : List Bytes) (m : Loaded) :
    Option CbResult :=
  metaLoadLoop S now tail lines 0 { m with processStarted := 0, timeDelta := 0, currentTime := 0 }

/-- `restart_check` -/
inductive Verdict where
  | accepted (m : Loaded)
  | rejected
  | aborted
deriving DecidableEq

/-- The loop of `restart_check` (`restart.c`, lines 110-117). -/
def checkLoop (S : Settings) (now : ℤ) (tail : Bytes) :
    (fuel : ℕ) → List Bytes → Loaded → Option Verdict
  | 0, _, _ => none
  | fuel + 1, lines, m =>
    (metaLoadCb S now tail lines m).bind fun r =>
      if !r.accepts then some .rejected
      else if r.done then some (.accepted r.loaded)
      else checkLoop S now tail fuel r.rest r.loaded

/-- `restart_check` (`restart.c`, lines 72-131): the first line must be a tag. Each call of the
callback reads a line or comes to the end of the file. -/
def restartCheck (S : Settings) (now : ℤ) (file : Bytes) : Option Verdict :=
  match splitLines file with
  | ([], tail) => if tail = [] then some .aborted else none
  | (line :: lines, tail) =>
    match restartGetKv line with
    | none => none
    | some .tag => checkLoop S now tail (lines.length + 1) lines {}
    | some _ => some .aborted

/-- The relative clock after the restart, when the monotonic clock shows `ts` (`memcached.c`,
lines 6822-6841 and 4613). -/
def restartedTime (m : Loaded) (ts : ℤ) : ℕ :=
  let monotonicStart := ts - (m.currentTime + m.timeDelta)
  ((ts - monotonicStart) % 2 ^ 32).toNat

/-! ## What a restart promises -/

/-- What is in the file was taken over: no CAS that the stopped server handed out is above the
counter, and the clock went on by the time between stop and start. -/
def Restores (s : ServerState) (gap : ℕ) (m : Loaded) : Prop :=
  (∀ cas ≤ s.casId, cas ≤ m.casId) ∧ m.oldestLive = s.oldestLive ∧ m.oldestCas = s.oldestCas ∧
    m.hashpowerInit = s.hashPowerLevel ∧ m.oldBase = s.mmapBase ∧
    ∀ ts : ℤ, restartedTime m ts = (s.currentTime + gap) % 2 ^ 32

/-- The saved file is accepted `gap` seconds after the stop. -/
def RoundTrips (s : ServerState) (gap : ℕ) : Prop :=
  ∃ file m, restartSave s = some file ∧
    restartCheck s.settings (s.stopTime + gap) file = some (.accepted m) ∧ Restores s gap m

/-- The text of the slab sizes is one line that fits the buffer, the memory limit is a signed
number, and the CAS counter is not at its end. -/
def Saveable (s : ServerState) : Prop :=
  10 ∉ s.settings.slabConfig ∧ s.settings.slabConfig.length ≤ setValMax - 2 ∧
    s.settings.maxbytes < 2 ^ 63 ∧ s.casId + 1 < 2 ^ 64

/-- The lines of a file. -/
def lines (file : Bytes) : List Bytes := (splitLines file).1

/-- A line names a key. -/
def lineKey (line : Bytes) : Option MetaKey :=
  match restartGetKv line with
  | some (.kv key _) => keyOf key
  | _ => none

def namedKeys (file : Bytes) : List MetaKey := (lines file).filterMap lineKey

/-- The file has the key with a value that can be read and matches the settings. -/
def HasValue (S : Settings) (now : ℤ) (file : Bytes) (k : MetaKey) : Prop :=
  ∃ line ∈ lines file, ∃ key val m, restartGetKv line = some (.kv key val) ∧
    keyOf key = some k ∧ (check S now k val m).isSome = true

/-! ## Numbers are read back -/

theorem hexValue_hexDigit {n : ℕ} (h : n < 16) : hexValue (hexDigit n) = some n := by
  have ha : ∀ i : Fin 16, hexValue (hexDigit i) = some i.val := by decide
  exact ha ⟨n, h⟩

theorem scanHexDigits_hexLoop (fuel n : ℕ) (acc : Bytes) (h : n < 16 ^ fuel) :
    scanHexDigits (hexLoop fuel n acc) 0 = scanHexDigits acc n := by
  induction fuel generalizing n acc with
  | zero =>
    obtain rfl : n = 0 := by simpa using h
    rfl
  | succ fuel ih =>
    rw [hexLoop]
    split
    · rename_i hl
      rw [scanHexDigits, hexValue_hexDigit hl]
      show scanHexDigits acc (0 * 16 + n) = _
      rw [Nat.zero_mul, Nat.zero_add]
    have hd : n / 16 < 16 ^ fuel := by
      rw [Nat.pow_succ] at h
      omega
    rw [ih _ _ hd, scanHexDigits, hexValue_hexDigit (Nat.mod_lt n (by decide))]
    show scanHexDigits acc (n / 16 * 16 + n % 16) = _
    rw [Nat.div_add_mod']

theorem hexLoop_cons (fuel n : ℕ) (acc : Bytes) {d : ℕ} (hd : d < 16) :
    ∃ e s, e < 16 ∧ hexLoop fuel n (hexDigit d :: acc) = hexDigit e :: s := by
  induction fuel generalizing n d acc with
  | zero => exact ⟨d, acc, hd, rfl⟩
  | succ fuel ih =>
    rw [hexLoop]
    split
    · rename_i hl
      exact ⟨n, _, hl, rfl⟩
    · exact ih _ _ (Nat.mod_lt n (by decide))

theorem hexLoop_head (fuel n : ℕ) : ∃ e s, e < 16 ∧ hexLoop (fuel + 1) n [] = hexDigit e :: s := by
  rw [hexLoop]
  split
  · rename_i hl
    exact ⟨n, [], hl, rfl⟩
  · exact hexLoop_cons fuel (n / 16) [] (Nat.mod_lt n (by decide))

theorem mem_hexLoop {fuel n : ℕ} {acc : Bytes} {c : UInt8} (h : c ∈ hexLoop fuel n acc) :
    c ∈ acc ∨ ∃ d < 16, c = hexDigit d := by
  induction fuel generalizing n acc with
  | zero => exact Or.inl h
  | succ fuel ih =>
    rw [hexLoop] at h
    split at h
    · rename_i hl
      obtain h | h := List.mem_cons.mp h
      · exact Or.inr ⟨n, hl, h⟩
      · exact Or.inl h
    · obtain h | h := ih h
      · obtain h | h := List.mem_cons.mp h
        · exact Or.inr ⟨n % 16, Nat.mod_lt n (by decide), h⟩
        · exact Or.inl h
      · exact Or.inr h

theorem length_hexLoop (fuel n : ℕ) (acc : Bytes) :
    (hexLoop fuel n acc).length ≤ fuel + acc.length := by
  induction fuel generalizing n acc with
  | zero => simp [hexLoop]
  | succ fuel ih =>
    rw [hexLoop]
    split
    · simp only [List.length_cons]
      omega
    · have hl := ih (n / 16) (hexDigit (n % 16) :: acc)
      simp only [List.length_cons] at hl
      omega

theorem hexDigit_range {d : ℕ} (h : d < 16) : hexDigit d ≠ 0 ∧ hexDigit d ≠ 10 ∧
    hexDigit d ≠ 45 := by
  have ha : ∀ i : Fin 16, hexDigit i ≠ 0 ∧ hexDigit i ≠ 10 ∧ hexDigit i ≠ 45 := by decide
  exact ha ⟨d, h⟩

section

variable {p : ℕ} (hp : 0 < p)
include hp

theorem printPointer_pos : printPointer p = 48 :: 120 :: hexLoop 16 p [] := by
  rw [printPointer, if_neg (by omega)]
  rfl

theorem not_mem_printPointer {c : UInt8} (hmark : c ≠ 48 ∧ c ≠ 120)
    (hdi : ∀ d < 16, hexDigit d ≠ c) : c ∉ printPointer p := by
  rw [printPointer_pos hp]
  intro hm
  obtain h | hm := List.mem_cons.mp hm
  · exact hmark.1 h
  obtain h | hm := List.mem_cons.mp hm
  · exact hmark.2 h
  obtain h | ⟨d, hd, h⟩ := mem_hexLoop hm
  · cases h
  · exact hdi d hd h.symm

theorem safeStrtoullHex_printPointer (hlt : p < 2 ^ 64) :
    safeStrtoullHex (printPointer p) = some p := by
  have hm : hasMinus (printPointer p) = false := by
    rw [hasMinus, List.contains_eq_mem, decide_eq_false_iff_not]
    intro hme
    exact not_mem_printPointer hp (by decide) (fun d hd => (hexDigit_range hd).2.2)
      (List.takeWhile_subset _ hme)
  have hsc : scanHex (printPointer p) = some (false, p, []) := by
    have hdi : scanHexDigits (hexLoop 16 p []) 0 = (p, []) :=
      scanHexDigits_hexLoop 16 p [] (lt_of_lt_of_le hlt (by decide))
    obtain ⟨e, s, he, hl⟩ := hexLoop_head 15 p
    rw [hl] at hdi
    have hs : (hexValue (hexDigit e)).isSome = true := by rw [hexValue_hexDigit he]; rfl
    have hdro : (48 :: 120 :: hexDigit e :: s).dropWhile isSpace =
        48 :: 120 :: hexDigit e :: s := rfl
    have hsk : skipHexMark (48 :: 120 :: hexDigit e :: s) = hexDigit e :: s := by
      rw [skipHexMark, if_pos ⟨Or.inl rfl, hs⟩]
    have hsi : (match 48 :: 120 :: hexDigit e :: s with
        | 45 :: s => (true, s)
        | 43 :: s => (false, s)
        | s => (false, s)) = (false, 48 :: 120 :: hexDigit e :: s) := rfl
    rw [printPointer_pos hp, hl, scanHex]
    simp only [hdro, hsi, hsk, hs, if_true, hdi]
  simp only [safeStrtoullHex, hsc, hm]
  rw [if_neg (by omega)]
  simp [endsNumber]

end

variable {v : ℕ}

theorem safeStrtoull_written (h : v < 2 ^ 64) : safeStrtoull (itoaU64 v) = some v := by
  have hr : safeStrtoull (itoaU64 v ++ []) = some v := safeStrtoull_itoaU64 h rfl (by simp)
  rwa [List.append_nil] at hr

theorem safeStrtoul_written (h : v < 2 ^ 32) : safeStrtoul (itoaU64 v) = some v := by
  rw [safeStrtoul, safeStrtoull_written (by omega)]
  show some (v % 2 ^ 32) = some v
  rw [Nat.mod_eq_of_lt h]

theorem safeStrtoll_written (h : v < 2 ^ 63) : safeStrtoll (itoaU64 v) = some (v : ℤ) := by
  have hr : safeStrtoll (itoaU64 v ++ []) = some (v : ℤ) := safeStrtoll_itoaU64 h rfl
  rwa [List.append_nil] at hr

theorem safeStrtoll_large (h : 2 ^ 63 ≤ v) : safeStrtoll (itoaU64 v) = none := by
  have hs : scanNumber (itoaU64 v ++ []) = some (false, v, []) := scanNumber_itoaU64 v rfl
  rw [List.append_nil] at hs
  simp only [safeStrtoll, hs]
  rw [if_pos (Or.inr ⟨by decide, h⟩)]

theorem safeStrtol_written (h : v < 2 ^ 31) : safeStrtol (itoaU64 v) = some (v : ℤ) := by
  rw [safeStrtol, safeStrtoll_written (by omega)]
  simp only [Option.map_some, toInt32, Option.some.injEq]
  omega

/-! ## Lines are read back -/

theorem splitLines_line {line : Bytes} (h : 10 ∉ line) (s : Bytes) :
    splitLines (line ++ 10 :: s) = (line :: (splitLines s).1, (splitLines s).2) := by
  induction line with
  | nil => simp [splitLines]
  | cons c line ih =>
    have hc : c ≠ 10 := fun hc => h (hc ▸ List.mem_cons_self)
    have hl : 10 ∉ line := fun hm => h (.tail _ hm)
    rw [List.cons_append, splitLines, if_neg hc, ih hl]

/-- A value that stands on one line of the file as it is. -/
def Plain (val : Bytes) : Prop := 0 ∉ val ∧ 10 ∉ val ∧ val.length ≤ setValMax - 2

/-- The line of a key and its value, without the line end. -/
def entryLine (e : MetaKey × Bytes) : Bytes := 75 :: e.1.name ++ 32 :: e.2

theorem MetaKey.name_ok (k : MetaKey) :
    32 ∉ k.name ∧ 0 ∉ k.name ∧ 10 ∉ k.name ∧ keyOf k.name = some k := by
  have ha : ∀ k ∈ allKeys,
      32 ∉ k.name ∧ 0 ∉ k.name ∧ 10 ∉ k.name ∧ keyOf k.name = some k := by decide +kernel
  exact ha k (by cases k <;> decide)

theorem all_bne {s : Bytes} {c : UInt8} (h : c ∉ s) : ∀ d ∈ s, (d != c) = true := by
  intro d hd
  simp only [bne_iff_ne, ne_eq]
  rintro rfl
  exact h hd

theorem cstr_of_not_mem {s : Bytes} (h : 0 ∉ s) : cstr s = s :=
  List.takeWhile_eq_self_iff.mpr (all_bne h)

theorem takeWhile_key {key : Bytes} (h : 32 ∉ key) (val : Bytes) :
    (key ++ 32 :: val).takeWhile (· != 32) = key := by
  rw [List.takeWhile_append_of_pos (all_bne h)]
  exact List.append_nil key

theorem dropWhile_key {key : Bytes} (h : 32 ∉ key) (val : Bytes) :
    (key ++ 32 :: val).dropWhile (· != 32) = 32 :: val := by
  rw [List.dropWhile_append_of_pos (all_bne h)]
  rfl

theorem restartGetKv_entryLine (k : MetaKey) {val : Bytes} (h : 0 ∉ val) :
    restartGetKv (entryLine (k, val)) = some (.kv k.name val) := by
  obtain ⟨hs, hn, -, -⟩ := k.name_ok
  show (if 32 ∈ k.name ++ 32 :: val then
    some (Line.kv (cstr ((k.name ++ 32 :: val).takeWhile (· != 32)))
      (cstr (((k.name ++ 32 :: val).dropWhile (· != 32)).drop 1))) else none) = _
  rw [if_pos (by simp), takeWhile_key hs, dropWhile_key hs]
  show some (Line.kv (cstr k.name) (cstr val)) = _
  rw [cstr_of_not_mem hn, cstr_of_not_mem h]

theorem restartSetKv_plain {e : MetaKey × Bytes} (h : Plain e.2) :
    restartSetKv e = some (entryLine e ++ [10]) := by
  have hl : e.2.length ≤ 4094 := h.2.2
  rw [restartSetKv, if_neg (by simp only [setValMax]; omega), List.take_of_length_le h.2.2]
  rfl

variable {es : List (MetaKey × Bytes)}

theorem mapM_restartSetKv (h : ∀ e ∈ es, Plain e.2) :
    es.mapM restartSetKv = some (es.map fun e => entryLine e ++ [10]) := by
  induction es with
  | nil => rfl
  | cons e es ih =>
    rw [List.mapM_cons, restartSetKv_plain (h e (.head _)), ih fun e he => h e (.tail _ he)]
    rfl

theorem entryLine_one_line {e : MetaKey × Bytes} (h : Plain e.2) : 10 ∉ entryLine e := by
  obtain ⟨-, -, hn, -⟩ := e.1.name_ok
  simp only [entryLine, List.cons_append, List.mem_cons, List.mem_append, not_or]
  exact ⟨by decide, hn, by decide, h.2.1⟩

theorem splitLines_entries (h : ∀ e ∈ es, Plain e.2) :
    splitLines (es.map fun e => entryLine e ++ [10]).flatten = (es.map entryLine, []) := by
  induction es with
  | nil => rfl
  | cons e es ih =>
    rw [List.map_cons, List.flatten_cons, List.append_assoc,
      show [10] ++ (es.map fun e => entryLine e ++ [10]).flatten =
        10 :: (es.map fun e => entryLine e ++ [10]).flatten from rfl,
      splitLines_line (entryLine_one_line (h e (.head _))), ih fun e he => h e (.tail _ he)]
    rfl

theorem metaLoadLoop_entries (S : Settings) (now : ℤ)
    (hes : ∀ e ∈ es, Plain e.2) {m m' : Loaded} (seen : ℕ)
    (h : es.foldlM (fun m e => check S now e.1 e.2 m) m = some m') :
    metaLoadLoop S now [] (es.map entryLine) seen m =
      some ⟨requiredMeta ≤ seen + es.length, m', [], true⟩ := by
  induction es generalizing seen m with
  | nil =>
    cases h
    rfl
  | cons e es ih =>
    rw [List.foldlM_cons] at h
    obtain ⟨m1, hc, hr⟩ := Option.bind_eq_some_iff.mp h
    obtain ⟨-, -, -, hk⟩ := e.1.name_ok
    have hl : restartGetKv (entryLine e) = some (.kv e.1.name e.2) :=
      restartGetKv_entryLine e.1 (hes e (.head _)).1
    rw [List.map_cons, metaLoadLoop]
    simp only [hl, hk, hc]
    rw [ih (fun e he => hes e (.tail _ he)) (seen + 1) hr, List.length_cons,
      Nat.add_right_comm, Nat.add_assoc]

/-! ## What is saved -/

theorem plain_itoaU64 (h : v < 2 ^ 64) : Plain (itoaU64 v) := by
  refine ⟨fun hm => absurd (itoaU64_digits v 0 hm) (by decide),
    fun hm => absurd (itoaU64_digits v 10 hm) (by decide), ?_⟩
  have hl : (Nat.toDigits 10 v).length ≤ 20 :=
    Nat.toDigits_length 10 v 20 (by decide) (lt_of_lt_of_le h (by decide))
  rw [itoaU64, List.length_map]
  exact le_trans hl (by decide)

theorem plain_boolText (b : Bool) : Plain (boolText b) := by
  cases b <;> exact ⟨by decide, by decide, by decide⟩

theorem plain_printPointer {p : ℕ} (hp : 0 < p) : Plain (printPointer p) := by
  refine ⟨not_mem_printPointer hp (by decide) fun d hd => (hexDigit_range hd).1,
    not_mem_printPointer hp (by decide) fun d hd => (hexDigit_range hd).2.1, ?_⟩
  have hl := length_hexLoop 16 p []
  rw [printPointer_pos hp]
  simp only [List.length_cons, List.length_nil, setValMax] at hl ⊢
  omega

variable {s : ServerState}

theorem metaSaveCb_plain (h : Plain s.settings.slabConfig) : ∀ e ∈ metaSaveCb s, Plain e.2 := by
  have hint : ∀ {v : ℕ}, v < 2 ^ 31 → Plain (itoaU64 v) := fun h => plain_itoaU64 (by omega)
  have hu : ∀ {v : ℕ}, v < 2 ^ 32 → Plain (itoaU64 v) := fun h => plain_itoaU64 (by omega)
  have hc : (s.casId + 1) % 2 ^ 64 < 2 ^ 64 := Nat.mod_lt _ (by decide)
  have hs : s.stopTime < 2 ^ 64 := lt_of_lt_of_le s.stopTime_lt (by decide)
  intro e he
  simp only [metaSaveCb, List.mem_cons, List.not_mem_nil, or_false] at he
  rcases he with rfl | rfl | rfl | rfl | rfl | rfl | rfl | rfl | rfl | rfl | rfl | rfl | rfl |
    rfl | rfl | rfl | rfl
  · exact h
  · exact plain_itoaU64 s.settings.maxbytes_lt
  · exact hint s.settings.chunkSize_lt
  · exact hint s.settings.itemSizeMax_lt
  · exact hint s.settings.slabChunkSizeMax_lt
  · exact hint s.settings.slabPageSize_lt
  · exact plain_boolText _
  · exact plain_boolText _
  · exact hu s.currentTime_lt
  · exact plain_itoaU64 s.processStarted_lt
  · exact plain_itoaU64 hs
  · exact plain_itoaU64 hc
  · exact plain_itoaU64 s.oldestCas_lt
  · exact plain_itoaU64 s.loggerGid_lt
  · exact hu s.hashPowerLevel_lt
  · exact hu s.oldestLive_lt
  · exact plain_printPointer s.mmapBase_pos

/-- What a restart takes over from the file that `s` saved, `gap` seconds later. -/
def savedMeta (s : ServerState) (gap : ℕ) : Loaded where
  oldBase := s.mmapBase
  casId := (s.casId + 1) % 2 ^ 64
  oldestCas := s.oldestCas
  oldestLive := s.oldestLive
  loggerGid := s.loggerGid
  processStarted := s.processStarted
  currentTime := s.currentTime
  timeDelta := gap
  hashpowerInit := s.hashPowerLevel

theorem checkInt_written (h : v < 2 ^ 31) (m : Loaded) : checkInt v (itoaU64 v) m = some m := by
  rw [checkInt, if_pos (safeStrtol_written h)]

theorem checkBool_written (b : Bool) (m : Loaded) : checkBool b (boolText b) m = some m := by
  rw [checkBool, if_pos rfl]

variable {gap : ℕ}

theorem foldlM_metaSaveCb (hm : s.settings.maxbytes < 2 ^ 63) (hg : 0 < gap) :
    (metaSaveCb s).foldlM (fun m e => check s.settings (s.stopTime + gap) e.1 e.2 m) {} =
      some (savedMeta s gap) := by
  have hmo : (s.settings.maxbytes : ℤ) % 2 ^ 64 = s.settings.maxbytes :=
    Int.emod_eq_of_lt (by omega) (by omega)
  have hd : (s.stopTime : ℤ) + gap - s.stopTime = gap := by omega
  have hpo : ¬(gap : ℤ) ≤ 0 := by omega
  simp only [metaSaveCb, List.foldlM_cons, List.foldlM_nil, check, Option.bind_eq_bind,
    Option.bind_some, Option.map_some, if_true, hmo, hd, hpo, if_false,
    safeStrtoll_written hm, checkInt_written s.settings.chunkSize_lt,
    checkInt_written s.settings.itemSizeMax_lt, checkInt_written s.settings.slabChunkSizeMax_lt,
    checkInt_written s.settings.slabPageSize_lt, checkBool_written,
    safeStrtoul_written s.currentTime_lt, safeStrtoull_written s.processStarted_lt,
    safeStrtoll_written s.stopTime_lt, safeStrtoull_written (Nat.mod_lt _ (by decide)),
    safeStrtoull_written s.oldestCas_lt, safeStrtoull_written s.loggerGid_lt,
    safeStrtoul_written s.hashPowerLevel_lt, safeStrtoul_written s.oldestLive_lt,
    safeStrtoullHex_printPointer s.mmapBase_pos s.mmapBase_lt]
  rfl

section

variable (h : Plain s.settings.slabConfig)
include h

theorem restartSave_plain :
    restartSave s =
      some (ascii "Tmain" ++ 10 :: ((metaSaveCb s).map fun e => entryLine e ++ [10]).flatten) := by
  rw [restartSave, mapM_restartSetKv (metaSaveCb_plain h)]
  rfl

theorem splitLines_saved :
    splitLines (ascii "Tmain" ++
        10 :: ((metaSaveCb s).map fun e => entryLine e ++ [10]).flatten) =
      (ascii "Tmain" :: (metaSaveCb s).map entryLine, []) := by
  rw [splitLines_line (by decide), splitLines_entries (metaSaveCb_plain h)]

theorem restartCheck_saved (hm : s.settings.maxbytes < 2 ^ 63) (hg : 0 < gap) :
    restartCheck s.settings (s.stopTime + gap)
        (ascii "Tmain" ++ 10 :: ((metaSaveCb s).map fun e => entryLine e ++ [10]).flatten) =
      some (.accepted (savedMeta s gap)) := by
  have ht : restartGetKv (ascii "Tmain") = some .tag := by decide
  have hl : metaLoadCb s.settings (s.stopTime + gap) [] ((metaSaveCb s).map entryLine) {} =
      some ⟨true, savedMeta s gap, [], true⟩ :=
    metaLoadLoop_entries _ _ (metaSaveCb_plain h) 0 (foldlM_metaSaveCb hm hg)
  simp only [restartCheck, splitLines_saved h, ht]
  rw [checkLoop, hl]
  rfl

end

/-! ## What is accepted -/

/-- The value of a line with a known key passes the check. -/
def LineOk (S : Settings) (now : ℤ) (line : Bytes) : Prop :=
  ∀ key val k, restartGetKv line = some (.kv key val) → keyOf key = some k →
    ∃ m, (check S now k val m).isSome = true

section
variable {S : Settings} {now : ℤ} {tail : Bytes}

theorem LineOk.of_not_kv {line : Bytes} {found : Line} (h : restartGetKv line = some found)
    (hk : ∀ key val, found ≠ .kv key val) : LineOk S now line := by
  intro key val k hl
  rw [h] at hl
  exact absurd (Option.some.inj hl) (hk key val)

variable {m : Loaded}

theorem metaLoadLoop_accepts {ls : List Bytes} {seen : ℕ} {r : CbResult}
    (h : metaLoadLoop S now tail ls seen m = some r) (ha : r.accepts = true) :
    (∀ line ∈ ls, LineOk S now line ∨ line ∈ r.rest) ∧ (r.done = true → r.rest = []) := by
  induction ls generalizing seen m with
  | nil =>
    rw [metaLoadLoop] at h
    split at h
    · cases h
      exact ⟨fun line hl => absurd hl List.not_mem_nil, fun _ => rfl⟩
    · cases h
  | cons line ls ih =>
    rw [metaLoadLoop] at h
    have hn : ∀ {seen m}, metaLoadLoop S now tail ls seen m = some r → LineOk S now line →
        (∀ l ∈ line :: ls, LineOk S now l ∨ l ∈ r.rest) ∧ (r.done = true → r.rest = []) := by
      intro seen m h hl
      obtain ⟨hli, hd⟩ := ih h
      exact ⟨List.forall_mem_cons.mpr ⟨.inl hl, hli⟩, hd⟩
    split at h
    · cases h
    · rename_i key val hkv
      split at h
      · -- an unknown key is skipped
        rename_i hke
        refine hn h fun key' val' k hl hk => ?_
        rw [hkv] at hl
        cases hl
        rw [hke] at hk
        cases hk
      rename_i k hke
      split at h
      · cases h
        cases ha
      rename_i m' hc
      refine hn h fun key' val' k' hl hk => ⟨m, ?_⟩
      rw [hkv] at hl
      cases hl
      rw [hke] at hk
      cases hk
      rw [hc]
      rfl
    · rename_i found hno hl
      cases h
      refine ⟨fun line' hm => ?_, fun hd => absurd hd Bool.false_ne_true⟩
      obtain rfl | hm := List.mem_cons.mp hm
      · exact Or.inl (LineOk.of_not_kv hl fun key val hkv => hno key val hkv)
      · exact Or.inr hm

theorem checkLoop_accepts {fuel : ℕ} {ls : List Bytes} {m m' : Loaded}
    (h : checkLoop S now tail fuel ls m = some (.accepted m')) :
    ∀ line ∈ ls, LineOk S now line := by
  induction fuel generalizing ls m with
  | zero => cases h
  | succ fuel ih =>
    rw [checkLoop] at h
    obtain ⟨r, hc, hres⟩ := Option.bind_eq_some_iff.mp h
    split at hres
    · cases hres
    rename_i ha
    have ha : r.accepts = true := by simpa using ha
    obtain ⟨hl, hd⟩ := metaLoadLoop_accepts hc ha
    intro line hm
    obtain ho | hre := hl line hm
    · exact ho
    split at hres
    · rename_i hr
      rw [hd hr] at hre
      cases hre
    · exact ih hres line hre

variable {file : Bytes}

theorem restartCheck_accepts (h : restartCheck S now file = some (.accepted m)) :
    ∀ line ∈ lines file, LineOk S now line := by
  unfold restartCheck at h
  split at h
  · split_ifs at h
    cases h
  rename_i line ls tail hs
  split at h
  · cases h
  · rename_i ht
    intro line' hm
    rw [lines, hs] at hm
    obtain rfl | hm := List.mem_cons.mp hm
    · exact LineOk.of_not_kv ht fun key val => nofun
    · exact checkLoop_accepts h line' hm
  · cases h

/-- The lines that are counted are lines with a known key. -/
theorem metaLoadLoop_seen {ls : List Bytes} {seen : ℕ} {r : CbResult}
    (h : metaLoadLoop S now tail ls seen m = some r) (ha : r.accepts = true) :
    requiredMeta ≤ seen + (ls.filterMap lineKey).length := by
  induction ls generalizing seen m with
  | nil =>
    rw [metaLoadLoop] at h
    split at h
    · cases h
      exact of_decide_eq_true ha
    · cases h
  | cons line ls ih =>
    rw [metaLoadLoop] at h
    have hle : (ls.filterMap lineKey).length ≤ ((line :: ls).filterMap lineKey).length :=
      ((List.sublist_cons_self line ls).filterMap lineKey).length_le
    split at h
    · cases h
    · rename_i key val hkv
      split at h
      · have := ih h
        omega
      rename_i k hke
      split at h
      · cases h
        cases ha
      have hk : lineKey line = some k := by
        rw [lineKey, hkv]
        exact hke
      have := ih h
      rw [List.filterMap_cons_some hk, List.length_cons]
      omega
    · cases h
      have : requiredMeta ≤ seen := of_decide_eq_true ha
      omega

theorem restartCheck_seen (h : restartCheck S now file = some (.accepted m)) :
    requiredMeta ≤ (namedKeys file).length := by
  unfold restartCheck at h
  split at h
  · split_ifs at h
    cases h
  rename_i line ls tail hs
  split at h
  · cases h
  · rw [checkLoop] at h
    obtain ⟨r, hc, hres⟩ := Option.bind_eq_some_iff.mp h
    split at hres
    · cases hres
    rename_i ha
    have hse := metaLoadLoop_seen hc (by simpa using ha)
    rw [Nat.zero_add] at hse
    rw [namedKeys, lines, hs]
    exact hse.trans ((List.sublist_cons_self line ls).filterMap lineKey).length_le
  · cases h

theorem HasValue.of_named (h : restartCheck S now file = some (.accepted m)) {k : MetaKey}
    (hk : k ∈ namedKeys file) : HasValue S now file k := by
  obtain ⟨line, hl, hke⟩ := List.mem_filterMap.mp hk
  unfold lineKey at hke
  split at hke
  · rename_i key val hkv
    obtain ⟨m', hc⟩ := restartCheck_accepts h line hl key val k hkv hke
    exact ⟨line, hl, key, val, m', hkv, hke, hc⟩
  · cases hke

theorem HasValue.named {k : MetaKey} (h : HasValue S now file k) : k ∈ namedKeys file := by
  obtain ⟨line, hl, key, val, m, hkv, hk, -⟩ := h
  refine List.mem_filterMap.mpr ⟨line, hl, ?_⟩
  rw [lineKey, hkv]
  exact hk

theorem card_metaKey : Fintype.card MetaKey = requiredMeta := by decide

theorem complete_iff (h : restartCheck S now file = some (.accepted m)) :
    (∀ k, HasValue S now file k) ↔ requiredMeta ≤ (namedKeys file).toFinset.card := by
  constructor
  · intro ha
    have hu : (namedKeys file).toFinset = Finset.univ :=
      Finset.eq_univ_of_forall fun k => List.mem_toFinset.mpr (ha k).named
    rw [hu, Finset.card_univ, card_metaKey]
  intro hc k
  have hu : (namedKeys file).toFinset = Finset.univ := by
    rw [← Finset.card_eq_iff_eq_univ, card_metaKey]
    exact le_antisymm (card_metaKey ▸ Finset.card_le_univ _) hc
  have hm : k ∈ (namedKeys file).toFinset := hu ▸ Finset.mem_univ k
  exact HasValue.of_named h (List.mem_toFinset.mp hm)

theorem complete_of_nodup (h : restartCheck S now file = some (.accepted m))
    (hn : (namedKeys file).Nodup) (k : MetaKey) : HasValue S now file k :=
  (complete_iff h).mpr ((restartCheck_seen h).trans_eq (List.toFinset_card_of_nodup hn).symm) k

end

/-! ## When the round trip holds -/

theorem exists_first_line (u t : Bytes) :
    ∃ t', u ++ 10 :: t = u.takeWhile (· != 10) ++ 10 :: t' := by
  induction u with
  | nil => exact ⟨t, rfl⟩
  | cons c u ih =>
    by_cases hc : c = 10
    · subst hc
      exact ⟨u ++ 10 :: t, rfl⟩
    · obtain ⟨t', ht'⟩ := ih
      refine ⟨t', ?_⟩
      rw [List.cons_append, ht', List.takeWhile_cons, if_pos (by simpa using hc), List.cons_append]

theorem restartSave_slabConfig {file : Bytes} (h : restartSave s = some file) :
    entryLine (.slabConfig,
      (s.settings.slabConfig.take (setValMax - 2)).takeWhile (· != 10)) ∈ lines file := by
  obtain ⟨written, hw, rfl⟩ := Option.map_eq_some_iff.mp h
  rw [metaSaveCb, List.mapM_cons] at hw
  obtain ⟨first, hf, hr⟩ := Option.bind_eq_some_iff.mp hw
  obtain ⟨others, -, hc⟩ := Option.bind_eq_some_iff.mp hr
  obtain rfl : first :: others = written := Option.some.inj hc
  rw [restartSetKv] at hf
  split at hf
  · cases hf
  cases hf
  obtain ⟨t', ht'⟩ := exists_first_line
    (s.settings.slabConfig.take (setValMax - 2)) others.flatten
  have hpl : 10 ∉ entryLine (.slabConfig,
      (s.settings.slabConfig.take (setValMax - 2)).takeWhile (· != 10)) := by
    obtain ⟨-, -, hn, -⟩ := MetaKey.slabConfig.name_ok
    simp only [entryLine, List.cons_append, List.mem_cons, List.mem_append, not_or]
    refine ⟨by decide, hn, by decide, fun hm => ?_⟩
    exact absurd (List.mem_takeWhile_imp hm) (by decide)
  have hfi : ascii "Tmain\n" ++ ((75 :: MetaKey.slabConfig.name ++
        32 :: s.settings.slabConfig.take (setValMax - 2) ++ [10]) :: others).flatten =
      ascii "Tmain" ++ 10 :: (entryLine (.slabConfig,
        (s.settings.slabConfig.take (setValMax - 2)).takeWhile (· != 10)) ++ 10 :: t') := by
    rw [List.flatten_cons, List.append_assoc, List.singleton_append, List.append_assoc,
      List.cons_append, List.cons_append, ht']
    simp only [entryLine, List.append_assoc, List.cons_append]
    rfl
  rw [hfi, lines, splitLines_line (by decide), splitLines_line hpl]
  exact List.mem_cons_of_mem _ (.head _)

theorem RoundTrips.plain (h : RoundTrips s gap) : Plain s.settings.slabConfig := by
  obtain ⟨file, m, hs, hch, -⟩ := h
  have hsu : (s.settings.slabConfig.take (setValMax - 2)).takeWhile (· != 10) ⊆
      s.settings.slabConfig :=
    fun c hc => List.mem_of_mem_take (List.takeWhile_subset _ hc)
  have ho := restartCheck_accepts hch _ (restartSave_slabConfig hs)
  obtain ⟨-, -, -, hk⟩ := MetaKey.slabConfig.name_ok
  obtain ⟨m', hv⟩ := ho _ _ _
    (restartGetKv_entryLine .slabConfig fun hm => s.settings.slabConfig_cstr (hsu hm)) hk
  have he : (s.settings.slabConfig.take (setValMax - 2)).takeWhile (· != 10) =
      s.settings.slabConfig := by
    by_contra hn
    rw [check, if_neg hn] at hv
    cases hv
  refine ⟨s.settings.slabConfig_cstr, fun hm => ?_, ?_⟩
  · rw [← he] at hm
    exact absurd (List.mem_takeWhile_imp hm) (by decide)
  · rw [← he]
    exact le_trans (List.takeWhile_sublist _).length_le (List.length_take_le _ _)

theorem RoundTrips.maxbytes_signed (h : RoundTrips s gap) : s.settings.maxbytes < 2 ^ 63 := by
  have hpl := h.plain
  obtain ⟨file, m, hs, hc, -⟩ := h
  obtain rfl := Option.some.inj (hs.symm.trans (restartSave_plain hpl))
  have hm : entryLine (.maxbytes, itoaU64 s.settings.maxbytes) ∈
      lines (ascii "Tmain" ++
        10 :: ((metaSaveCb s).map fun e => entryLine e ++ [10]).flatten) := by
    rw [lines, splitLines_saved hpl]
    exact List.mem_cons_of_mem _ (List.mem_map_of_mem (by simp [metaSaveCb]))
  obtain ⟨-, -, -, hk⟩ := MetaKey.maxbytes.name_ok
  obtain ⟨m', hv⟩ := restartCheck_accepts hc _ hm _ _ _
    (restartGetKv_entryLine .maxbytes (plain_itoaU64 s.settings.maxbytes_lt).1) hk
  by_contra hlarge
  rw [check, safeStrtoll_large (by omega)] at hv
  cases hv

theorem restartedTime_savedMeta (s : ServerState) (gap : ℕ) (ts : ℤ) :
    restartedTime (savedMeta s gap) ts = (s.currentTime + gap) % 2 ^ 32 := by
  simp only [restartedTime, savedMeta]
  omega

theorem roundTrips_iff (hg : 0 < gap) : RoundTrips s gap ↔ Saveable s := by
  constructor
  · intro h
    have hpl := h.plain
    have hm := h.maxbytes_signed
    obtain ⟨file, m, hs, hc, hca, -⟩ := h
    obtain rfl := Option.some.inj (hs.symm.trans (restartSave_plain hpl))
    rw [restartCheck_saved hpl hm hg] at hc
    obtain rfl : savedMeta s gap = m := by
      cases hc
      rfl
    have hle : s.casId ≤ (s.casId + 1) % 2 ^ 64 := hca s.casId le_rfl
    have hlt := s.casId_lt
    exact ⟨hpl.2.1, hpl.2.2, hm, by omega⟩
  · rintro ⟨hl, hlen, hm, hca⟩
    have hpl : Plain s.settings.slabConfig := ⟨s.settings.slabConfig_cstr, hl, hlen⟩
    refine ⟨_, _, restartSave_plain hpl, restartCheck_saved hpl hm hg, ?_, rfl, rfl, rfl,
      rfl, restartedTime_savedMeta s gap⟩
    intro cas hle
    show cas ≤ (s.casId + 1) % 2 ^ 64
    omega

/-- A saved file is accepted after any positive time, and gives back what was saved, if and
only if the saved state fits the file; and an accepted file has all keys with values that
can be read and match if and only if it names as many different keys as are required, which
it does if none is repeated. -/
theorem restart_metadata_iff (s : ServerState) (gap : ℕ) (hgap : 0 < gap) (S : Settings) (now : ℤ)
    (file : Bytes) :
    (RoundTrips s gap ↔ Saveable s) ∧
      ∀ m, restartCheck S now file = some (.accepted m) →
        ((∀ k, HasValue S now file k) ↔ requiredMeta ≤ (namedKeys file).toFinset.card) ∧
          ((namedKeys file).Nodup → ∀ k, HasValue S now file k) :=
  ⟨roundTrips_iff hgap, fun _ h => ⟨complete_iff h, complete_of_nodup h⟩⟩

def defaultSettings : Settings where
  slabConfig := ascii "1.25"
  maxbytes := 67108864
  chunkSize := 48
  itemSizeMax := 1048576
  slabChunkSizeMax := 524288
  slabPageSize := 1048576
  useCas := true
  slabReassign := true
  slabConfig_cstr := by decide
  maxbytes_lt := by decide
  chunkSize_lt := by decide
  itemSizeMax_lt := by decide
  slabChunkSizeMax_lt := by decide
  slabPageSize_lt := by decide

def stoppedServer : ServerState where
  settings := defaultSettings
  currentTime := 3600
  processStarted := 1700000000
  stopTime := 1700003600
  casId := 250
  oldestCas := 17
  loggerGid := 4
  hashPowerLevel := 16
  oldestLive := 30
  mmapBase := 140352256180224
  currentTime_lt := by decide
  processStarted_lt := by decide
  stopTime_lt := by decide
  casId_lt := by decide
  oldestCas_lt := by decide
  loggerGid_lt := by decide
  hashPowerLevel_lt := by decide
  oldestLive_lt := by decide
  mmapBase_lt := by decide
  mmapBase_pos := by decide

theorem restart_metadata_iff_hour :
    RoundTrips stoppedServer 20 ∧ ∃ file m,
      restartCheck defaultSettings (1700003600 + 20) file = some (.accepted m) ∧
        ∀ k, HasValue defaultSettings (1700003600 + 20) file k := by
  have ht : RoundTrips stoppedServer 20 :=
    (restart_metadata_iff stoppedServer 20 (by decide) defaultSettings 0 []).1.mpr
      ⟨by decide, by decide, by decide, by decide⟩
  refine ⟨ht, ?_⟩
  obtain ⟨file, m, hs, hc, -⟩ := ht
  have hk : (restartSave stoppedServer).map
      (fun file => decide (requiredMeta ≤ (namedKeys file).toFinset.card)) = some true := by
    decide +kernel
  rw [hs] at hk
  have hco := (restart_metadata_iff stoppedServer 20 (by decide) _ _ file).2 m hc
  exact ⟨file, m, hc, hco.1.mpr (of_decide_eq_true (Option.some.inj hk))⟩

def repeatedKey : Bytes :=
  ascii "Tmain\n" ++ (List.replicate 17 (ascii "Kuse_cas true\n")).flatten

/-- A file is accepted that has neither the memory limit, nor the slab sizes, nor the base
address. -/
theorem repeated_key_accepted :
    restartCheck defaultSettings 1700003620 repeatedKey = some (.accepted {}) ∧
      ¬HasValue defaultSettings 1700003620 repeatedKey .maxbytes ∧
      ¬HasValue defaultSettings 1700003620 repeatedKey .slabConfig ∧
      ¬HasValue defaultSettings 1700003620 repeatedKey .mmapOldbase := by
  have hke : namedKeys repeatedKey = List.replicate 17 .useCas := by decide +kernel
  have hn : ∀ k, k ≠ .useCas → ¬HasValue defaultSettings 1700003620 repeatedKey k := by
    intro k hk hv
    have hm := hv.named
    rw [hke] at hm
    exact hk (List.eq_of_mem_replicate hm)
  exact ⟨by decide +kernel, hn _ (by decide), hn _ (by decide), hn _ (by decide)⟩

end Memcached.Restart
