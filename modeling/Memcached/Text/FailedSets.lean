import Memcached.Items.ChunkCopy
import Memcached.Items.Flush
import Memcached.Text.MetaErrors
import Memcached.Text.MetaSet

/-!
# Sets that fail (`memcached.c`, `proto_text.c`)

A set for which there is no memory is answered with `SERVER_ERROR`. When the item cannot be
allocated, the item that the key has is unlinked, so that nobody gets a value that the
client wanted to replace. A large value is kept in chunks, which are allocated while the
data block is read; when one of these allocations fails, nothing is unlinked.

Results:
* `failed_set_forgets_iff`: when the old value is gone after a failed set
* `failed_upload_keeps_value`: a set that fails and leaves it
-/

namespace Memcached.Text

open Lib Items Util Proto

variable {Addr : Type*} [DecidableEq Addr] [Fintype Addr]

/-! ## Reading a data block -/

/-- How `read_into_chunked_item` ends: with the chunks, or without memory for a chunk and
with `rlbytes` bytes to come. -/
inductive ReadResult where
  | done (d : Dest)
  | noMemory (rlbytes : ℕ)
  | outOfFuel
deriving DecidableEq

/-- `read_into_chunked_item` (lines 3085-3143) for the text protocol: `ritem`
is the chunk `dch`, and `rest` the bytes of the data block that are still to come. -/
def readIntoChunkedItem (max : ℕ) (room : ℕ → Bool × Bool) :
    (fuel : ℕ) → (d : Dest) → (rest : Bytes) → ReadResult
  | fuel, d, rest =>
    if rest = [] then .done d
    else
      match fuel with
      | 0 => .outOfFuel
      | fuel + 1 =>
        if d.dch.Full then
          match doItemAllocChunk max rest.length (room fuel) with
          | none => .noMemory rest.length
          | some c => readIntoChunkedItem max room fuel (d.push c) rest
        else
          let unused := d.dch.size - d.dch.data.length
          readIntoChunkedItem max room fuel (d.write (rest.take unused)) (rest.drop unused)

/-- The internal chunk of a new item (`items.c`, lines 348-357) has no room. -/
def newChain : Dest := ⟨[], ⟨0, []⟩, []⟩

/-- `conn_nread` (lines 3371-3458) when the data block has come as a whole, or
as much of it as is needed to fail. The item of the upload is given back when the
rest of the block has been swallowed (`reset_cmd_handler`). -/
def connNread (S : TextSettings) (env : Env Addr) (room : ℕ → Bool × Bool) (s : Store Addr)
    (u : Upload Addr) (data : Bytes) : Answer Addr :=
  if (s.items u.item).flags.chunked then
    match readIntoChunkedItem S.slabChunkSizeMax room (2 * data.length) newChain data with
    | .done d => completeNreadAscii S env s u (chainBytes d.chain)
    | .noMemory rlbytes =>
      { store := releaseRef s u.item
        resp := outResp u.noreply (ascii "SERVER_ERROR Out of memory during read")
        next := .swallow rlbytes }
    | .outOfFuel => { store := s, resp := {}, next := .nread u }
  else completeNreadAscii S env s u data

/-! ## Requests -/

/-- The commands that set a key: `set`, and `ms`, whose mode is not looked at when it
fails. -/
inductive SetCommand where
  | set
  | ms
deriving DecidableEq

/-- The answer to the command line. -/
def setAnswer (S : Settings) (env : Env Addr) (s : Store Addr) (t : Tokens) :
    SetCommand → Answer Addr
  | .set => processUpdateCommand S env s t .set false
  | .ms => processMsetCommand S env s t

def setKey (S : Settings) (s : Store Addr) (t : Tokens) : SetCommand → Bytes
  | .set => t.tok 1
  | .ms =>
    match metaFlagPreparse (realtime S s) t 3 {} with
    | .ok (_, key) => key
    | .error _ => t.tok 1

/-- The answer to the request, whose data block is read when the store is `s1`. -/
def setRequest (S : TextSettings) (env : Env Addr) (room : ℕ → Bool × Bool) (s : Store Addr)
    (t : Tokens) (cmd : SetCommand) (s1 : Store Addr) (data : Bytes) : Answer Addr :=
  match (setAnswer S.toSettings env s t cmd).next with
  | .nread u => connNread S env room s1 u data
  | _ => setAnswer S.toSettings env s t cmd

/-- The store when the data block of an upload is read. Other threads have done what they
wanted, and the item of the upload is still held. -/
structure Waiting (S : Settings) (s : Store Addr) (u : Upload Addr) : Prop where
  inv : Inv S s
  low : CountersLow s
  cas : S.useCas = true → CasInv s
  held : 0 < s.refs u.item

def ServerError (ans : Answer Addr) : Prop := ascii "SERVER_ERROR" <+: ans.resp.bytes

instance (ans : Answer Addr) : Decidable (ServerError ans) :=
  inferInstanceAs (Decidable (_ <+: _))

/-- Until the key is stored again, no lookup finds an item under it, whatever steps are
made that meet the condition. -/
def Forgotten (S : Settings) (ok : Store Addr → Op Addr → Prop) (key : Bytes) (s : Store Addr) :
    Prop :=
  ∀ l s', (system Addr S).Steps (fun t op => ok t op ∧ ¬StoresKey S t op key) s l s' →
    CountsLow s' → ∀ doUpdate room, (doItemGet S s' key doUpdate room).2 = none

/-! ## Answers that are no server errors -/

/-- A text that starts with a `C`, as `CLIENT_ERROR` does, and fits into a response. -/
def ClientText (text : Bytes) : Prop := text.head? = some 67 ∧ text.length ≤ 64

instance (text : Bytes) : Decidable (ClientText text) := inferInstanceAs (Decidable (_ ∧ _))

theorem ClientText.not_server {text : Bytes} (h : ClientText text) :
    ¬ascii "SERVER_ERROR" <+: outLine text := by
  obtain ⟨hh, hle⟩ := h
  have hl : outLine text = text ++ ascii "\r\n" := by
    unfold outLine writeBufferSize
    rw [if_neg (by omega)]
  rintro ⟨rest, he⟩
  have hf := congrArg List.head? he
  rw [hl, List.head?_append, List.head?_append, hh] at hf
  simp [ascii] at hf

theorem errstr_number {α : Type} {p : Preparse} {arg : Option α} {errstr : Bytes}
    {set : MetaFlags → α → MetaFlags} (hp : ClientText p.errstr) (he : ClientText errstr) :
    ClientText (p.number arg errstr set).errstr := by
  unfold Preparse.number
  cases arg with
  | none => exact he
  | some n => exact hp

theorem errstr_flag {realtime : ℕ → ℕ} {p p' : Preparse} {o : UInt8} {token : Bytes}
    (hp : ClientText p.errstr) (h : p.flag realtime o token = some p') : ClientText p'.errstr := by
  unfold Preparse.flag at h
  simp only at h
  split at h <;> try split_ifs at h
  all_goals cases h
  all_goals first
    | exact errstr_number hp (by decide)
    | exact errstr_number hp hp
    | (simp only [Preparse.fail]; decide)
    | exact hp

theorem preparseLoop_error {realtime : ℕ → ℕ} {tokens : List Bytes} {seen : List UInt8}
    {p : Preparse} {e : Bytes} (hp : ClientText p.errstr)
    (h : preparseLoop realtime tokens seen p = .error e) : ClientText e := by
  induction tokens generalizing seen p with
  | nil =>
    unfold preparseLoop at h
    split_ifs at h
    cases h
    exact hp
  | cons token tokens ih =>
    unfold preparseLoop at h
    simp only at h
    split_ifs at h
    · cases h
      decide
    rcases hf : p.flag realtime (token.headD 0) token with _ | p'
    · rw [hf] at h
      cases h
      decide
    · rw [hf] at h
      exact ih (errstr_flag hp hf) h

/-- What is known of a line of `ms`: the answers are no server errors, and an item is allocated
for the key of the line. -/
theorem parseMset_spec (realtime : ℕ → ℕ) (t : Tokens) :
    match parseMset realtime t with
    | .reply text | .swallow _ text => ¬ascii "SERVER_ERROR" <+: outLine text
    | .upload _ of key _ => metaFlagPreparse realtime t 3 {} = .ok (of, key) := by
  have hbad : ¬ascii "SERVER_ERROR" <+: outLine badLine := by decide
  unfold parseMset
  by_cases h1 : t.ntokens < 3
  · rw [if_pos h1]
    dsimp only
    decide
  by_cases h2 : (t.tok 1).length > keyMaxLength
  · rwa [if_neg h1, if_pos h2]
  by_cases h3 : t.ntokens = 3
  · rwa [if_neg h1, if_neg h2, if_pos h3]
  rw [if_neg h1, if_neg h2, if_neg h3]
  by_cases h4 : t.ntokens > mflagMaxOptLength
  · rw [if_pos h4]
    dsimp only
    decide
  rw [if_neg h4]
  obtain _ | vlen := safeStrtol (t.tok 2)
  · exact hbad
  dsimp only
  by_cases h5 : vlen < 0 ∨ vlen > intMax - 2
  · rwa [if_pos h5]
  rw [if_neg h5]
  rcases hp : metaFlagPreparse realtime t 3 {} with e | ⟨of, key⟩
  · have he : ClientText e := preparseLoop_error (by decide : ClientText badLine) hp
    exact he.not_server
  dsimp only
  obtain _ | comm := Proto.msetComm of
  · dsimp only
    decide
  dsimp only
  split_ifs
  · dsimp only
    decide
  · rfl

omit [DecidableEq Addr] [Fintype Addr] in
theorem not_serverError_outResp {text : Bytes} (h : ¬ascii "SERVER_ERROR" <+: outLine text)
    (noreply : Bool) (s : Store Addr) (next : Next Addr) :
    ¬ServerError { store := s, resp := outResp noreply text, next := next } := by
  unfold ServerError outResp
  cases noreply with
  | false => exact h
  | true => simp [ascii]

theorem not_serverError_completeNreadAscii (S : TextSettings) (env : Env Addr) (s : Store Addr)
    (u : Upload Addr) (data : Bytes) : ¬ServerError (completeNreadAscii S env s u data) := by
  unfold completeNreadAscii completeChecked
  split_ifs
  swap
  · exact not_serverError_outResp (by decide) _ _ _
  rcases doStoreItem S.toSettings (setData s u.item data) u.item u.cmd u.setStale env.rounds'
    env.copy with ⟨s1, ret, cas⟩
  have ht : ∀ ret, ¬ascii "SERVER_ERROR" <+: outLine (storedText ret) := by
    intro ret
    cases ret <;> decide
  cases u.msetRes with
  | none => exact not_serverError_outResp (ht ret) _ _ _
  | some stash =>
    unfold ServerError finalizeMset
    cases ret <;> cases S.metaResponseOld <;> simp [ascii]

/-! ## Failures -/

variable {S : TextSettings} {s s1 : Store Addr} {env : Env Addr} {t : Tokens}

def NoItem (s : Store Addr) (key : Bytes) : Prop := ∀ b, s.Linked b → s.key b ≠ key

variable {key : Bytes}

omit [DecidableEq Addr] [Fintype Addr] in
theorem NoItem.missing (h : NoItem s key) : s.Missing key :=
  fun b hb hk => absurd hk (h b hb)

theorem noItem_dropItem {S : Settings} (h : Inv S s) (hlt : CountsLow s) (key : Bytes) :
    Inv S (dropItem S s key) ∧ NoItem (dropItem S s key) key := by
  obtain hm | ⟨a, hh⟩ := missing_or_hit s key
  · obtain ⟨s', hge, hq, -, -, hg⟩ := doItemGet_of_missing h hlt hm false false
    have he : dropItem S s key = s' := by rw [dropItem, processDelete, hge]
    rw [he]
    refine ⟨hq.inv, fun b hb hk => hg b hb ?_⟩
    have hc := hq.content b (hq.inv.not_slabbed_of_linked hb)
    exact (Item.key_eq hc).symm.trans hk
  obtain ⟨s', hd, -, hp, hl⟩ := processDelete_of_hit h hlt hh
  have he : dropItem S s key = s' := by rw [dropItem, hd]
  rw [he]
  refine ⟨hp.inv, fun b hb hk => ?_⟩
  obtain ⟨hb', hc, -⟩ := hp.linked b hb
  have hkb : s.key b = key := (Item.key_eq hc).symm.trans hk
  obtain rfl := h.eq_of_key hb' hh.linked (hkb.trans hh.key.symm)
  exact hl hb

theorem setAnswer_serverError (hi : Inv S.toSettings s) (hl : CountsLow s) {cmd : SetCommand}
    (her : ServerError (setAnswer S.toSettings env s t cmd)) :
    Inv S.toSettings (setAnswer S.toSettings env s t cmd).store ∧
      NoItem (setAnswer S.toSettings env s t cmd).store (setKey S.toSettings s t cmd) := by
  have hd : ∀ {key : Bytes} {flags exptime nbytes : ℕ} {s' : Store Addr},
      doItemAlloc S.toSettings s key flags exptime nbytes env.rounds = (s', none) →
      Inv S.toSettings (dropItem S.toSettings s' key) ∧
        NoItem (dropItem S.toSettings s' key) key := by
    intro key flags exptime nbytes s' ha
    obtain ⟨hpu, hl'⟩ := doItemAlloc_none hi hl ha
    exact noItem_dropItem hpu.inv hl' key
  have hem : ¬ascii "SERVER_ERROR" <+: ([] : Bytes) := by decide
  have ho : ∀ {ans : Answer Addr} {P : Prop}, ¬ServerError ans → ServerError ans → P :=
    fun h h' => absurd h' h
  revert her
  cases cmd with
  | set =>
    unfold setAnswer setKey processUpdateCommand
    simp only
    obtain _ | line := parseUpdate t false
    · exact ho (not_serverError_outResp (by decide) _ _ _)
    simp only
    rcases ha : updateAlloc S.toSettings env s t line with ⟨s', _ | it⟩
    · simp only [if_true]
      exact fun _ => hd ha
    · exact ho hem
  | ms =>
    unfold setAnswer setKey processMsetCommand
    have hp := parseMset_spec (realtime S.toSettings s) t
    simp only
    rcases hl : parseMset (realtime S.toSettings s) t with
      text | ⟨vlen, text⟩ | ⟨vlen, of, key, comm⟩ <;> rw [hl] at hp
    · exact ho (not_serverError_outResp hp _ _ _)
    · exact ho (not_serverError_outResp hp _ _ _)
    have hk : metaFlagPreparse (realtime S.toSettings s) t 3 {} = .ok (of, key) := hp
    rw [hk]
    simp only
    rcases ha : doItemAlloc S.toSettings s key of.clientFlags of.exptime vlen env.rounds with
      ⟨s', _ | it⟩
    · exact fun _ => hd ha
    · exact ho hem

theorem NoItem.forgotten {S : Settings} (hi : Inv S s) (h : NoItem s key) :
    Forgotten S (fun t _ => CountsLow t) key s := by
  intro l s' hs hlt doUpdate room
  obtain ⟨hi', hn⟩ := hs.induct (P := fun t => Inv S t ∧ NoItem t key) ⟨hi, h⟩
    fun {t op u r} ⟨hi, hn⟩ ⟨hlt, hsto⟩ hst => by
      refine ⟨step_inv hi hlt hst, fun b hb hk => ?_⟩
      obtain ⟨hl, hkb, -⟩ := step_keyed hi hlt hsto hn.missing hst hb hk
      exact hn b hl hkb
  obtain ⟨_, he, -⟩ := doItemGet_of_missing hi' hlt hn.missing doUpdate room
  rw [he]

theorem Forgotten.mono {S : Settings} {ok ok' : Store Addr → Op Addr → Prop}
    (h : Forgotten S ok key s) (hok : ∀ t op, ok' t op → ok t op) : Forgotten S ok' key s :=
  fun l s' hs => h l s' (hs.mono fun t op ⟨ho, hst⟩ => ⟨hok t op ho, hst⟩)

theorem forgotten_of_missing {S : Settings} (hi : Inv S s)
    (hc : S.useCas = true → CasInv s) (h : s.Missing key) : Forgotten S (FlushOk S) key s := by
  intro l s' hs hl doUpdate room
  obtain ⟨hi', -, hm⟩ := hs.induct
    (P := fun t => Inv S t ∧ (S.useCas = true → CasInv t) ∧ t.Missing key) ⟨hi, hc, h⟩
    fun {t op u r} ⟨hi, hc, hm⟩ ⟨ho, hsto⟩ hst =>
      ⟨step_inv hi ho.1.1 hst,
        fun hu => (step_tokens hi (hc hu) hu ho.1 hst).casInv (hc hu),
        step_missing hi hc ho hsto hst hm⟩
  obtain ⟨_, he, -⟩ := doItemGet_of_missing hi' hl hm doUpdate room
  rw [he]

theorem countsLow_releaseRef {S : Settings} {a : Addr} (h : Inv S s) (hl : CountsLow s)
    (hr : 0 < s.refs a) : CountsLow (releaseRef s a) := by
  intro b
  have hb := hl b
  rw [(releaseRef_eq h hr).1]
  split_ifs with hba
  · subst hba
    unfold Item.released
    split_ifs <;> simp only <;> omega
  · exact hb

theorem hit_releaseRef {S : Settings} {a b : Addr} (h : Inv S s)
    (hr : 0 < s.refs b) (hh : s.Hit key a) : (releaseRef s b).Hit key a := by
  have hq := releaseRef_quiet h hr
  have hl : (releaseRef s b).Linked a := (hq.lost a hh.linked).resolve_right id
  obtain ⟨-, hc, ht⟩ := hq.published.linked a hl
  refine ⟨hl, (Item.key_eq hc).trans hh.key, fun hd => hh.live ?_⟩
  unfold Store.Dead at hd ⊢
  rwa [itemIsFlushed_congr hq.clock ht (Item.proj_eq Item.getCas hc), Item.expiredAt,
    (Item.proj_eq Item.exptime hc :), currentTime_of_clock hq.clock] at hd

theorem forgotten_releaseRef_iff {S : Settings} {u : Upload Addr} (hw : Waiting S s1 u) :
    Forgotten S (FlushOk S) key (releaseRef s1 u.item) ↔ s1.Missing key := by
  have hs : step S s1 (.remove u.item) = some (releaseRef s1 u.item, .done) := if_pos hw.held
  have hq := releaseRef_quiet hw.inv hw.held
  have hl' : CountsLow (releaseRef s1 u.item) := countsLow_releaseRef hw.inv hw.low.1 hw.held
  constructor
  · intro hf
    obtain hm | ⟨a, hh⟩ := missing_or_hit s1 key
    · exact hm
    have hh' : (releaseRef s1 u.item).Hit key a := hit_releaseRef hw.inv hw.held hh
    obtain ⟨_, he, -⟩ := doItemGet_of_hit hq.inv hl' hh' false false
    have hn := hf [] _ .refl hl' false false
    rw [he] at hn
    cases hn
  · intro hm
    have ho : FlushOk S s1 (.remove u.item) := ⟨hw.low, trivial⟩
    exact forgotten_of_missing hq.inv
      (fun hu => (step_tokens hw.inv (hw.cas hu) hu hw.low hs).casInv (hw.cas hu))
      (step_missing hw.inv hw.cas ho id hs hm)

theorem connNread_serverError {room : ℕ → Bool × Bool} {u : Upload Addr} {data : Bytes}
    (he : ServerError (connNread S env room s1 u data)) :
    (connNread S env room s1 u data).store = releaseRef s1 u.item := by
  revert he
  unfold connNread
  by_cases hc : (s1.items u.item).flags.chunked = true
  · rw [if_pos hc]
    cases readIntoChunkedItem S.slabChunkSizeMax room (2 * data.length) newChain data with
    | done d => exact fun he => absurd he (not_serverError_completeNreadAscii S env s1 u _)
    | noMemory rlbytes => exact fun _ => rfl
    | outOfFuel => exact fun he => absurd he (by decide : ¬ascii "SERVER_ERROR" <+: [])
  · rw [if_neg hc]
    exact fun he => absurd he (not_serverError_completeNreadAscii S env s1 u _)

/-- **Failed sets.** For every store, every `set` or `ms`, whatever memory it finds and
whatever other threads do before its data block is read: when the request is answered
with a server error at its line, no lookup finds an item under the key until it is stored
again. In all cases, and for later steps that meet the condition on flushes and bumps,
that is so exactly when the request failed at its line or the key had no live item
when its data block failed. -/
theorem failed_set_forgets_iff (hinv : Inv S.toSettings s) (hlt : CountsLow s) (env : Env Addr)
    (room : ℕ → Bool × Bool) (t : Tokens) (cmd : SetCommand) (data : Bytes)
    (hwait : ∀ u, (setAnswer S.toSettings env s t cmd).next = .nread u →
      Waiting S.toSettings s1 u)
    (herr : ServerError (setRequest S env room s t cmd s1 data)) :
    let s' := (setRequest S env room s t cmd s1 data).store
    let key := setKey S.toSettings s t cmd
    let atLine := ∀ u, (setAnswer S.toSettings env s t cmd).next ≠ .nread u
    (atLine → Forgotten S.toSettings (fun t _ => CountsLow t) key s') ∧
      (Forgotten S.toSettings (FlushOk S.toSettings) key s' ↔ atLine ∨ s1.Missing key) := by
  intro s' key atLine
  by_cases hl : atLine
  · have hr : setRequest S env room s t cmd s1 data = setAnswer S.toSettings env s t cmd := by
      unfold setRequest
      rcases hn : (setAnswer S.toSettings env s t cmd).next with _ | _ | u | n
      · rfl
      · rfl
      · exact absurd hn (hl u)
      · rfl
    have hs' : s' = (setAnswer S.toSettings env s t cmd).store := congrArg Answer.store hr
    rw [hr] at herr
    obtain ⟨hi', hno⟩ := setAnswer_serverError hinv hlt herr
    rw [← hs'] at hi' hno
    have hf := hno.forgotten hi'
    exact ⟨fun _ => hf, iff_of_true (hf.mono fun _ _ ho => ho.1.1) (.inl hl)⟩
  · obtain ⟨u, hn⟩ : ∃ u, (setAnswer S.toSettings env s t cmd).next = .nread u := by
      simpa [atLine] using hl
    have hr : setRequest S env room s t cmd s1 data = connNread S env room s1 u data := by
      simp only [setRequest, hn]
    have hs' : s' = (connNread S env room s1 u data).store := congrArg Answer.store hr
    rw [hr] at herr
    rw [connNread_serverError herr] at hs'
    refine ⟨fun h => absurd h hl, ?_⟩
    rw [hs', forgotten_releaseRef_iff (hwait u hn), or_iff_right hl]

/-- The key `k` has a value and there is no memory: `set k 0 0 1` fails at its line, and the
value is not found again. -/
theorem failed_set_forgets_iff_line : ∃ s : Store (Fin 1),
    (system (Fin 1) smallSettings).Reachable (fun s _ => CountsLow s) s ∧ s.Linked 0 ∧
    ServerError (setRequest textSettings noMemory (fun _ => (false, false)) s
      (classicLine .set storeV) .set s (ascii "v\r\n")) ∧
    Forgotten smallSettings (fun t _ => CountsLow t) (ascii "k")
      (setRequest textSettings noMemory (fun _ => (false, false)) s (classicLine .set storeV) .set
        s (ascii "v\r\n")).store := by
  have hi := emptyStore_reachable 1 smallSettings fun s _ => CountsLow s
  obtain ⟨s, he, hlo, hl, her, hn⟩ := hi.exists_of_exec
    (storeOps 0 (ascii "k") (ascii "a\r\n") 0 .set 0) (p := fun s => CountsLow s ∧ s.Linked 0 ∧
      ServerError (setRequest textSettings noMemory (fun _ => (false, false)) s
        (classicLine .set storeV) .set s (ascii "v\r\n")) ∧
      (setAnswer smallSettings noMemory s (classicLine .set storeV) .set).next = .swallow 3)
    (by decide +kernel)
  have hr := he
  have hli : ∀ u, (setAnswer smallSettings noMemory s (classicLine .set storeV) .set).next ≠
      .nread u := fun u hu => by
    rw [hn] at hu
    cases hu
  have hs := failed_set_forgets_iff (S := textSettings) (reachable_inv (fun _ _ => id) hr) hlo
    noMemory (fun _ => (false, false)) (classicLine .set storeV) .set (ascii "v\r\n")
    (fun u hu => absurd hu (hli u)) her
  exact ⟨s, hr, hl, her, hs.1 hli⟩

def chunkTextSettings : TextSettings := { chunkSettings with metaResponseOld := false }

/-- A request for the key `k` with a value of 100 bytes; there is memory for its header. -/
def largeSet : Tokens := ⟨[ascii "set", ascii "k", ascii "0", ascii "0", ascii "100"], none⟩

def headerOnly : Env (Fin 2) := ⟨fun _ => true, slabAt 1, slabAt 1, {}⟩

/-- The key `k` has the value `a`. The header of a large value is allocated and the first of
its chunks is not: `set k 0 0 100` is answered with an error, and the next lookup gives
the old value. -/
theorem failed_upload_keeps_value : ∃ s : Store (Fin 2),
    (system (Fin 2) chunkSettings).Reachable (fun s _ => CountsLow s) s ∧
    s.Hit (ascii "k") 0 ∧ (s.items 0).data = ascii "a\r\n" ∧
    let s1 := (setAnswer chunkSettings headerOnly s largeSet .set).store
    let ans := setRequest chunkTextSettings headerOnly (fun _ => (false, false)) s largeSet .set s1
      (List.replicate 100 98 ++ ascii "\r\n")
    (setAnswer chunkSettings headerOnly s largeSet .set).next =
      .nread { item := 1, rlbytes := 102, cmd := .set, noreply := false } ∧
    ans.resp.bytes = ascii "SERVER_ERROR Out of memory during read\r\n" ∧
    (doItemGet chunkSettings ans.store (ascii "k") true true).2 = some 0 ∧
    (ans.store.items 0).data = ascii "a\r\n" := by
  exact (emptyStore_reachable 2 _ _).exists_of_exec
    (storeOps 0 (ascii "k") (ascii "a\r\n") 0 .set 0) (by decide +kernel)

end Memcached.Text
