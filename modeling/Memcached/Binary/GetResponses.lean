import Memcached.Util.Numbers

/-!
# Responses to binary gets (`proto_bin.c`, `storage.c`)

A hit is laid out as a header, the client flags, the key if the opcode returns it, and the
value. For a value in external storage a callback of the storage thread turns the response
into a miss if the read fails. It takes the buffer before the value for the flags, also
when that is the key. When the read cannot be set up, a quiet get sends what is laid out.

Results:
* `get_response_framed_iff`: when the header of a response agrees with what is sent
-/

namespace Memcached.Binary

/-! ## Responses -/

/-- What a buffer of a response holds. -/
inductive Part where
  | header
  | flags
  | key
  | value
deriving DecidableEq

/-- `struct iovec`, with what its memory holds. -/
structure RespIov where
  part : Part
  len : ℕ
deriving DecidableEq

/-- `protocol_binary_response_header`, the fields that say what follows. -/
structure ResponseHeader where
  status : ℕ := 0
  extlen : ℕ := 0
  keylen : ℕ := 0
  bodylen : ℕ := 0
deriving DecidableEq

/-- `mc_resp` (`memcached.h`, lines 746-777) with a binary response in it. -/
structure BinResp where
  header : ResponseHeader := {}
  iov : List RespIov := []
  tosend : ℤ := 0
  chunkedDataIov : ℕ := 0
  chunkedTotal : ℕ := 0
  skip : Bool := false
deriving DecidableEq

/-- `sizeof(protocol_binary_response_header)` -/
def headerLen : ℕ := 24

/-- `sizeof(rsp->message.body)` of a get response: the flags. -/
def flagsLen : ℕ := 4

/-- `PROTOCOL_BINARY_RESPONSE_KEY_ENOENT` -/
def keyEnoent : ℕ := 1

/-- `resp_add_iov` (`memcached.c`, lines 1212-1219). -/
def respAddIov (r : BinResp) (part : Part) (len : ℕ) : BinResp :=
  { r with iov := r.iov ++ [⟨part, len⟩], tosend := r.tosend + len }

/-- `resp_add_chunked_iov` (`memcached.c`, lines 1224-1228). -/
def respAddChunkedIov (r : BinResp) (part : Part) (len : ℕ) : BinResp :=
  respAddIov { r with chunkedDataIov := r.iov.length, chunkedTotal := len } part len

/-- `add_bin_header` (lines 135-171), which resets the response first; the
lengths are cut to the widths of their fields. -/
def addBinHeader (err hdrLen keyLen bodyLen : ℕ) : BinResp :=
  respAddIov
    { header := { status := err, extlen := hdrLen % 2 ^ 8, keylen := keyLen % 2 ^ 16
                  bodylen := bodyLen % 2 ^ 32 } }
    .header headerLen

/-- `write_bin_error` (lines 179-234): the response; the text is its
value. -/
def writeBinError (err : ℕ) (errstr : Bytes) : BinResp :=
  let r := addBinHeader err 0 0 errstr.length
  if 0 < errstr.length then respAddIov r .value errstr.length else r

/-- `write_bin_miss_response` (lines 437-451). -/
def writeBinMissResponse (nkey : ℕ) : BinResp :=
  if nkey ≠ 0 then respAddIov (addBinHeader keyEnoent 0 nkey nkey) .key nkey
  else writeBinError keyEnoent (ascii "Not found")

/-! ## The get family -/

/-- The opcodes that `process_bin_get_or_touch` serves, after the quiet forms were mapped
to them. -/
inductive GetCmd where
  | get
  | getk
  | gat
  | gatk
  | touch
deriving DecidableEq

/-- `should_return_key` -/
def GetCmd.returnsKey (cmd : GetCmd) : Bool := cmd == .getk || cmd == .gatk

/-- `should_return_value` -/
def GetCmd.returnsValue (cmd : GetCmd) : Bool := cmd != .touch

/-- A request: `quiet` is `c->noreply`. A longer key was refused before. -/
structure GetRequest where
  cmd : GetCmd
  quiet : Bool
  nkey : ℕ
  nkey_pos : 0 < nkey
  nkey_le : nkey ≤ 250

inductive Where where
  | memory
  | chunks
  | storage
deriving DecidableEq

/-- The item that was found, what the response reads of it: `nbytes` is an `int` that
counts the line end after the value. -/
structure FoundItem where
  nbytes : ℕ
  place : Where
  two_le : 2 ≤ nbytes
  lt : nbytes < 2 ^ 31

def FoundItem.vlen (it : FoundItem) : ℕ := it.nbytes - 2

/-- `storage_get_item` (`storage.c`, lines 322-333), where nothing can fail any more: the
place of the value is reserved. -/
def storageGetItem (r : BinResp) (it : FoundItem) (chunked : Bool) : BinResp × ℕ :=
  if chunked then (respAddChunkedIov r .value it.vlen, r.iov.length)
  else (respAddIov r .value it.vlen, r.iov.length)

inductive StorageRead where
  | noSetup
  | hit (chunked : Bool)
  | miss (chunked : Bool)
  | badCrc (chunked : Bool)
deriving DecidableEq

def clearIov (iov : List RespIov) (i : ℕ) : List RespIov :=
  iov.modify i fun v => { v with len := 0 }

/-- `_storage_get_item_cb` (`storage.c`, lines 128-237), for a binary connection;
`iovecData` is the place of the value. -/
def storageGetItemCb (r : BinResp) (iovecData : ℕ) (noreply miss : Bool) : BinResp :=
  if miss then
    if noreply then { r with skip := true }
    else
      let dataLen := (r.iov.getD iovecData ⟨.value, 0⟩).len
      let bodyLen := (r.header.bodylen + 2 ^ 32 - (dataLen + r.header.extlen) % 2 ^ 32) % 2 ^ 32
      { r with
        tosend := r.tosend - (dataLen + r.header.extlen : ℕ)
        header := { r.header with extlen := 0, status := keyEnoent, bodylen := bodyLen }
        iov := clearIov (clearIov r.iov iovecData) (iovecData - 1)
        chunkedDataIov := 0 }
  else r

/-- The response of a hit before its value (lines 488-533). -/
def layOut (req : GetRequest) (it : FoundItem) : BinResp :=
  let bodylen := flagsLen + it.vlen
  let (keylen, bodylen) :=
    if req.cmd = .touch then (0, bodylen - it.vlen)
    else if req.cmd.returnsKey then (req.nkey, bodylen + req.nkey) else (0, bodylen)
  let r := respAddIov (addBinHeader 0 flagsLen keylen bodylen) .flags flagsLen
  if req.cmd.returnsKey then respAddIov r .key req.nkey else r

/-- The response to a request for an item in external storage, after the callback. -/
def readFromStorage (req : GetRequest) (it : FoundItem) (chunked miss : Bool) : BinResp :=
  let r := storageGetItem (layOut req it) it chunked
  storageGetItemCb r.1 r.2 req.quiet miss

/-- The end of `process_bin_get_or_touch` when there is no item or its read could not be
set up (lines 574-598); `r` is the response so far. -/
def getFailed (req : GetRequest) (r : BinResp) : BinResp :=
  if req.quiet then r
  else writeBinMissResponse (if req.cmd.returnsKey then req.nkey else 0)

/-- `process_bin_get_or_touch` (lines 455-603) with the callback of the
storage read: the response of the request. -/
def processBinGetOrTouch (req : GetRequest) (it : Option FoundItem) (read : StorageRead) :
    BinResp :=
  match it with
  | none => getFailed req {}
  | some it =>
    let r := layOut req it
    if req.cmd.returnsValue then
      match it.place with
      | .memory => respAddIov r .value it.vlen
      | .chunks => respAddChunkedIov r .value it.vlen
      | .storage =>
        match read with
        | .noSetup => getFailed req r
        | .hit chunked => readFromStorage req it chunked false
        | .miss chunked | .badCrc chunked => readFromStorage req it chunked true
    else r

/-! ## Framing -/

def sentLen (r : BinResp) : ℕ := (r.iov.map RespIov.len).sum

/-- The number of bytes of the value that are sent. -/
def valueLen (r : BinResp) : ℕ :=
  ((r.iov.filter fun v => v.part = .value).map RespIov.len).sum

def Sent (r : BinResp) : Prop := r.skip = false ∧ r.iov ≠ []

instance (r : BinResp) : Decidable (Sent r) := inferInstanceAs (Decidable (_ ∧ _))

/-- The lengths in the header and in the response agree with what is sent. -/
structure Framed (r : BinResp) : Prop where
  body : r.header.bodylen = r.header.extlen + r.header.keylen + valueLen r
  sent : sentLen r = headerLen + r.header.bodylen
  tosend : r.tosend = sentLen r

/-- The cases in which the header of the response is wrong: a value that is not in storage
any more, for a request that wants the key, unless the key is as long as the flags; and
a quiet request whose read could not be set up, unless the value is empty. -/
def Misframed (req : GetRequest) (it : Option FoundItem) (read : StorageRead) : Prop :=
  ∃ i ∈ it, i.place = .storage ∧
    ((∃ chunked, read = .miss chunked ∨ read = .badCrc chunked) ∧ req.cmd.returnsKey = true ∧
        req.quiet = false ∧ req.nkey ≠ flagsLen ∨
      read = .noSetup ∧ req.cmd ≠ .touch ∧ req.quiet = true ∧ i.vlen ≠ 0)

theorem FoundItem.vlen_lt (it : FoundItem) : it.vlen < 2 ^ 31 :=
  (Nat.sub_le _ _).trans_lt it.lt

theorem layOut_plain {req : GetRequest} (hk : req.cmd.returnsKey = false) (it : FoundItem) :
    layOut req it =
      { header := { extlen := 4, bodylen := 4 + if req.cmd = .touch then 0 else it.vlen }
        iov := [⟨.header, 24⟩, ⟨.flags, 4⟩], tosend := 28 } := by
  have hl := it.vlen_lt
  have hm : (4 + it.vlen) % 2 ^ 32 = 4 + it.vlen := Nat.mod_eq_of_lt (by omega)
  by_cases ht : req.cmd = .touch
  · simp [layOut, ht, addBinHeader, respAddIov, flagsLen, headerLen, GetCmd.returnsKey]
  simp only [layOut, ht, hk, if_false, Bool.false_eq_true, addBinHeader, respAddIov,
    flagsLen, headerLen, hm]
  rfl

theorem layOut_key {req : GetRequest} (hk : req.cmd.returnsKey = true) (it : FoundItem) :
    layOut req it =
      { header := { extlen := 4, keylen := req.nkey, bodylen := 4 + it.vlen + req.nkey }
        iov := [⟨.header, 24⟩, ⟨.flags, 4⟩, ⟨.key, req.nkey⟩], tosend := 28 + req.nkey } := by
  have hlt := it.vlen_lt
  have hl := req.nkey_le
  have ht : req.cmd ≠ .touch := fun h => by simp [h, GetCmd.returnsKey] at hk
  have hm : (4 + it.vlen + req.nkey) % 2 ^ 32 = 4 + it.vlen + req.nkey :=
    Nat.mod_eq_of_lt (by omega)
  have hm' : req.nkey % 2 ^ 16 = req.nkey := Nat.mod_eq_of_lt (by omega)
  simp only [layOut, ht, hk, if_true, if_false, addBinHeader, respAddIov, flagsLen,
    headerLen, hm, hm']
  rfl

theorem GetCmd.ne_touch {cmd : GetCmd} (h : cmd.returnsValue = true) : cmd ≠ .touch := by
  rintro rfl
  exact absurd h (by decide)

theorem framed_congr {r r' : BinResp} (hh : r.header = r'.header) (hi : r.iov = r'.iov)
    (ht : r.tosend = r'.tosend) : Framed r ↔ Framed r' := by
  have hs : sentLen r = sentLen r' := by rw [sentLen, hi, sentLen]
  have hv : valueLen r = valueLen r' := by rw [valueLen, hi, valueLen]
  constructor
  · rintro ⟨hb, hl, hto⟩
    exact ⟨by rw [← hh, hb, hv], by rw [← hh, ← hs, hl],
      by rw [← ht, hto, hs]⟩
  · rintro ⟨hb, hl, hto⟩
    exact ⟨by rw [hh, hb, hv], by rw [hh, hs, hl],
      by rw [ht, hto, hs]⟩

theorem framed_respAddChunkedIov (r : BinResp) (part : Part) (len : ℕ) :
    Framed (respAddChunkedIov r part len) ↔ Framed (respAddIov r part len) :=
  framed_congr rfl rfl rfl

/-! ## The outcomes one by one -/

section Outcomes

variable (req : GetRequest) (it : FoundItem)

theorem framed_hit (hv : req.cmd.returnsValue = true) :
    Framed (respAddIov (layOut req it) .value it.vlen) := by
  have ht := GetCmd.ne_touch hv
  cases hk : req.cmd.returnsKey with
  | false =>
    rw [layOut_plain hk, if_neg ht]
    refine ⟨?_, ?_, ?_⟩
    · simp [respAddIov, valueLen]
    · simp [respAddIov, sentLen, headerLen]
    · simp [respAddIov, sentLen]
      omega
  | true =>
    rw [layOut_key hk]
    refine ⟨?_, ?_, ?_⟩
    · simp [respAddIov, valueLen]
      omega
    · simp [respAddIov, sentLen, headerLen]
      omega
    · simp [respAddIov, sentLen]
      omega

theorem framed_touch (hv : req.cmd.returnsValue = false) : Framed (layOut req it) := by
  have ht : req.cmd = .touch := by simpa [GetCmd.returnsValue] using hv
  have hk : req.cmd.returnsKey = false := by
    rw [ht]
    rfl
  rw [layOut_plain hk, if_pos ht]
  exact ⟨rfl, rfl, rfl⟩

theorem framed_miss :
    Framed (writeBinMissResponse (if req.cmd.returnsKey then req.nkey else 0)) := by
  have hp := req.nkey_pos
  have hl := req.nkey_le
  have hm : req.nkey % 2 ^ 32 = req.nkey := Nat.mod_eq_of_lt (by omega)
  have hm' : req.nkey % 2 ^ 16 = req.nkey := Nat.mod_eq_of_lt (by omega)
  cases req.cmd.returnsKey with
  | false => exact ⟨rfl, rfl, rfl⟩
  | true =>
    simp only [writeBinMissResponse, if_true, if_pos hp.ne', addBinHeader, respAddIov, hm,
      hm']
    refine ⟨?_, ?_, ?_⟩
    · simp [valueLen]
    · simp [sentLen, headerLen]
    · simp [sentLen, headerLen]

theorem framed_noSetup_iff (hv : req.cmd.returnsValue = true) :
    Framed (layOut req it) ↔ it.vlen = 0 := by
  have ht := GetCmd.ne_touch hv
  cases hk : req.cmd.returnsKey with
  | false =>
    rw [layOut_plain hk, if_neg ht]
    constructor
    · intro h
      have hb := h.body
      simp only [valueLen] at hb
      simpa using hb
    · intro h
      rw [h]
      exact ⟨rfl, rfl, rfl⟩
  | true =>
    rw [layOut_key hk]
    constructor
    · intro h
      have hb := h.body
      simp [valueLen] at hb
      omega
    intro h
    rw [h]
    refine ⟨by simp [valueLen], ?_, ?_⟩
    · simp [sentLen, headerLen]
    · simp [sentLen]
      omega

theorem framed_storageMiss_iff (hv : req.cmd.returnsValue = true) :
    Framed (storageGetItemCb (respAddIov (layOut req it) .value it.vlen)
      (layOut req it).iov.length false true) ↔
      (req.cmd.returnsKey = true → req.nkey = flagsLen) := by
  have ht := GetCmd.ne_touch hv
  have hlt := it.vlen_lt
  have hl := req.nkey_le
  have hm : (it.vlen + 4) % 2 ^ 32 = it.vlen + 4 := Nat.mod_eq_of_lt (by omega)
  cases hk : req.cmd.returnsKey with
  | false =>
    refine iff_of_true ?_ nofun
    rw [layOut_plain hk, if_neg ht]
    refine ⟨?_, ?_, ?_⟩
    · show (4 + it.vlen + 2 ^ 32 - (it.vlen + 4) % 2 ^ 32) % 2 ^ 32 = 0
      rw [hm]
      omega
    · show 24 = 24 + (4 + it.vlen + 2 ^ 32 - (it.vlen + 4) % 2 ^ 32) % 2 ^ 32
      rw [hm]
      omega
    · show (28 + it.vlen : ℤ) - (it.vlen + 4 : ℕ) = 24
      push_cast
      ring
  | true =>
    have hb :
        (4 + it.vlen + req.nkey + 2 ^ 32 - (it.vlen + 4) % 2 ^ 32) % 2 ^ 32 = req.nkey := by
      rw [hm]
      omega
    rw [layOut_key hk]
    constructor
    · intro h _
      have hs : 28 = 24 + (4 + it.vlen + req.nkey + 2 ^ 32 - (it.vlen + 4) % 2 ^ 32) % 2 ^ 32 :=
        h.sent
      rw [hb] at hs
      show req.nkey = 4
      omega
    intro h
    have hf : req.nkey = 4 := h rfl
    refine ⟨?_, ?_, ?_⟩
    · show (4 + it.vlen + req.nkey + 2 ^ 32 - (it.vlen + 4) % 2 ^ 32) % 2 ^ 32 = 0 + req.nkey + 0
      rw [hb, Nat.zero_add, Nat.add_zero]
    · show 28 = 24 + (4 + it.vlen + req.nkey + 2 ^ 32 - (it.vlen + 4) % 2 ^ 32) % 2 ^ 32
      rw [hb, hf]
    show (28 + req.nkey + it.vlen : ℤ) - (it.vlen + 4 : ℕ) = 28
    rw [hf]
    push_cast
    ring

end Outcomes

/-! ## Every outcome -/

section

variable (req : GetRequest) (it : FoundItem)

theorem framed_readFromStorage (chunked miss : Bool) :
    Framed (readFromStorage req it chunked miss) ↔
      Framed (storageGetItemCb (respAddIov (layOut req it) .value it.vlen)
        (layOut req it).iov.length req.quiet miss) := by
  cases chunked with
  | false => rfl
  | true =>
    rw [readFromStorage]
    cases miss with
    | false => exact framed_congr rfl rfl rfl
    | true => cases req.quiet <;> exact framed_congr rfl rfl rfl

theorem layOut_sent : Sent (layOut req it) := by
  cases hk : req.cmd.returnsKey with
  | false =>
    rw [layOut_plain hk]
    exact ⟨rfl, List.cons_ne_nil _ _⟩
  | true =>
    rw [layOut_key hk]
    exact ⟨rfl, List.cons_ne_nil _ _⟩

theorem storageGetItem_sent (chunked : Bool) :
    Sent (storageGetItem (layOut req it) it chunked).1 := by
  cases chunked <;>
    exact ⟨(layOut_sent req it).1, List.append_ne_nil_of_right_ne_nil _ (List.cons_ne_nil _ _)⟩

theorem readFromStorage_miss (chunked : Bool) (hv : req.cmd.returnsValue = true) :
    (Sent (readFromStorage req it chunked true) → Framed (readFromStorage req it chunked true)) ↔
      ¬(req.cmd.returnsKey = true ∧ req.quiet = false ∧ req.nkey ≠ flagsLen) := by
  rw [framed_readFromStorage]
  cases hq : req.quiet with
  | true =>
    -- nothing is sent
    refine iff_of_true (fun h => absurd h.1 ?_) (by simp)
    rw [readFromStorage, hq]
    exact Bool.noConfusion
  | false =>
    have hs : Sent (readFromStorage req it chunked true) := by
      obtain ⟨hsk, hne⟩ := storageGetItem_sent req it chunked
      rw [readFromStorage, hq]
      refine ⟨hsk, fun hn => hne ?_⟩
      have hl := congrArg List.length hn
      simp only [storageGetItemCb, clearIov, List.length_modify, List.length_nil, if_true,
        Bool.false_eq_true, if_false] at hl
      exact List.eq_nil_of_length_eq_zero hl
    rw [forall_prop_of_true hs, framed_storageMiss_iff req it hv]
    tauto

end

/-- **Framing of binary gets.** For every request of the get family, every item and every
outcome, the header of the response agrees with what is sent, exactly when the request
is not one of the misframed ones. -/
theorem get_response_framed_iff (req : GetRequest) (it : Option FoundItem) (read : StorageRead) :
    (Sent (processBinGetOrTouch req it read) → Framed (processBinGetOrTouch req it read)) ↔
      ¬Misframed req it read := by
  cases it with
  | none =>
    refine iff_of_true (fun h => ?_) (by simp [Misframed])
    simp only [processBinGetOrTouch, getFailed] at h ⊢
    cases hq : req.quiet with
    | true =>
      rw [hq] at h
      exact absurd rfl h.2
    | false => exact framed_miss req
  | some it =>
    simp only [processBinGetOrTouch]
    cases hv : req.cmd.returnsValue with
    | false =>
      have ht : req.cmd = .touch := by simpa [GetCmd.returnsValue] using hv
      refine iff_of_true (fun _ => framed_touch req it hv) ?_
      rintro ⟨i, hi, _, ⟨_, hk, _⟩ | ⟨_, hn, _⟩⟩
      · rw [ht] at hk
        exact absurd hk (by decide)
      · exact hn ht
    | true =>
      have ht := GetCmd.ne_touch hv
      simp only [if_true]
      cases hp : it.place with
      | memory =>
        exact iff_of_true (fun _ => framed_hit req it hv) (by simp [Misframed, hp])
      | chunks =>
        refine iff_of_true (fun _ => ?_) (by simp [Misframed, hp])
        exact (framed_respAddChunkedIov _ _ _).mpr (framed_hit req it hv)
      | storage =>
        cases read with
        | noSetup =>
          simp only [getFailed]
          cases hq : req.quiet with
          | true =>
            simp only [if_true]
            rw [forall_prop_of_true (layOut_sent req it), framed_noSetup_iff req it hv]
            simp [Misframed, hp, ht, hq]
          | false =>
            refine iff_of_true (fun _ => framed_miss req) ?_
            simp [Misframed, hq]
        | hit chunked =>
          refine iff_of_true (fun _ => ?_) (by simp [Misframed])
          rw [framed_readFromStorage]
          exact framed_hit req it hv
        | miss chunked =>
          simp only
          rw [readFromStorage_miss req it chunked hv]
          simp [Misframed, hp]
        | badCrc chunked =>
          simp only
          rw [readFromStorage_miss req it chunked hv]
          simp [Misframed, hp]

/-- A GETK for a value of 600 bytes that is not in storage any more: the header announces
the three bytes of the key, and four bytes follow. -/
theorem getk_storage_miss_misframed :
    let req : GetRequest := ⟨.getk, false, 3, by decide, by decide⟩
    let it : FoundItem := ⟨602, .storage, by decide, by decide⟩
    let r := processBinGetOrTouch req (some it) (.miss false)
    Sent r ∧ ¬Framed r ∧ r.header.bodylen = 3 ∧ sentLen r = 28 ∧ r.tosend = 27 := by
  intro req it r
  have hl : r.header.bodylen = 3 ∧ sentLen r = 28 ∧ r.tosend = 27 := by decide +kernel
  refine ⟨by decide +kernel, fun h => ?_, hl⟩
  have hs := h.sent
  rw [hl.1, hl.2.1] at hs
  exact absurd hs (by decide)

end Memcached.Binary
