import Memcached.Text.FailedSets

/-!
# Data blocks without an end (`proto_text.c`)

A data block ends with `\r\n`, which is stored with the value, and `complete_nread_ascii`
looks at the last two bytes before it stores the item. For an item in one piece these are the
last bytes of its data. For an item in chunks they are in the last chunk, or in the last two
when the last one has a single byte.

Results:
* `chunkBuf_eq`: the check of a block in chunks looks at the last two bytes of the block
* `bad_block_rejected_iff`: a block with a wrong end is rejected if it is in one piece
* `bad_block_asserts`: in chunks it makes an assertion fail
-/

namespace Memcached.Text

open Lib Items Util Proto

variable {Addr : Type*} [DecidableEq Addr] [Fintype Addr]

/-! ## The check -/

/-- The data of an upload, in the item or in its chunks, where `dch` is the chunk that
`c->ritem` points to. -/
inductive Block where
  | flat (data : Bytes)
  | chunks (d : Dest)
deriving DecidableEq

def Block.bytes : Block → Bytes
  | .flat data => data
  | .chunks d => chainBytes d.chain

/-- The two bytes of a block in chunks (lines 145-159); none when an
assertion fails, that the chunk has bytes or that there is one before it. -/
def chunkBuf (d : Dest) : Option Bytes :=
  if d.dch.data = [] then none
  else if d.dch.data.length > 1 then some (lastTwo d.dch.data)
  else d.before.getLast?.map fun prev => prev.data.drop (prev.data.length - 1) ++ d.dch.data

inductive BlockCheck where
  | valid
  | invalid
  | assertFailed
deriving DecidableEq

/-- The check of the last two bytes (lines 140-165). -/
def Block.check : Block → BlockCheck
  | .flat data => if lastTwo data = ascii "\r\n" then .valid else .invalid
  | .chunks d => if chunkBuf d = some (ascii "\r\n") then .valid else .assertFailed

/-- `complete_nread_ascii` (lines 128-234) in a build without `NDEBUG`; none when an assertion
fails. -/
def completeNread (S : TextSettings) (env : Env Addr) (s : Store Addr) (u : Upload Addr)
    (b : Block) : Option (Answer Addr) :=
  if b.check = .assertFailed then none
  else some (completeChecked S env (setData s u.item b.bytes) u (b.check = .valid))

/-! ## Layouts -/

/-- The chunks of an upload that has all of its bytes: the first one is without room, and all
others have bytes. -/
structure ChunkLayout (d : Dest) : Prop where
  last : d.after = []
  used : d.dch.data ≠ []
  before : ∃ rest, d.before = ⟨0, []⟩ :: rest ∧ ∀ c ∈ rest, c.data ≠ []

/-- A block that an upload has left in its item. -/
def Block.Layout : Block → Prop
  | .flat _ => True
  | .chunks d => ChunkLayout d

theorem lastTwo_append {front back : Bytes} (h : 2 ≤ back.length) :
    lastTwo (front ++ back) = lastTwo back := by
  have hs : (front ++ back).length - 2 = front.length + (back.length - 2) := by
    rw [List.length_append]
    omega
  rw [lastTwo, hs, List.drop_length_add_append]
  rfl

theorem chunkBuf_eq {d : Dest} (h : ChunkLayout d) (hle : 2 ≤ (chainBytes d.chain).length) :
    chunkBuf d = some (lastTwo (chainBytes d.chain)) := by
  obtain ⟨rest, hb, hu⟩ := h.before
  have hc : chainBytes d.chain = chainBytes d.before ++ d.dch.data := by
    simp [chainBytes, Dest.chain, h.last]
  have hpo : 0 < d.dch.data.length := List.length_pos_iff.mpr h.used
  rw [chunkBuf, if_neg h.used, hc]
  by_cases hm : d.dch.data.length > 1
  · rw [if_pos hm, lastTwo_append (by omega)]
  rw [if_neg hm]
  -- the other byte is the last one of the chunk before, which is not the first
  obtain rfl | ⟨front, prev, rfl⟩ := List.eq_nil_or_concat rest
  · rw [hc, hb] at hle
    simp [chainBytes] at hle
    omega
  have hp : prev.data ≠ [] := hu prev (by simp)
  have hpr : 0 < prev.data.length := List.length_pos_iff.mpr hp
  have hl : d.before.getLast? = some prev := by
    rw [hb, List.concat_eq_append, ← List.cons_append]
    exact List.getLast?_concat
  have hby : chainBytes d.before = chainBytes (⟨0, []⟩ :: front) ++ prev.data := by
    rw [hb]
    simp [chainBytes]
  rw [hl, Option.map_some, hby, List.append_assoc,
    lastTwo_append (by rw [List.length_append]; omega), lastTwo, List.length_append,
    show prev.data.length + d.dch.data.length - 2 = prev.data.length - 1 by omega,
    List.drop_append_of_le_length (by omega)]

theorem check_eq {b : Block} (h : b.Layout) (hl : 2 ≤ b.bytes.length) :
    (b.check = .valid ↔ lastTwo b.bytes = ascii "\r\n") ∧
      (b.check = .assertFailed ↔ lastTwo b.bytes ≠ ascii "\r\n" ∧ ∃ d, b = .chunks d) := by
  cases b with
  | flat data =>
    simp only [Block.check, Block.bytes]
    split_ifs with he <;> simp [he]
  | chunks d =>
    simp only [Block.check, chunkBuf_eq h hl, Option.some.injEq, Block.bytes]
    split_ifs with he <;> simp [he]

/-! ## Rejected blocks -/

/-- The block was rejected: it is answered, unless the client asked for no answer, nothing was
stored, the item of the upload was given back and the connection goes on with the next
command. -/
structure Rejected (s : Store Addr) (u : Upload Addr) (ans : Answer Addr) : Prop where
  resp : ans.resp = outResp (u.noreply && u.msetRes.isNone) (ascii "CLIENT_ERROR bad data chunk")
  same : SameItems s ans.store
  released : ∀ b, ans.store.refs b = s.refs b - if b = u.item then 1 else 0
  next : ans.next = .newCmd

theorem completeNread_flat {S : TextSettings} {env : Env Addr} {s : Store Addr} {u : Upload Addr}
    {data : Bytes} (h : Inv S.toSettings s) (hh : 0 < s.refs u.item) (hl : ¬s.Linked u.item)
    (hba : lastTwo data ≠ ascii "\r\n") :
    ∃ ans, completeNread S env s u (.flat data) = some ans ∧ Rejected s u ans := by
  refine ⟨outString (releaseRef (setData s u.item data) u.item) (u.noreply && u.msetRes.isNone)
    (ascii "CLIENT_ERROR bad data chunk"), ?_, rfl, ?_, fun _ => refs_releaseRef, rfl⟩
  · simp [completeNread, completeChecked, Block.check, Block.bytes, hba]
  have hs := setData_published h hh hl data
  have hq := releaseRef_quiet hs.inv (a := u.item) hh
  refine SameItems.trans ?_ (sameItems_of_quiet hq)
  rw [sameItems_of_published_iff hs]
  exact fun b hb => (hs.lost b hb).resolve_right id

/-- Every data block, in one piece or in chunks of any sizes, that does not end with `\r\n`:
it is rejected exactly when the item is in one piece. -/
theorem bad_block_rejected_iff {S : TextSettings} {s : Store Addr} {u : Upload Addr}
    (h : Inv S.toSettings s) (hheld : 0 < s.refs u.item) (hl : ¬s.Linked u.item) {b : Block}
    (hkind : (∃ d, b = .chunks d) ↔ (s.items u.item).flags.chunked = true) (hlayout : b.Layout)
    (hlen : b.bytes.length = u.rlbytes) (hmin : 2 ≤ u.rlbytes)
    (hbad : lastTwo b.bytes ≠ ascii "\r\n") (env : Env Addr) :
    (∃ ans, completeNread S env s u b = some ans ∧ Rejected s u ans) ↔
      (s.items u.item).flags.chunked = false := by
  rw [← Bool.not_eq_true, ← hkind]
  cases b with
  | flat data => exact iff_of_true (completeNread_flat h hheld hl hbad) (by simp)
  | chunks d =>
    refine iff_of_false ?_ (not_not.mpr ⟨d, rfl⟩)
    rintro ⟨ans, he, -⟩
    have hf := (check_eq hlayout (hlen ▸ hmin)).2.mpr ⟨hbad, d, rfl⟩
    rw [completeNread, if_pos hf] at he
    cases he

/-- The block `xyz` for a value of one byte. -/
theorem bad_block_rejected_iff_short : ∃ s : Store (Fin 1), ∃ u : Upload (Fin 1),
    0 < s.refs u.item ∧ u.rlbytes = 3 ∧
    ∃ ans, completeNread textSettings oneRoom s u (.flat (ascii "xyz")) = some ans ∧
      Rejected s u ans := by
  have hi := emptyStore_reachable 1 smallSettings fun s _ => CountsLow s
  obtain ⟨s, hs, hh, hl, hf⟩ := hi.exists_of_exec
    ((storeOps 0 (ascii "k") (ascii "a\r\n") 0 .set 0).take 1)
    (p := fun s => 0 < s.refs 0 ∧ ¬s.Linked 0 ∧ (s.items 0).flags.chunked = false)
    (by decide +kernel)
  have hin := reachable_inv (fun _ _ ho => ho) hs
  let u : Upload (Fin 1) := { item := 0, rlbytes := 3, cmd := .set, noreply := false }
  have hk : (∃ d, Block.flat (ascii "xyz") = .chunks d) ↔
      (s.items u.item).flags.chunked = true := by
    rw [show u.item = 0 from rfl, hf]
    simp
  exact ⟨s, u, hh, rfl, (bad_block_rejected_iff (S := textSettings) hin hh hl hk trivial
    rfl (by decide) (by decide) oneRoom).mpr hf⟩

/-- `set k 0 0 100` for an item in chunks, with a block of 102 times the letter `b`: the
connection runs into an assertion. -/
theorem bad_block_asserts : ∃ s : Store (Fin 2),
    (system (Fin 2) chunkSettings).Reachable (fun s _ => CountsLow s) s ∧
    let ans := setAnswer chunkSettings headerOnly s largeSet .set
    let u : Upload (Fin 2) := { item := 1, rlbytes := 102, cmd := .set, noreply := false }
    ans.next = .nread u ∧ (ans.store.items 1).flags.chunked = true ∧
    ∃ d, readIntoChunkedItem chunkSettings.slabChunkSizeMax (fun _ => (true, true)) 204 newChain
        (List.replicate 102 98) = .done d ∧
      completeNread chunkTextSettings headerOnly ans.store u (.chunks d) = none := by
  have hi := emptyStore_reachable 2 chunkSettings fun s _ => CountsLow s
  obtain ⟨s, he, hn, hc, hr⟩ := hi.exists_of_exec
    (storeOps 0 (ascii "k") (ascii "a\r\n") 0 .set 0) (p := fun s =>
      let ans := setAnswer chunkSettings headerOnly s largeSet .set
      let u : Upload (Fin 2) := { item := 1, rlbytes := 102, cmd := .set, noreply := false }
      ans.next = .nread u ∧ (ans.store.items 1).flags.chunked = true ∧
        (match readIntoChunkedItem chunkSettings.slabChunkSizeMax (fun _ => (true, true)) 204
            newChain (List.replicate 102 98) with
          | .done d => (completeNread chunkTextSettings headerOnly ans.store u (.chunks d)).isNone
          | _ => false) = true) (by decide +kernel)
  refine ⟨s, he, hn, hc, ?_⟩
  split at hr
  · exact ⟨_, by assumption, Option.isNone_iff_eq_none.mp hr⟩
  · cases hr

end Memcached.Text
