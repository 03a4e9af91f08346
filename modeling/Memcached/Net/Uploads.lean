import Memcached.Text.BadBlocks

/-!
# Uploads of large values (`memcached.c`, `proto_bin.c`)

The data block of a large item goes into its chunks: first what is in the read buffer,
then what the socket gives, in as many pieces as it likes. Chunks are allocated when the
one before is full; when that fails, the rest of the block is swallowed. The binary
protocol sends no `\r\n`, so there must be two bytes left for it at the end.

Results:
* `step_reading`, `step_filled`, `step_swallow`: the steps keep the invariant
* `upload_exact`: the chunks hold the block, or it is swallowed
* `uploaded_block_completes`: the answer is the one for a block in one piece
-/

namespace Memcached.Net

open Lib Items Text

/-! ## The machine -/

/-- Where the connection is: in `read_into_chunked_item`; in `complete_nread`; behind it; in
`conn_swallow`; at the next command after that; closing; or stopped by an assertion. -/
inductive UploadPhase where
  | reading
  | filled
  | completed
  | swallow (sbytes : ℕ)
  | newCmd
  | closing
  | asserted
deriving DecidableEq

/-- The chunks of the item, with `ritem` at `dch`, `rlbytes`, the bytes in the read buffer and
those that the client sends behind them. -/
structure UploadState where
  chain : Dest
  rlbytes : ℕ
  rbuf : Bytes
  net : Bytes
  phase : UploadPhase
deriving DecidableEq

/-- What a round finds: whether there is memory for a chunk, and what a read from the socket
gives, up to `k + 1` bytes for `got k`. -/
inductive ReadResult where
  | got (k : ℕ)
  | again
  | eof
  | error

structure Round where
  room : Bool × Bool
  res : ReadResult

/-- One round of `read_into_chunked_item` (lines 3085-3143), called by
`conn_nread` again and again. -/
def readStep (binary : Bool) (max : ℕ) (e : Round) (s : UploadState) : UploadState :=
  let free := s.chain.dch.size - s.chain.dch.data.length
  if s.rlbytes = 0 then
    if binary = true ∧ free < 2 then
      match doItemAllocChunk max 2 e.room with
      | none => { s with phase := .swallow s.rlbytes }
      | some c => { s with chain := s.chain.push c, phase := .filled }
    else { s with phase := .filled }
  else if s.chain.dch.Full then
    match doItemAllocChunk max (s.rlbytes + if binary then 2 else 0) e.room with
    | none => { s with phase := .swallow s.rlbytes }
    | some c => { s with chain := s.chain.push c }
  else if s.rbuf ≠ [] then
    let tocopy := min (min s.rbuf.length s.rlbytes) free
    { s with
      chain := s.chain.write (s.rbuf.take tocopy)
      rlbytes := s.rlbytes - tocopy
      rbuf := s.rbuf.drop tocopy }
  else
    match e.res with
    | .got k =>
      let bytes := s.net.take (min (min free s.rlbytes) (k + 1))
      { s with
        chain := s.chain.write bytes
        rlbytes := s.rlbytes - bytes.length
        net := s.net.drop bytes.length }
    | .again => s
    | .eof | .error => { s with phase := .closing }

/-- `complete_nread`: for the binary protocol `complete_update_bin` puts `\r\n` behind the
value (`proto_bin.c`, lines 371-384). A full chunk has no next one. -/
def completeStep (binary : Bool) (s : UploadState) : UploadState :=
  if binary then
    if s.chain.dch.size - s.chain.dch.data.length < 2 then { s with phase := .asserted }
    else { s with chain := s.chain.write (ascii "\r\n"), phase := .completed }
  else { s with phase := .completed }

/-- One round of `conn_swallow` (lines 3461-3499), with a read buffer of
`rsize` bytes. -/
def swallowStep (rsize : ℕ) (e : Round) (sbytes : ℕ) (s : UploadState) : UploadState :=
  if sbytes = 0 then { s with phase := .newCmd }
  else if s.rbuf ≠ [] then
    let tocopy := min s.rbuf.length sbytes
    { s with rbuf := s.rbuf.drop tocopy, phase := .swallow (sbytes - tocopy) }
  else
    match e.res with
    | .got k =>
      let bytes := s.net.take (min (min rsize sbytes) (k + 1))
      { s with net := s.net.drop bytes.length, phase := .swallow (sbytes - bytes.length) }
    | .again => s
    | .eof | .error => { s with phase := .closing }

/-- One round of `drive_machine`. -/
def uploadStep (binary : Bool) (max rsize : ℕ) (s : UploadState) (e : Round) : UploadState :=
  match s.phase with
  | .reading => readStep binary max e s
  | .filled => completeStep binary s
  | .swallow sbytes => swallowStep rsize e sbytes s
  | .completed | .newCmd | .closing | .asserted => s

/-- An upload of `len` bytes, which are the first of `input`, in part in the read buffer. -/
def uploads (binary : Bool) (max rsize : ℕ) (input : Bytes) (len : ℕ) :
    System UploadState Round Unit where
  init s := s.chain = newChain ∧ s.rlbytes = len ∧ s.rbuf ++ s.net = input ∧ s.phase = .reading
  step s e := some (uploadStep binary max rsize s e, ())

/-! ## Chains -/

/-- The chunks while they are filled: none has more bytes than room, the first one is without
room, and all others up to the last have bytes. -/
structure Filling (d : Dest) : Prop where
  last : d.after = []
  fits : ∀ c ∈ d.before, c.data.length ≤ c.size
  fitsLast : d.dch.data.length ≤ d.dch.size
  shape : (d.before = [] ∧ d.dch = ⟨0, []⟩) ∨
    (0 < d.dch.size ∧ ∃ rest, d.before = ⟨0, []⟩ :: rest ∧ ∀ c ∈ rest, c.data ≠ [])

theorem filling_newChain : Filling newChain :=
  ⟨rfl, by simp [newChain], le_refl _, .inl ⟨rfl, rfl⟩⟩

variable {d : Dest}

section

variable (h : Filling d)
include h

theorem Filling.write {bytes : Bytes}
    (hr : bytes.length ≤ d.dch.size - d.dch.data.length) : Filling (d.write bytes) where
  last := h.last
  fits := h.fits
  fitsLast := by
    have hf := h.fitsLast
    simp only [Dest.write, List.length_append]
    omega
  shape := by
    obtain ⟨hb, hd⟩ | hre := h.shape
    · left
      rw [hd] at hr
      have hn : bytes = [] := List.length_eq_zero_iff.mp (by simpa using hr)
      exact ⟨hb, by simp [Dest.write, hd, hn]⟩
    · exact .inr hre

theorem Filling.push {c : Chunk} (hd : c.data = [])
    (hs : 0 < c.size) (hu : d.dch.data ≠ [] ∨ d.dch.Full) : Filling (d.push c) where
  last := rfl
  fits := by
    intro b hb
    obtain hb | hb := List.mem_append.mp hb
    · exact h.fits b hb
    · obtain rfl := List.mem_singleton.mp hb
      exact h.fitsLast
  fitsLast := by simp [Dest.push, hd]
  shape := by
    refine .inr ⟨hs, ?_⟩
    obtain ⟨hbe, hdc⟩ | ⟨hp, rest, hbe, ha⟩ := h.shape
    · exact ⟨[], by simp [Dest.push, hbe, hdc], by simp⟩
    refine ⟨rest ++ [d.dch], by simp [Dest.push, hbe], ?_⟩
    intro b hb
    obtain hb | hb := List.mem_append.mp hb
    · exact ha b hb
    obtain rfl := List.mem_singleton.mp hb
    obtain hn | hf := hu
    · exact hn
    · unfold Chunk.Full at hf
      exact List.length_pos_iff.mp (by omega)

theorem Filling.bytes_write (bytes : Bytes) :
    Items.chainBytes (d.write bytes).chain = Items.chainBytes d.chain ++ bytes := by
  simp [Items.chainBytes, Dest.chain, Dest.write, h.last]

theorem Filling.bytes_push {c : Chunk} (hc : c.data = []) :
    Items.chainBytes (d.push c).chain = Items.chainBytes d.chain := by
  simp [Items.chainBytes, Dest.chain, Dest.push, h.last, hc]

end

/-! ## Rounds -/

/-- While the block is read: the chunks have its front, and `rlbytes` bytes are to come. -/
structure Reading (input : Bytes) (len : ℕ) (s : UploadState) : Prop where
  bytes : Items.chainBytes s.chain.chain ++ (s.rbuf ++ s.net) = input
  count : (Items.chainBytes s.chain.chain).length + s.rlbytes = len
  fresh : s.chain.dch.data = [] → 0 < s.rlbytes

/-- The whole block is in the chunks, and there is room for what follows. -/
structure Filled (binary : Bool) (input : Bytes) (len : ℕ) (s : UploadState) : Prop where
  bytes : Items.chainBytes s.chain.chain ++ (s.rbuf ++ s.net) = input
  count : (Items.chainBytes s.chain.chain).length = len
  room : binary = true → 2 ≤ s.chain.dch.size - s.chain.dch.data.length
  used : binary = false → s.chain.dch.data ≠ []

structure Completed (binary : Bool) (input : Bytes) (len : ℕ) (s : UploadState) : Prop where
  bytes : Items.chainBytes s.chain.chain = input.take len ++ if binary then ascii "\r\n" else []
  count : len ≤ input.length
  rest : s.rbuf ++ s.net = input.drop len
  used : s.chain.dch.data ≠ []

/-- `sbytes` bytes of the block are still to be swallowed. -/
def Swallowing (input : Bytes) (len sbytes : ℕ) (s : UploadState) : Prop :=
  ∃ gone, gone ++ (s.rbuf ++ s.net) = input ∧ gone.length + sbytes = len

def UploadInv (binary : Bool) (input : Bytes) (len : ℕ) (s : UploadState) : Prop :=
  Filling s.chain ∧
    match s.phase with
    | .reading => Reading input len s
    | .filled => Filled binary input len s
    | .completed => Completed binary input len s
    | .swallow sbytes => Swallowing input len sbytes s
    | .newCmd => len ≤ input.length ∧ s.rbuf ++ s.net = input.drop len
    | .closing => True
    | .asserted => False

section Rounds

variable {binary : Bool} {max rsize : ℕ} {input : Bytes} {len : ℕ} {s : UploadState}

theorem doItemAllocChunk_two {room : Bool × Bool} {c : Chunk} (hm : 50 ≤ max)
    (h : doItemAllocChunk max 2 room = some c) : c.data = [] ∧ 2 ≤ c.size := by
  unfold doItemAllocChunk at h
  simp only at h
  split_ifs at h
  · cases h
    exact ⟨rfl, by simp only; omega⟩
  · cases h
    exact ⟨rfl, by simp only; omega⟩

theorem Reading.swallowing (h : Reading input len s) : Swallowing input len s.rlbytes s :=
  ⟨_, h.bytes, h.count⟩

theorem Reading.write {s' : UploadState} {bytes : Bytes} (h : Reading input len s)
    (hf : Filling s.chain) (hc : s'.chain = s.chain.write bytes)
    (hb : bytes ++ (s'.rbuf ++ s'.net) = s.rbuf ++ s.net)
    (hco : s'.rlbytes + bytes.length = s.rlbytes) (hp : 0 < s.rlbytes) :
    Reading input len s' where
  bytes := by rw [hc, hf.bytes_write, List.append_assoc, hb, h.bytes]
  count := by
    have := h.count
    rw [hc, hf.bytes_write, List.length_append]
    omega
  fresh := by
    intro hn
    rw [hc] at hn
    have he : bytes = [] := (List.append_eq_nil_iff.mp hn).2
    rw [he, List.length_nil] at hco
    omega

theorem step_reading (hm : 50 ≤ max) (hf : Filling s.chain) (h : Reading input len s)
    (hp : s.phase = .reading) (e : Round) :
    UploadInv binary input len (readStep binary max e s) := by
  unfold readStep
  simp only
  by_cases hz : s.rlbytes = 0
  · -- behind the loop
    rw [if_pos hz]
    have hu : s.chain.dch.data ≠ [] := by
      intro hn
      have := h.fresh hn
      omega
    have hc := h.count
    by_cases hfr : binary = true ∧ s.chain.dch.size - s.chain.dch.data.length < 2
    · rw [if_pos hfr]
      rcases ha : doItemAllocChunk max 2 e.room with _ | c
      · exact ⟨hf, h.swallowing⟩
      obtain ⟨hd, hs⟩ := doItemAllocChunk_two hm ha
      refine ⟨hf.push hd (by omega) (.inl hu), ?_⟩
      refine ⟨?_, ?_, ?_, ?_⟩
      · show Items.chainBytes (s.chain.push c).chain ++ _ = _
        rw [hf.bytes_push hd, h.bytes]
      · show (Items.chainBytes (s.chain.push c).chain).length = len
        rw [hf.bytes_push hd]
        omega
      · intro _
        simp only [Dest.push, hd, List.length_nil]
        omega
      · intro ht
        rw [hfr.1] at ht
        cases ht
    · rw [if_neg hfr]
      refine ⟨hf, h.bytes, by simp only; omega, fun hbi => ?_, fun _ => hu⟩
      have : ¬s.chain.dch.size - s.chain.dch.data.length < 2 := fun hlt => hfr ⟨hbi, hlt⟩
      simp only
      omega
  rw [if_neg hz]
  have hpo : 0 < s.rlbytes := by omega
  by_cases hfu : s.chain.dch.Full
  · rw [if_pos hfu]
    rcases ha : doItemAllocChunk max (s.rlbytes + if binary then 2 else 0) e.room with _ | c
    · exact ⟨hf, h.swallowing⟩
    obtain ⟨hd, hs⟩ := data_doItemAllocChunk ha
    have hs := hs (by omega) (by omega)
    refine ⟨hf.push hd hs (.inr hfu), ?_⟩
    simp only [hp]
    exact ⟨by rw [hf.bytes_push hd, h.bytes], by rw [hf.bytes_push hd]; exact h.count,
      fun _ => hpo⟩
  rw [if_neg hfu]
  by_cases hr : s.rbuf = []
  · rw [if_neg (not_not.mpr hr)]
    obtain k | _ | _ | _ := e.res
    · -- a part of the block, straight into the chunk
      simp only
      set bytes := s.net.take (min (min (s.chain.dch.size - s.chain.dch.data.length) s.rlbytes)
        (k + 1)) with hb
      have hl : bytes.length ≤ min (s.chain.dch.size - s.chain.dch.data.length) s.rlbytes := by
        rw [hb, List.length_take]
        omega
      refine ⟨hf.write (by omega), ?_⟩
      simp only [hp]
      refine h.write hf rfl ?_ (by simp only; omega) hpo
      simp only
      rw [hr, List.nil_append, List.nil_append]
      exact List.prefix_iff_eq_append.mp (List.take_prefix _ _)
    · exact ⟨hf, by simp only [hp]; exact h⟩
    · exact ⟨hf, trivial⟩
    · exact ⟨hf, trivial⟩
  · rw [if_pos hr]
    set tocopy := min (min s.rbuf.length s.rlbytes)
      (s.chain.dch.size - s.chain.dch.data.length) with hto
    have hl : (s.rbuf.take tocopy).length = tocopy := by
      rw [List.length_take]
      omega
    refine ⟨hf.write (by omega), ?_⟩
    simp only [hp]
    refine h.write hf rfl ?_ (by simp only; omega) hpo
    simp only
    rw [← List.append_assoc, List.take_append_drop]

theorem step_filled (hf : Filling s.chain) (h : Filled binary input len s) :
    UploadInv binary input len (completeStep binary s) := by
  have ht : Items.chainBytes s.chain.chain = input.take len := by
    rw [← h.bytes, List.take_left' h.count]
  have hd : s.rbuf ++ s.net = input.drop len := by
    rw [← h.bytes, List.drop_left' h.count]
  have hl : len ≤ input.length := by
    rw [← h.bytes, List.length_append, h.count]
    omega
  unfold completeStep
  cases hb : binary
  · rw [if_neg (by decide)]
    exact ⟨hf, by simpa [hb] using ht, hl, hd, h.used hb⟩
  have hr := h.room hb
  rw [if_pos rfl, if_neg (by omega)]
  refine ⟨hf.write hr, ?_, hl, hd, ?_⟩
  · show Items.chainBytes (s.chain.write _).chain = _
    rw [hf.bytes_write, ht]
    rfl
  · simp [Dest.write, ascii]

theorem Swallowing.drop {s' : UploadState} {sbytes sbytes' : ℕ}
    (h : Swallowing input len sbytes s) (bytes : Bytes)
    (hb : bytes ++ (s'.rbuf ++ s'.net) = s.rbuf ++ s.net)
    (hc : sbytes' + bytes.length = sbytes) : Swallowing input len sbytes' s' := by
  obtain ⟨gone, he, hl⟩ := h
  refine ⟨gone ++ bytes, by rw [List.append_assoc, hb, he], ?_⟩
  rw [List.length_append]
  omega

theorem step_swallow (hf : Filling s.chain) {sbytes : ℕ}
    (h : Swallowing input len sbytes s) (hp : s.phase = .swallow sbytes) (e : Round) :
    UploadInv binary input len (swallowStep rsize e sbytes s) := by
  unfold swallowStep
  by_cases hz : sbytes = 0
  · rw [if_pos hz]
    obtain ⟨gone, he, hl⟩ := h
    have hg : gone.length = len := by omega
    refine ⟨hf, ?_, ?_⟩
    · rw [← he, List.length_append]
      omega
    · rw [← he, List.drop_left' hg]
  rw [if_neg hz]
  by_cases hr : s.rbuf = []
  · rw [if_neg (not_not.mpr hr)]
    obtain k | _ | _ | _ := e.res
    · refine ⟨hf, h.drop (s.net.take (min (min rsize sbytes) (k + 1))) ?_ ?_⟩
      · simp only
        rw [hr, List.nil_append, List.nil_append]
        exact List.prefix_iff_eq_append.mp (List.take_prefix _ _)
      · rw [List.length_take]
        omega
    · exact ⟨hf, by simp only [hp]; exact h⟩
    · exact ⟨hf, trivial⟩
    · exact ⟨hf, trivial⟩
  · rw [if_pos hr]
    refine ⟨hf, h.drop (s.rbuf.take (min s.rbuf.length sbytes)) ?_ ?_⟩
    · simp only
      rw [← List.append_assoc, List.take_append_drop]
    · rw [List.length_take]
      omega

theorem uploadStep_inv (hm : 50 ≤ max) (h : UploadInv binary input len s) (e : Round) :
    UploadInv binary input len (uploadStep binary max rsize s e) := by
  obtain ⟨hf, hi⟩ := h
  unfold uploadStep
  rcases hp : s.phase with _ | _ | _ | sbytes | _ | _ | _
  · rw [hp] at hi
    exact step_reading hm hf hi hp e
  · rw [hp] at hi
    exact step_filled hf hi
  · exact ⟨hf, hi⟩
  · rw [hp] at hi
    exact step_swallow hf hi hp e
  · exact ⟨hf, hi⟩
  · exact ⟨hf, hi⟩
  · exact ⟨hf, hi⟩

end Rounds

/-! ## Main result -/

section Runs

variable {binary : Bool} {max rsize : ℕ} {input : Bytes} {len : ℕ} {t : UploadState}

theorem reachable_uploadInv (hm : 50 ≤ max) (hl : 0 < len)
    (h : (uploads binary max rsize input len).Reachable (fun _ _ => True) t) :
    UploadInv binary input len t := by
  refine h.induct ?_ ?_
  · rintro s ⟨hc, hr, hi, hp⟩
    refine ⟨by rw [hc]; exact filling_newChain, ?_⟩
    rw [hp]
    refine ⟨?_, ?_, fun _ => by omega⟩
    · rw [hc, hi]
      rfl
    · rw [hc, hr]
      exact Nat.zero_add len
  · intro s e u r hs _ hst
    obtain rfl : uploadStep binary max rsize s e = u := by
      simpa [uploads] using hst
    exact uploadStep_inv hm hs e

/-- A complete upload has left its chunks in a layout whose end `complete_nread_ascii` can
look at. -/
theorem reachable_layout (hm : 50 ≤ max) (hl : 0 < len)
    (h : (uploads binary max rsize input len).Reachable (fun _ _ => True) t)
    (hp : t.phase = .completed) : ChunkLayout t.chain := by
  obtain ⟨hf, hi⟩ := reachable_uploadInv hm hl h
  rw [hp] at hi
  refine ⟨hf.last, hi.used, ?_⟩
  obtain ⟨-, hd⟩ | ⟨-, hr⟩ := hf.shape
  · exact absurd (by rw [hd]) hi.used
  · exact hr

/-- **The command of an upload.** Every upload of a text command into chunks, however its bytes
arrive and are cut: a block with its line end has the answer and the effect that it has in one
piece, and any other block makes an assertion fail. -/
theorem uploaded_block_completes {Addr : Type*} [DecidableEq Addr] [Fintype Addr]
    (hm : 50 ≤ max) (hl : 2 ≤ len)
    (h : (uploads false max rsize input len).Reachable (fun _ _ => True) t)
    (hp : t.phase = .completed) (S : TextSettings) (env : Env Addr) (s : Store Addr)
    (u : Upload Addr) :
    completeNread S env s u (.chunks t.chain) =
      if lastTwo (input.take len) = ascii "\r\n" then
        some (completeNreadAscii S env s u (input.take len))
      else none := by
  obtain ⟨-, hi⟩ := reachable_uploadInv hm (by omega) h
  rw [hp] at hi
  have hb : (Block.chunks t.chain).bytes = input.take len := hi.bytes.trans (List.append_nil _)
  have hk := check_eq (b := .chunks t.chain) (reachable_layout hm (by omega) h hp)
    (by rwa [hb, List.length_take, min_eq_left hi.count])
  rw [hb] at hk
  split_ifs with he
  · rw [completeNread, hk.1.mpr he, hb, completeNreadAscii, he]
    rfl
  · rw [completeNread, if_pos (hk.2.mpr ⟨he, _, rfl⟩)]

end Runs

/-- An upload of 20 bytes, 5 of which are in the read buffer, with the next command behind
it. -/
def twentyBytes : UploadState where
  chain := newChain
  rlbytes := 20
  rbuf := List.replicate 5 97
  net := List.replicate 15 98 ++ ascii "mn\r\n"
  phase := .reading

theorem uploaded_block_completes_line : ∃ t : UploadState, t.chain.before.length = 2 ∧
    let u : Upload (Fin 1) := { item := 0, rlbytes := 24, cmd := .set, noreply := false }
    completeNread textSettings oneRoom (emptyStore 1) u (.chunks t.chain) =
      some (completeNreadAscii textSettings oneRoom (emptyStore 1) u
        (twentyBytes.rbuf ++ twentyBytes.net)) := by
  have hi : (uploads false 64 2048 (twentyBytes.rbuf ++ twentyBytes.net) 24).Reachable
      (fun _ _ => True) { twentyBytes with rlbytes := 24 } := .of_init ⟨rfl, rfl, rfl, rfl⟩
  obtain ⟨t, ht, hp, hc⟩ := hi.exists_of_exec (List.replicate 8 ⟨(true, true), .got 9⟩)
    (p := fun t => t.phase = .completed ∧ t.chain.before.length = 2) (by decide +kernel)
  exact ⟨t, hc, (uploaded_block_completes (by decide) (by decide) ht hp _ _ _ _).trans
    (if_pos (by decide))⟩

end Memcached.Net
