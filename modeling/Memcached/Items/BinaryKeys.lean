import Memcached.Items.Steps
import Memcached.Util.Base64

/-!
# Keys that were supplied in binary

A meta command with flag `b` has its key in base64. The item is to carry
`ITEM_KEY_BINARY`, so that its key is never written raw into a response line. Only
`process_mset_command` sets the flag; items are also made by `mg` and `ma` with flag `N`,
append, prepend, increments and the write-out to external storage. `bin` is not in the
source: it tells whether the key was supplied in binary.

Results:
* `binary_keys_marked`: items made by `ms` carry the mark
* `vivified_key_unmarked`: one made by `mg` with flag `N` does not
-/

namespace Memcached.Items

open Lib Assoc
open Function (update update_self update_of_ne)

variable {Addr : Type*} [DecidableEq Addr] [Fintype Addr]

/-! ## The commands -/

/-- `it->it_flags |= ITEM_KEY_BINARY` -/
def setKeyBinary (s : Store Addr) (a : Addr) : Store Addr :=
  s.modify a fun it => { it with flags := { it.flags with keyBinary := true } }

/-- `META_KEY` (`proto_text.c`, lines 36-47): the key as a response line has it. -/
def metaKey (it : Item) : Bytes :=
  if it.flags.keyBinary then Util.base64Encode it.key 512 ++ ascii " b" else it.key

/-- `process_mset_command` up to the upload (`proto_text.c`, lines 1476-1535), and the data
block: the new item. -/
def msetItem (S : Settings) (s : Store Addr) (key : Bytes) (binary : Bool)
    (flags exptime cas : ℕ) (data : Bytes) (rounds : ℕ → Round Addr) :
    Store Addr × Option Addr :=
  match doItemAlloc S s key flags exptime data.length rounds with
  | (s, none) => (s, none)
  | (s, some it) =>
    let s := setCas s it cas
    let s := if binary then setKeyBinary s it else s
    (setData s it data, some it)

/-- `process_mset_command` and the end of its upload, which calls `do_store_item`. Without
memory the item that the key has is removed (`proto_text.c`, lines 1497-1506). -/
def processMset (S : Settings) (s : Store Addr) (key : Bytes) (binary : Bool)
    (flags exptime cas : ℕ) (data : Bytes) (comm : Comm) (setStale : Bool)
    (rounds rounds' : ℕ → Round Addr) (env : CopyEnv) : Store Addr × Option StoreItemType :=
  match msetItem S s key binary flags exptime cas data rounds with
  | (s, none) =>
    match doItemGet S s key false false with
    | (s, none) => (s, none)
    | (s, some a) => (releaseRef (doItemUnlink S s a) a, none)
  | (s, some it) =>
    let (s, result, _) := doStoreItem S s it comm setStale rounds' env
    (s, some result)

/-- The item that `process_mget_command` creates for a miss with flag `N` (`proto_text.c`,
lines 1120-1135), and its expiry time. -/
def mgetVivify (S : Settings) (s : Store Addr) (key : Bytes) (exptime : ℕ)
    (rounds : ℕ → Round Addr) : Store Addr × Bool :=
  match doItemAlloc S s key 0 0 2 (lockHeld (S.hash key) rounds) with
  | (s, none) => (s, false)
  | (s, some it) => (setExptime (doItemLink S (setData s it (ascii "\r\n")) it) it exptime, true)

/-- The item that `process_marithmetic_command` creates for a miss with flag `N`
(`proto_text.c`, lines 1779-1797). -/
def marithmeticVivify (S : Settings) (s : Store Addr) (key : Bytes) (initial : ℕ)
    (rounds rounds' : ℕ → Round Addr) : Store Addr × Bool :=
  let value := Util.itoaU64 initial ++ ascii "\r\n"
  match doItemAlloc S s key 0 0 value.length (lockHeld (S.hash key) rounds) with
  | (s, none) => (s, false)
  | (s, some it) =>
    let (s, result, _) := doStoreItem S (setData s it value) it .add false rounds' {}
    (s, decide (result = .stored))

/-- `storage_write` (`storage.c`, lines 488-560) for an item it got from the LRU tail: a header
item takes its place, with its CAS value. -/
def storageWrite (S : Settings) (s : Store Addr) (it : Addr) (rounds : ℕ → Round Addr) :
    Store Addr :=
  match doItemAlloc S s (s.key it) (s.items it).flagsConv (s.items it).exptime 12
      (lockHeld (S.hash (s.key it)) rounds) with
  | (s, none) => s
  | (s, some hdr) =>
    let s := s.modify hdr fun h =>
      { h with flags := { h.flags with hdr := true }, data := (s.items it).data }
    setCas (doItemReplace S s it hdr) hdr (s.items it).getCas

/-- The store, and which keys were supplied in binary. -/
structure MetaState (Addr : Type*) where
  store : Store Addr
  bin : Bytes → Bool

/-- The steps: those of items that link none, increments, and the commands that store items. -/
inductive MetaOp (Addr : Type*) where
  | op (o : Op Addr)
  | ms (key : Bytes) (binary : Bool) (flags exptime cas : ℕ) (data : Bytes) (comm : Comm)
      (setStale : Bool) (rounds rounds' : ℕ → Round Addr) (env : CopyEnv)
  | mgVivify (key : Bytes) (binary : Bool) (exptime : ℕ) (rounds : ℕ → Round Addr)
  | maVivify (key : Bytes) (binary : Bool) (initial : ℕ) (rounds rounds' : ℕ → Round Addr)
  | storageWrite (it : Addr) (rounds : ℕ → Round Addr)

/-- The operation links an item that it is given. -/
def Op.links : Op Addr → Bool
  | .store .. => true
  | .link _ => true
  | .replace .. => true
  | _ => false

/-- What the callers see to: a command vivifies an item after a miss, under the lock of the
key, and the writer to storage holds the linked item. -/
def MetaOp.Guard (S : Settings) (m : MetaState Addr) : MetaOp Addr → Prop
  | .op o => o.links = false
  | .ms .. => True
  | .mgVivify key .. | .maVivify key .. =>
    assocFind m.store.key m.store.assoc key (S.hash key) = none
  | .storageWrite it _ => 0 < m.store.refs it ∧ (m.store.items it).flags.linked = true

instance (S : Settings) (m : MetaState Addr) (op : MetaOp Addr) : Decidable (op.Guard S m) := by
  delta MetaOp.Guard
  split <;> infer_instance

/-- The key of a new item. -/
def MetaState.supply (m : MetaState Addr) (s : Store Addr) (key : Bytes) (binary stored : Bool) :
    MetaState Addr :=
  { store := s, bin := if stored then Function.update m.bin key binary else m.bin }

def metaStep (S : Settings) (m : MetaState Addr) (op : MetaOp Addr) : Option (MetaState Addr) :=
  if op.Guard S m then
    match op with
    | .op o => (step S m.store o).map fun r => { m with store := r.1 }
    | .ms key binary flags exptime cas data comm setStale rounds rounds' env =>
      let (s, result) :=
        processMset S m.store key binary flags exptime cas data comm setStale rounds rounds' env
      some (m.supply s key binary (decide (result = some .stored)))
    | .mgVivify key binary exptime rounds =>
      let (s, created) := mgetVivify S m.store key exptime rounds
      some (m.supply s key binary created)
    | .maVivify key binary initial rounds rounds' =>
      let (s, created) := marithmeticVivify S m.store key initial rounds rounds'
      some (m.supply s key binary created)
    | .storageWrite it rounds => some { m with store := storageWrite S m.store it rounds }
  else none

def metaSystem (Addr : Type*) [DecidableEq Addr] [Fintype Addr] (S : Settings) :
    System (MetaState Addr) (MetaOp Addr) Unit where
  init := fun m => Init m.store ∧ m.bin = fun _ => false
  step := fun m op => (metaStep S m op).map fun m => (m, ())

/-- The step makes no item for a binary key but by `ms`, in a mode that stores the uploaded
item itself. -/
def KeepsMark (m : MetaState Addr) : MetaOp Addr → Prop
  | .op (.addDelta key ..) => m.bin key = false
  | .op _ => True
  | .ms _ binary _ _ _ _ comm .. => binary = true → comm ≠ .append ∧ comm ≠ .prepend
  | .mgVivify _ binary .. => binary = false
  | .maVivify _ binary .. => binary = false
  | .storageWrite it _ => m.bin (m.store.key it) = false

/-! ## Marked items -/

/-- Every linked item whose key was supplied in binary carries the flag. -/
def Marked (s : Store Addr) (bin : Bytes → Bool) : Prop :=
  ∀ a, s.Linked a → bin (s.key a) = true → (s.items a).flags.keyBinary = true

variable {S : Settings} {s s' : Store Addr} {a b it new : Addr} {bin : Bytes → Bool}
  {L T : Addr → Prop}

omit [DecidableEq Addr] [Fintype Addr] in
theorem Marked.of_linked (h : Marked s bin)
    (hl : ∀ b, s'.Linked b → s.Linked b ∧ (s'.items b).content = (s.items b).content) :
    Marked s' bin := by
  intro b hb hbi
  obtain ⟨hb', hc⟩ := hl b hb
  have hk : s'.key b = s.key b := Item.key_eq hc
  rw [Item.proj_eq (fun it => it.flags.keyBinary) hc]
  exact h b hb' (hk ▸ hbi)

theorem Marked.of_published (h : Marked s bin) (hp : Published S L s s') : Marked s' bin :=
  h.of_linked fun b hb => ⟨(hp.linked b hb).1, (hp.linked b hb).2.1⟩

theorem Marked.of_serves (h : Marked s bin) (hp : Serves S L T s s') : Marked s' bin :=
  h.of_linked fun b hb => ⟨(hp.linked b hb).1, (hp.linked b hb).2.1⟩

theorem Marked.of_stores (h : Marked s bin) {i : Item} (hs : Stores S L s s' new i)
    {bin' : Bytes → Bool} (hbi : ∀ k, k ≠ i.key → bin' k = bin k)
    (hn : bin' i.key = true → i.flags.keyBinary = true) : Marked s' bin' := by
  intro b hb hb'
  by_cases hbn : b = new
  · subst hbn
    rw [hs.key_eq] at hb'
    have hf := congrArg (fun it => it.flags.keyBinary) hs.item
    exact hf.trans (hn hb')
  · obtain ⟨hl, hk, hc, -⟩ := hs.others b hbn hb
    have hkb : s'.key b = s.key b := Item.key_eq hc
    rw [hkb, hbi _ hk] at hb'
    rw [Item.proj_eq (fun it => it.flags.keyBinary) hc]
    exact h b hl hb'

theorem Marked.of_edits (h : Marked s bin) {c : Item} {n : ℕ} (he : Edits S s s' a c n)
    (hc : c.flags.keyBinary = (s.items a).flags.keyBinary) : Marked s' bin := by
  intro b hb hbi
  have hl := (he.linked b).mp hb
  by_cases hba : b = a
  · subst hba
    have hk : s'.key b = s.key b := by
      have := congrArg Item.key he.item
      exact Eq.trans this he.key
    have hf := congrArg (fun it => it.flags.keyBinary) he.item
    rw [hk] at hbi
    exact hf.trans (hc.trans (h b hl hbi))
  · obtain ⟨hcb, -⟩ := he.others b hba hl
    have hk : s'.key b = s.key b := Item.key_eq hcb
    rw [Item.proj_eq (fun it => it.flags.keyBinary) hcb]
    exact h b hl (hk ▸ hbi)

theorem Marked.of_step (h : Marked s bin) (hinv : Inv S s) (hlt : CountsLow s) {o : Op Addr}
    {r : Reply Addr} (hl : o.links = false)
    (hd : ∀ key incr delta cas keep rounds, o = .addDelta key incr delta cas keep rounds →
      bin key = false) (hst : step S s o = some (s', r)) : Marked s' bin := by
  cases step_change hinv hlt hst with
  | serves L T hs _ => exact h.of_serves hs
  | stores L new i hs _ hk =>
    refine h.of_stores hs (fun _ _ => rfl) fun hbi => ?_
    obtain hk | hk := hk
    · cases o <;> first | exact hk.elim | cases hl
    cases o with
    | addDelta key incr delta cas keep rounds =>
      have := hd key incr delta cas keep rounds rfl
      rw [hk.1, hbi] at this
      cases this
    | _ => exact hk.elim
  | edits a c n he _ hc =>
    refine h.of_edits he ?_
    obtain ⟨exptime, rfl, -⟩ | ⟨-, -, -, -, hf⟩ := hc
    · rfl
    · exact hf
  | tick now hs _ _ =>
    rw [hs]
    exact h
  | flush exptime hs _ =>
    have hi : s'.items = s.items := hs ▸ items_processFlushAll
    refine h.of_linked fun b hb => ?_
    rw [Store.Linked, hi] at hb
    exact ⟨hb, by rw [hi]⟩

/-! ## New items -/

variable {flags exptime nbytes : ℕ}

theorem Allocated.keyBinary_eq {s1 : Store Addr} {key : Bytes}
    (ha : Allocated S s1 s' a key flags exptime nbytes) (h : Inv S s1) :
    (s'.items a).flags.keyBinary = false := by
  obtain ⟨id, hc⟩ := ha.item
  have hw : (s1.items a).flags.keyBinary = false :=
    congrArg ItFlags.keyBinary (h.wiped a ha.slabbed)
  rw [Item.proj_eq (fun it => it.flags.keyBinary) hc]
  simp [itemInit, hw]

/-- A new item in the hands of a command, which nobody else has changed anything for. -/
structure Created (S : Settings) (L : Addr → Prop) (s s' : Store Addr) (it : Addr) (key : Bytes)
    (binary : Bool) : Prop where
  published : Published S L s s'
  low : CountsLow s'
  refs : 0 < s'.refs it
  linked : ¬s'.Linked it
  key : s'.key it = key
  marked : (s'.items it).flags.keyBinary = binary
  held : ∀ b, 0 < s.refs b → 0 < s'.refs b

variable {rounds : ℕ → Round Addr}

theorem doItemAlloc_created (h : Inv S s) (hlt : CountsLow s) {key : Bytes}
    (he : doItemAlloc S s key flags exptime nbytes rounds = (s', some it)) :
    Created S (Lockable S rounds s) s s' it key false := by
  obtain ⟨s1, hp, ha⟩ := doItemAlloc_some h hlt he
  refine ⟨?_, fun b => ?_, ha.refs_pos, ha.linked, (ha.item_eq hp.inv).1,
    ha.keyBinary_eq hp.inv, fun b hb => ?_⟩
  · exact (hp.toQuiet.published.trans (ha.published hp.inv)).mono
      fun b _ hb => hb.elim id False.elim
  · by_cases hb : b = it
    · rw [hb, ha.refcount]
      decide
    rw [ha.items b hb]
    have := Quiet.refcount_le h hp.toQuiet hp.refs hp.bumps b
    have := hlt b
    omega
  · rw [ha.refs, hp.refs]
    omega

theorem Created.write {key : Bytes} {binary binary' : Bool} {s1 : Store Addr} {i : Item}
    (h : Created S L s s1 it key binary)
    (hi : ∀ b, s'.items b = if b = it then i else s1.items b)
    (hh : i.header = (s1.items it).header) (hca : i.flags.cas = (s1.items it).flags.cas)
    (hbi : i.flags.keyBinary = binary')
    (hf : s'.assoc = s1.assoc ∧ s'.lru = s1.lru ∧ s'.bumps = s1.bumps ∧ s'.refs = s1.refs ∧
      s'.freed = s1.freed) (hc : s'.casId = s1.casId) (hcl : s'.clock = s1.clock) :
    Created S L s s' it key binary' where
  published := by
    have hinv := h.published.inv.of_held h.refs hi hh hca (absurd · h.linked) hf
    have hw := Published.of_items hinv hi h.linked (congrArg Header.linked hh)
      hc hcl
    exact (h.published.trans hw).mono fun b _ hb => hb.elim id False.elim
  low := fun b => by
    rw [hi]
    split_ifs with hb
    · rw [show i.refcount = (s1.items it).refcount from congrArg Header.refcount hh]
      exact h.low it
    · exact h.low b
  refs := by
    rw [hf.2.2.2.1]
    exact h.refs
  linked := by
    rw [Store.Linked, hi, if_pos rfl,
      show i.flags.linked = (s1.items it).flags.linked from congrArg Header.linked hh]
    exact h.linked
  key := by
    rw [Store.key, hi, if_pos rfl,
      show i.key = (s1.items it).key from congrArg Header.key hh]
    exact h.key
  marked := by rw [hi, if_pos rfl, hbi]
  held := by
    rw [hf.2.2.2.1]
    exact h.held

theorem doItemAlloc_none (h : Inv S s) (hlt : CountsLow s) {key : Bytes}
    (he : doItemAlloc S s key flags exptime nbytes rounds = (s', none)) :
    Published S (Lockable S rounds s) s s' ∧ CountsLow s' := by
  obtain ⟨s1, hp, hn | ⟨s2, a, hs, -⟩⟩ :=
    doItemAlloc_spec h hlt.countsOpen key flags exptime nbytes rounds
  · rw [he] at hn
    cases hn
    refine ⟨hp.toQuiet.published, fun b => ?_⟩
    have := Quiet.refcount_le h hp.toQuiet hp.refs hp.bumps b
    have := hlt b
    omega
  · rw [he] at hs
    cases hs

section Write

variable {key : Bytes} {binary : Bool} {s1 : Store Addr}

variable (h : Created S L s s1 it key binary)
include h

theorem Created.setCas (cas : ℕ) : Created S L s (setCas s1 it cas) it key binary := by
  refine h.write (items_setCas cas) ?_ ?_ ?_ ⟨rfl, rfl, rfl, rfl, rfl⟩ rfl rfl
  · split_ifs <;> rfl
  · split_ifs <;> rfl
  · split_ifs <;> exact h.marked

theorem Created.setData (data : Bytes) : Created S L s (setData s1 it data) it key binary :=
  h.write (items_setData data) rfl rfl h.marked ⟨rfl, rfl, rfl, rfl, rfl⟩ rfl rfl

theorem Created.setKeyBinary : Created S L s (setKeyBinary s1 it) it key true :=
  h.write (fun b => items_modify _ b) rfl rfl rfl ⟨rfl, rfl, rfl, rfl, rfl⟩ rfl rfl

end Write

theorem msetItem_created (h : Inv S s) (hlt : CountsLow s) {key : Bytes} {binary : Bool}
    {flags exptime cas : ℕ} {data : Bytes}
    (he : msetItem S s key binary flags exptime cas data rounds = (s', some it)) :
    Created S (Lockable S rounds s) s s' it key binary := by
  unfold msetItem at he
  rcases ha : doItemAlloc S s key flags exptime data.length rounds with ⟨s1, _ | a⟩
  · rw [ha] at he
    cases he
  rw [ha] at he
  cases he
  have hn := (doItemAlloc_created h hlt ha).setCas cas
  cases binary with
  | false => exact hn.setData data
  | true => exact hn.setKeyBinary.setData data

theorem msetItem_none (h : Inv S s) (hlt : CountsLow s) {key : Bytes} {binary : Bool}
    {flags exptime cas : ℕ} {data : Bytes}
    (he : msetItem S s key binary flags exptime cas data rounds = (s', none)) :
    Published S (Lockable S rounds s) s s' ∧ CountsLow s' := by
  unfold msetItem at he
  rcases ha : doItemAlloc S s key flags exptime data.length rounds with ⟨s1, _ | a⟩
  · rw [ha] at he
    cases he
    exact doItemAlloc_none h hlt ha
  · rw [ha] at he
    cases he

/-- The state after a command: the invariant, and the marks. -/
def Ends (S : Settings) (s' : Store Addr) (bin : Bytes → Bool) : Prop :=
  Inv S s' ∧ Marked s' bin

theorem update_bin {key : Bytes} {binary : Bool} (k : Bytes) (hk : k ≠ key) :
    update bin key binary k = bin k := update_of_ne hk _ _

theorem doStoreItem_ends {key : Bytes} {binary : Bool} {s1 : Store Addr} (h : Marked s bin)
    (hc : Created S L s s1 it key binary) (comm : Comm) (setStale : Bool)
    (hcom : binary = true → comm ≠ .append ∧ comm ≠ .prepend)
    (rounds : ℕ → Round Addr) (env : CopyEnv) :
    Ends S (doStoreItem S s1 it comm setStale rounds env).1
      (if (doStoreItem S s1 it comm setStale rounds env).2.1 = .stored then
        update bin key binary else bin) := by
  have hm := h.of_published hc.published
  have hinv := hc.published.inv
  -- the stored item is the new one, or has its mark
  have hsto : ∀ {L' : Addr → Prop} {s' : Store Addr} {new : Addr} {i : Item},
      Stores S L' s1 s' new i → i.key = key → (binary = true → i.flags.keyBinary = true) →
      Ends S s' (update bin key binary) := by
    intro L' s' new i hs hk hmark
    refine ⟨hs.inv, hm.of_stores hs (fun k hn => update_bin k (hk ▸ hn)) fun hb => hmark ?_⟩
    rwa [hk, update_self] at hb
  have hse : (s1.items it).key = key := hc.key
  have hmark : binary = true → (s1.items it).flags.keyBinary = true := fun hb =>
    hc.marked.trans hb
  have hqu : ∀ {L' : Addr → Prop} {s' : Store Addr}, Published S L' s1 s' →
      Ends S s' bin := fun hp => ⟨hp.inv, hm.of_published hp⟩
  obtain hmi | ⟨old, hh⟩ := missing_or_hit s1 (s1.key it)
  · obtain ⟨s', r, cas, he, -, hsp⟩ :=
      doStoreItem_of_missing hinv hc.low hc.refs hc.linked hmi comm setStale rounds env
    rw [he]
    cases comm with
    | add | set =>
      obtain ⟨rfl, -, hs⟩ := hsp
      exact hsto hs hse hmark
    | replace | append | prepend | cas =>
      obtain ⟨rfl, -, hp⟩ := hsp
      exact hqu hp
  obtain ⟨s', r, cas, he, hsp⟩ :=
    doStoreItem_of_hit hinv hc.low hc.refs hc.linked hh comm setStale rounds env
  have hco : Concatenates S s1 s' it old comm env r cas → binary = false →
      Ends S s' (if r = .stored then update bin key binary else bin) := by
    intro hcat hb
    cases hcat with
    | badToken hq => exact hqu hq.published
    | refused hp => exact hqu hp
    | stored new it' _ hst hma _ _ =>
      refine hsto hst ?_ fun hb' => absurd hb' (by simp [hb])
      rw [hma.key]
      exact hh.key.trans hse
  have hf : comm = .append ∨ comm = .prepend → binary = false := by
    intro ho
    cases hb : binary with
    | false => rfl
    | true =>
      have := hcom hb
      obtain rfl | rfl := ho <;> simp at this
  rw [he]
  cases comm with
  | add =>
    obtain ⟨rfl, -, hq⟩ := hsp
    exact ⟨hq.inv, hm.of_serves hq.serves⟩
  | set | replace =>
    obtain ⟨rfl, -, hs⟩ := hsp
    exact hsto hs hse hmark
  | append => exact hco hsp (hf (.inl rfl))
  | prepend => exact hco hsp (hf (.inr rfl))
  | cas =>
    simp only at hsp
    cases hca : casTest (s1.items it).getCas (s1.items old).getCas setStale with
    | none | badval =>
      rw [hca] at hsp
      obtain ⟨rfl, -, hq⟩ := hsp
      exact hqu hq.published
    | «match» =>
      rw [hca] at hsp
      obtain ⟨rfl, -, hs⟩ := hsp
      exact hsto hs hse hmark
    | stale =>
      rw [hca] at hsp
      obtain ⟨rfl, -, hs⟩ := hsp
      exact hsto hs hse hmark

section

variable (hinv : Inv S s) (hlt : CountsLow s) (h : Marked s bin)
include hinv hlt h

theorem processMset_ends (key : Bytes)
    (binary : Bool) (flags exptime cas : ℕ) (data : Bytes) (comm : Comm) (setStale : Bool)
    (hc : binary = true → comm ≠ .append ∧ comm ≠ .prepend)
    (rounds rounds' : ℕ → Round Addr) (env : CopyEnv) :
    Ends S
      (processMset S s key binary flags exptime cas data comm setStale rounds rounds' env).1
      (if (processMset S s key binary flags exptime cas data comm setStale rounds rounds' env).2 =
          some .stored then update bin key binary else bin) := by
  unfold processMset
  rcases hi : msetItem S s key binary flags exptime cas data rounds with ⟨s1, _ | it⟩
  · obtain ⟨hp, hl⟩ := msetItem_none hinv hlt hi
    have hm := h.of_published hp
    obtain hmi | ⟨a, hh⟩ := missing_or_hit s1 key
    · obtain ⟨s2, hg, hq, -⟩ := doItemGet_of_missing hp.inv hl hmi false false
      simp only [hg]
      exact ⟨hq.inv, hm.of_published hq.published⟩
    · have hg := doItemGet_peek hp.inv hl hh
      simp only [hg]
      have hd := (holding_takeRef hp.inv hl hh.linked).delete.1
      exact ⟨hd.inv, hm.of_published hd⟩
  · have he := doStoreItem_ends h (msetItem_created hinv hlt hi) comm setStale hc rounds' env
    simpa using he

theorem mgetVivify_ends {key : Bytes}
    (hmi : assocFind s.key s.assoc key (S.hash key) = none) (exptime : ℕ)
    (rounds : ℕ → Round Addr) :
    Ends S (mgetVivify S s key exptime rounds).1
      (if (mgetVivify S s key exptime rounds).2 then update bin key false else bin) := by
  unfold mgetVivify
  rcases ha : doItemAlloc S s key 0 0 2 (lockHeld (S.hash key) rounds) with ⟨s1, _ | it⟩
  · obtain ⟨hp, -⟩ := doItemAlloc_none hinv hlt ha
    exact ⟨hp.inv, h.of_published hp⟩
  have hc := (doItemAlloc_created hinv hlt ha).setData (ascii "\r\n")
  simp only [if_true]
  set s2 := setData s1 it (ascii "\r\n")
  have hab : ∀ b, s2.Linked b → s2.key b ≠ s2.key it := by
    intro b hb he
    obtain ⟨hlb, -⟩ := hc.published.linked b hb
    have hkb := hc.published.key_eq hb
    rw [hc.key] at he
    exact hinv.find_eq_none_iff.mp hmi b hlb (hkb.symm.trans he)
  have hco : (s2.items it).refcount + 1 < 2 ^ 16 := by
    have := hc.low it
    omega
  have hs := doItemLink_stores hc.published.inv hc.linked hc.refs hab hco
  have hm : Marked (doItemLink S s2 it) (update bin key false) := by
    refine (h.of_published hc.published).of_stores hs (fun k hk => ?_) fun hb => ?_
    · exact update_bin k (hc.key ▸ hk)
    have hke : (s2.items it).key = key := hc.key
    rw [hke, update_self] at hb
    cases hb
  have hr : 0 < (doItemLink S s2 it).refs it := by
    rw [refs_doItemLink]
    exact hc.refs
  have hi' : Inv S (setExptime (doItemLink S s2 it) it exptime) :=
    hs.inv.of_held hr (items_setExptime exptime) rfl rfl (fun _ => rfl)
      ⟨rfl, rfl, rfl, rfl, rfl⟩
  refine ⟨hi', fun b hb hbin => ?_⟩
  have hl : (doItemLink S s2 it).Linked b := by
    rw [Store.Linked, items_setExptime] at hb
    split_ifs at hb with hbi
    · rw [hbi]
      exact hb
    · exact hb
  have hke : (setExptime (doItemLink S s2 it) it exptime).key b =
      (doItemLink S s2 it).key b :=
    proj_of_items Item.key (items_setExptime exptime) rfl b
  have hf : ((setExptime (doItemLink S s2 it) it exptime).items b).flags.keyBinary =
      ((doItemLink S s2 it).items b).flags.keyBinary :=
    proj_of_items (fun it => it.flags.keyBinary) (items_setExptime exptime) rfl b
  rw [hf]
  exact hm b hl (hke ▸ hbin)

theorem marithmeticVivify_ends (key : Bytes) (initial : ℕ) (rounds rounds' : ℕ → Round Addr) :
    Ends S (marithmeticVivify S s key initial rounds rounds').1
      (if (marithmeticVivify S s key initial rounds rounds').2 then
        update bin key false else bin) := by
  rcases ha : doItemAlloc S s key 0 0 (Util.itoaU64 initial ++ ascii "\r\n").length
    (lockHeld (S.hash key) rounds) with ⟨s1, _ | it⟩
  · have heq : marithmeticVivify S s key initial rounds rounds' = (s1, false) := by
      simp only [marithmeticVivify, ha]
    obtain ⟨hp, -⟩ := doItemAlloc_none hinv hlt ha
    rw [heq]
    exact ⟨hp.inv, h.of_published hp⟩
  have hc := (doItemAlloc_created hinv hlt ha).setData (Util.itoaU64 initial ++ ascii "\r\n")
  have he := doStoreItem_ends h hc .add false (by simp) rounds' {}
  rcases hs : doStoreItem S (setData s1 it (Util.itoaU64 initial ++ ascii "\r\n")) it .add
    false rounds' {} with ⟨s2, result, cas⟩
  have heq : marithmeticVivify S s key initial rounds rounds' =
      (s2, decide (result = .stored)) := by
    simp only [marithmeticVivify, ha, hs]
  rw [hs] at he
  rw [heq]
  simpa only [decide_eq_true_eq] using he

theorem storageWrite_ends (hl : s.Linked it) (hbi : bin (s.key it) = false)
    (rounds : ℕ → Round Addr) : Ends S (storageWrite S s it rounds) bin := by
  unfold storageWrite
  rcases ha : doItemAlloc S s (s.key it) (s.items it).flagsConv (s.items it).exptime 12
    (lockHeld (S.hash (s.key it)) rounds) with ⟨s1, _ | hdr⟩
  · obtain ⟨hp, -⟩ := doItemAlloc_none hinv hlt ha
    exact ⟨hp.inv, h.of_published hp⟩
  have hn := doItemAlloc_created hinv hlt ha
  have hc : Created S (Lockable S (lockHeld (S.hash (s.key it)) rounds) s) s
      (s1.modify hdr fun i =>
        { i with flags := { i.flags with hdr := true }, data := (s1.items it).data })
      hdr (s.key it) false :=
    hn.write (fun b => items_modify _ b) rfl rfl hn.marked ⟨rfl, rfl, rfl, rfl, rfl⟩ rfl rfl
  simp only
  set s2 := s1.modify hdr fun i =>
    { i with flags := { i.flags with hdr := true }, data := (s1.items it).data }
  -- the lock of the key is held, so the item was not evicted for the new one
  have hl2 : s2.Linked it := by
    obtain hl' | hlo := hc.published.lost it hl
    · exact hl'
    · exact absurd rfl (key_ne_of_lockable hlo)
  have hk : s2.key hdr = s2.key it := by
    rw [hc.key]
    exact (hc.published.key_eq hl2).symm
  have hco : (s2.items hdr).refcount + 1 < 2 ^ 16 := by
    have := hc.low hdr
    omega
  have hs := doItemReplace_stores hc.published.inv hl2 hc.linked hc.refs hk hco
  have hm : Marked (doItemReplace S s2 it hdr) bin := by
    refine (h.of_published hc.published).of_stores hs (fun _ _ => rfl) fun hb => ?_
    have hk' : (s2.items hdr).key = s.key it := hc.key
    rw [hk', hbi] at hb
    cases hb
  have hr : 0 < (doItemReplace S s2 it hdr).refs hdr := by
    rw [refs_doItemReplace]
    exact hc.refs
  refine ⟨setCas_inv hs.inv hr _, fun b hb hb' => ?_⟩
  have hf : ∀ {β : Type} (p : Item → β) (cas : ℕ),
      (∀ i : Item, p { i with casUnique := cas } = p i) →
      p ((setCas (doItemReplace S s2 it hdr) hdr cas).items b) =
        p ((doItemReplace S s2 it hdr).items b) := by
    intro β p cas hp
    rw [items_setCas]
    split_ifs with hbh hca
    · rw [hbh, hp]
    · rw [hbh]
    · rfl
  have hli : (doItemReplace S s2 it hdr).Linked b := by
    rw [Store.Linked, hf (fun i => i.flags.linked) _ fun _ => rfl] at hb
    exact hb
  rw [Store.key, hf Item.key _ fun _ => rfl] at hb'
  rw [hf (fun i => i.flags.keyBinary) _ fun _ => rfl]
  exact hm b hli hb'

end

/-! ## Runs -/

theorem metaStep_marked {m m' : MetaState Addr} {op : MetaOp Addr} (hinv : Inv S m.store)
    (hlt : CountsLow m.store) (h : Marked m.store m.bin) (hok : KeepsMark m op)
    (hst : metaStep S m op = some m') : Ends S m'.store m'.bin := by
  unfold metaStep at hst
  split_ifs at hst with hg
  cases op with
  | op o =>
    obtain ⟨⟨s', r⟩, hs, rfl⟩ := Option.map_eq_some_iff.mp hst
    refine ⟨step_inv hinv hlt hs, h.of_step hinv hlt hg
      (fun key incr delta cas keep rounds ho => ?_)
      hs⟩
    rw [ho] at hok
    exact hok
  | ms key binary flags exptime cas data comm setStale rounds rounds' env =>
    have he := processMset_ends hinv hlt h key binary flags exptime cas data comm setStale hok
      rounds rounds' env
    rcases hm : processMset S m.store key binary flags exptime cas data comm setStale rounds
      rounds' env with ⟨s', result⟩
    rw [hm] at he
    simp only [hm] at hst
    cases hst
    simpa only [MetaState.supply, decide_eq_true_eq, Ends] using he
  | mgVivify key binary exptime rounds =>
    cases hst
    obtain rfl : binary = false := hok
    exact mgetVivify_ends hinv hlt h hg exptime rounds
  | maVivify key binary initial rounds rounds' =>
    cases hst
    obtain rfl : binary = false := hok
    exact marithmeticVivify_ends hinv hlt h key initial rounds rounds'
  | storageWrite it rounds =>
    cases hst
    exact storageWrite_ends hinv hlt h hg.2 hok rounds

/-- In every run whose steps make items for binary keys only by `ms`, and not in the modes
append and prepend, every linked item with such a key carries `ITEM_KEY_BINARY`, and its
key is written in base64. -/
theorem binary_keys_marked {m : MetaState Addr}
    (hr : (metaSystem Addr S).Reachable (fun m op => CountsLow m.store ∧ KeepsMark m op) m) :
    ∀ a, m.store.Linked a → m.bin (m.store.key a) = true →
      (m.store.items a).flags.keyBinary = true ∧
        metaKey (m.store.items a) = Util.base64Encode (m.store.key a) 512 ++ ascii " b" := by
  have hinv : Ends S m.store m.bin := by
    refine hr.induct (P := fun m => Ends S m.store m.bin)
      (fun m hm => ⟨inv_of_init hm.1, fun a _ hb => ?_⟩) fun {m op m' r} h ho hs => ?_
    · rw [hm.2] at hb
      cases hb
    · obtain ⟨m'', hs', he⟩ := Option.map_eq_some_iff.mp hs
      cases he
      exact metaStep_marked h.1 ho.1 h.2 ho.2 hs'
  intro a hl hb
  have hmark := hinv.2 a hl hb
  exact ⟨hmark, if_pos hmark⟩

/-- An item is stored for a binary key that has a line break in it. -/
def msTrace : List (MetaOp (Fin 1)) :=
  [.ms (ascii "a\r\n") true 0 0 0 (ascii "v\r\n") .set false (slabAt 0) (slabAt 0) {}]

instance (m : MetaState Addr) (op : MetaOp Addr) : Decidable (KeepsMark m op) := by
  delta KeepsMark
  induction op using MetaOp.casesOn with
  | op op => induction op using Op.casesOn <;> infer_instance
  | _ => infer_instance

theorem binary_keys_marked_msTrace :
    ∃ m : MetaState (Fin 1), m.store.Linked 0 ∧ m.store.key 0 = ascii "a\r\n" ∧
      (m.store.items 0).flags.keyBinary = true := by
  have hi : (metaSystem (Fin 1) smallSettings).Reachable
      (fun m op => CountsLow m.store ∧ KeepsMark m op) ⟨emptyStore 1, fun _ => false⟩ :=
    .of_init ⟨emptyStore_init 1, rfl⟩
  obtain ⟨m, he, hl, hk, hb⟩ := hi.exists_of_exec msTrace
    (p := fun m => m.store.Linked 0 ∧ m.store.key 0 = ascii "a\r\n" ∧
      m.bin (m.store.key 0) = true) (by decide +kernel)
  exact ⟨m, hl, hk, (binary_keys_marked he 0 hl hb).1⟩

/-- `mg` with flags `b` and `N` creates an item for a binary key with a line break in it: the
item does not carry the flag, and the line break goes into the response. -/
theorem vivified_key_unmarked :
    ∃ m : MetaState (Fin 1),
      (metaSystem (Fin 1) smallSettings).Reachable (fun m _ => CountsLow m.store) m ∧
      m.store.Linked 0 ∧ m.bin (m.store.key 0) = true ∧
      (m.store.items 0).flags.keyBinary = false ∧ metaKey (m.store.items 0) = ascii "a\r\nb" := by
  have hi : (metaSystem (Fin 1) smallSettings).Reachable (fun m _ => CountsLow m.store)
      ⟨emptyStore 1, fun _ => false⟩ := .of_init ⟨emptyStore_init 1, rfl⟩
  exact hi.exists_of_exec [.mgVivify (ascii "a\r\nb") true 0 (slabAt 0)] (by decide +kernel)

end Memcached.Items
