import Memcached.Lib.Simulation
import Memcached.Items.CasTokens

/-!
# The item cache is a map with expiry times

`MapStep` says what the item cache is for: a map from keys to client flags, expiry time,
value and CAS value, in which expired entries are not seen. Hash chains, LRU lists,
reference counts, bump buffers and lazy expiry do not show in it. `Refines` relates it to
the states of the cache.

Results:
* `trace_refines_map`: the answers of a run are those of the map
* `map_refinement_broken`: runs in which they are not
-/

namespace Memcached.Items

open Lib Assoc

/-! ## Specification -/

structure Entry where
  flags : ℕ
  exptime : ℕ
  value : Bytes
  cas : ℕ
deriving DecidableEq

def Entry.Live (e : Entry) (now : ℕ) : Prop := e.exptime = 0 ∨ now < e.exptime

instance (e : Entry) (now : ℕ) : Decidable (e.Live now) := inferInstanceAs (Decidable (_ ∨ _))

/-- What a lookup shows of an entry: client flags, value and CAS value. -/
def Entry.seen (e : Entry) : ℕ × Bytes × ℕ := (e.flags, e.value, e.cas)

/-- The map, the CAS value that was given out last, and the time. -/
structure MapState where
  map : Bytes → Option Entry
  lastCas : ℕ
  now : ℕ

def MapState.live (m : MapState) (key : Bytes) : Option Entry :=
  (m.map key).filter fun e => e.Live m.now

def MapState.set (m : MapState) (key : Bytes) (e : Option Entry) : MapState :=
  { m with map := Function.update m.map key e }

theorem MapState.set_self (m : MapState) (key : Bytes) (e : Option Entry) :
    (m.set key e).map key = e :=
  Function.update_self ..

theorem MapState.set_of_ne (m : MapState) {key key' : Bytes} (h : key' ≠ key) (e : Option Entry) :
    (m.set key e).map key' = m.map key' :=
  Function.update_of_ne h _ _

inductive Mode where
  | set
  | add
  | replace
  | cas
deriving DecidableEq

inductive Request where
  | get (key : Bytes)
  | touch (key : Bytes) (exptime : ℕ)
  | delete (key : Bytes)
  | store (mode : Mode) (key : Bytes) (flags exptime : ℕ) (value : Bytes) (cas : ℕ)
  | tick (now : ℕ)
deriving DecidableEq

/-- The answers; `STORED` comes with the new CAS value. -/
inductive Answer where
  | found (seen : Option (ℕ × Bytes × ℕ))
  | deleted (found : Bool)
  | stored (result : StoreItemType) (cas : Option ℕ)
  | done
deriving DecidableEq

/-- What a store answers, by the live entry of its key. -/
def Mode.result (cas : ℕ) : Mode → Option Entry → StoreItemType
  | .set, _ => .stored
  | .add, none => .stored
  | .add, some _ => .notStored
  | .replace, none => .notStored
  | .replace, some _ => .stored
  | .cas, none => .notFound
  | .cas, some e => if cas ≠ 0 ∧ cas = e.cas then .stored else .exists

inductive MapStep : MapState → Request × Answer → MapState → Prop where
  | get (m : MapState) (key : Bytes) :
      MapStep m (.get key, .found ((m.live key).map Entry.seen)) m
  | touchHit {m : MapState} {key : Bytes} {e : Entry} (h : m.live key = some e) (exptime : ℕ) :
      MapStep m (.touch key exptime, .found (some e.seen))
        (m.set key (some { e with exptime := exptime }))
  | touchMiss {m : MapState} {key : Bytes} (h : m.live key = none) (exptime : ℕ) :
      MapStep m (.touch key exptime, .found none) m
  | deleteHit {m : MapState} {key : Bytes} (h : (m.live key).isSome) :
      MapStep m (.delete key, .deleted true) (m.set key none)
  | deleteMiss {m : MapState} {key : Bytes} (h : m.live key = none) :
      MapStep m (.delete key, .deleted false) m
  | stored {m : MapState} {mode : Mode} {key : Bytes} {cas new : ℕ} (flags exptime : ℕ)
      (value : Bytes) (h : mode.result cas (m.live key) = .stored) (hnew : m.lastCas < new) :
      MapStep m (.store mode key flags exptime value cas, .stored .stored (some new))
        { m.set key (some ⟨flags, exptime, value, new⟩) with lastCas := new }
  | refused {m : MapState} {mode : Mode} {key : Bytes} {cas : ℕ} {result : StoreItemType}
      (flags exptime : ℕ) (value : Bytes) (h : mode.result cas (m.live key) = result)
      (hne : result ≠ .stored) :
      MapStep m (.store mode key flags exptime value cas, .stored result none) m
  | tick {m : MapState} {now : ℕ} (h : m.now ≤ now) :
      MapStep m (.tick now, .done) { m with now := now }

/-! ## What clients see of the cache -/

variable {Addr : Type*} [DecidableEq Addr] [Fintype Addr] {S : Settings}
  {s s' : Store Addr} {a b : Addr} {key : Bytes} {m : MapState}

def Item.entry (it : Item) : Entry := ⟨it.flagsConv, it.exptime, it.data, it.getCas⟩

/-- The mode of a store command, unless it is append or prepend. -/
def Comm.mode : Comm → Option Mode
  | .set => some .set
  | .add => some .add
  | .replace => some .replace
  | .cas => some .cas
  | .append | .prepend => none

/-- The request and the answer of a step. The item of a store request is not linked and
belongs to the client, who has filled in the value and the token. -/
def observe (s : Store Addr) (op : Op Addr) (r : Reply Addr) (s' : Store Addr) :
    Option (Request × Answer) :=
  match op, r with
  | .tick now, _ => some (.tick now, .done)
  | .get key _ _, .item it =>
    some (.get key, .found (it.map fun a => (s'.items a).entry.seen))
  | .touch key exptime _, .item it =>
    some (.touch key exptime, .found (it.map fun a => (s'.items a).entry.seen))
  | .delete key, .deleted found => some (.delete key, .deleted found)
  | .store a comm _ _ _, .stored result cas =>
    let it := s.items a
    comm.mode.map fun mode =>
      (.store mode it.key it.flagsConv it.exptime it.data it.getCas, .stored result cas)
  | _, _ => none

/-- The steps that the map speaks of, get, touch, delete and the four store modes, and
the work on items, lists and the hash table in between. Allocation and tail pulls
evict nothing live. -/
def MapOp (S : Settings) (s : Store Addr) (op : Op Addr) : Prop :=
  match op with
  | .tick _ | .assocExpand _ | .assocMigrate | .fill .. | .get .. | .touch .. | .remove _
  | .delete _ | .bump _ => True
  | .alloc .. | .pullTail .. =>
    ∀ b, s.Linked b → ¬s.Dead b → (apply S s op).1.Linked b
  | .store _ comm _ _ _ => comm.mode.isSome
  | .unlink _ | .link _ | .replace .. | .addDelta .. | .mdelete .. | .flushAll _ => False

/-- The store is not one that may replace a newer item (`ms` with `C` and `I`). -/
def NotStale : Op Addr → Prop
  | .store _ _ setStale _ _ => setStale = false
  | _ => True

def MapOk (S : Settings) (s : Store Addr) (op : Op Addr) : Prop :=
  MapOp S s op ∧ NotStale op ∧ CountersLow s

instance (op : Op Addr) : Decidable (MapOp S s op) := by
  delta MapOp
  induction op using Op.casesOn <;> infer_instance

instance (op : Op Addr) : Decidable (NotStale op) := by
  delta NotStale
  induction op using Op.casesOn <;> infer_instance

instance (op : Op Addr) : Decidable (MapOk S s op) := inferInstanceAs (Decidable (_ ∧ _))

/-! ## The refinement relation -/

/-- The linked items are entries of the map, and the map has no other live ones. -/
structure Refines (S : Settings) (s : Store Addr) (m : MapState) : Prop where
  inv : Inv S s
  now : m.now = s.currentTime
  lastCas : m.lastCas = s.casId
  oldestLive : s.oldestLive = 0
  holds : ∀ a, s.Linked a → m.map (s.key a) = some (s.items a).entry
  kept : ∀ key e, m.map key = some e → e.Live m.now → ∃ a, s.Linked a ∧ s.key a = key

omit [DecidableEq Addr] [Fintype Addr] in
theorem dead_iff (h : s.oldestLive = 0) : s.Dead a ↔ ¬(s.items a).entry.Live s.currentTime := by
  simp only [Store.Dead, itemIsFlushed, h, true_or, if_true, Bool.false_eq_true, false_or,
    Item.expiredAt, Bool.and_eq_true, bne_iff_ne, decide_eq_true_eq, Entry.Live, Item.entry]
  omega

namespace Refines

variable (h : Refines S s m)

include h

theorem live_of_hit (hh : s.Hit key a) : m.live key = some (s.items a).entry := by
  have hl : (s.items a).entry.Live m.now := by
    rw [h.now]
    exact not_not.mp ((dead_iff h.oldestLive).not.mp hh.live)
  rw [MapState.live, ← hh.key, h.holds a hh.linked]
  exact Option.filter_eq_some_iff.mpr ⟨rfl, decide_eq_true hl⟩

theorem live_of_missing (hm : s.Missing key) : m.live key = none := by
  rw [MapState.live, Option.filter_eq_none_iff]
  intro e he hli
  obtain ⟨a, hl, hk⟩ := h.kept key e he (of_decide_eq_true hli)
  have hd := (dead_iff h.oldestLive).mp (hm a hl hk)
  have hen := h.holds a hl
  rw [hk, he] at hen
  rw [← Option.some.inj hen, ← h.now] at hd
  exact hd (of_decide_eq_true hli)

end Refines

theorem entry_eq_of_content {it it' : Item} (h : it.content = it'.content) : it.entry = it'.entry :=
  Item.proj_eq Item.entry h

/-! ## Simulation -/

theorem Refines.of_linked (h : Refines S s m) (hi : Inv S s')
    (hli : ∀ b, s'.Linked b → s.Linked b ∧ (s'.items b).content = (s.items b).content)
    (hliv : ∀ b, s.Linked b → ¬s.Dead b → s'.Linked b) (hca : s'.casId = s.casId)
    (hcl : s'.clock = s.clock) : Refines S s' m where
  inv := hi
  now := h.now.trans (currentTime_of_clock hcl).symm
  lastCas := h.lastCas.trans hca.symm
  oldestLive := (oldestLive_of_clock hcl).trans h.oldestLive
  holds := fun b hb => by
    obtain ⟨hl, hc⟩ := hli b hb
    rw [show s'.key b = s.key b from Item.key_eq hc, h.holds b hl,
      entry_eq_of_content hc]
  kept := fun key e he hlv => by
    obtain ⟨b, hl, hk⟩ := h.kept key e he hlv
    have hen : (s.items b).entry = e := by
      have := h.holds b hl
      rw [hk, he] at this
      exact (Option.some.inj this).symm
    have hl' := hliv b hl ((dead_iff h.oldestLive).not.mpr (by
      rw [not_not, hen, ← h.now]
      exact hlv))
    obtain ⟨-, hc⟩ := hli b hl'
    exact ⟨b, hl', (Item.key_eq hc).trans hk⟩

variable {L T : Addr → Prop}

theorem Refines.of_serves (h : Refines S s m) (hs : Serves S L T s s')
    (hl : ∀ b, s.Linked b → ¬s.Dead b → s'.Linked b) : Refines S s' m :=
  h.of_linked hs.inv (fun b hb => ⟨(hs.linked b hb).1, (hs.linked b hb).2.1⟩) hl hs.casId
    hs.clock

theorem Refines.of_dead (h : Refines S s m) (hs : Serves S L T s s')
    (hL : ∀ b, L b → s.Dead b) : Refines S s' m :=
  h.of_serves hs fun b hl hli => (hs.lost b hl).resolve_right fun hb => hli (hL b hb)

theorem Refines.of_stores {new : Addr} {it : Item} (h : Refines S s m)
    (hs : Stores S nothing s s' new it) (hu : S.useCas = true) (hca : it.flags.cas = S.useCas) :
    Refines S s' { m.set it.key (some ⟨it.flagsConv, it.exptime, it.data, s.nextCasId⟩) with
      lastCas := s.nextCasId } where
  inv := hs.inv
  now := h.now.trans (currentTime_of_clock hs.clock).symm
  lastCas := (hs.casId_eq hu hca).symm
  oldestLive := (oldestLive_of_clock hs.clock).trans h.oldestLive
  holds := fun b hb => by
    show (m.set it.key _).map (s'.key b) = _
    by_cases hne : b = new
    · subst hne
      rw [hs.key_eq, m.set_self, Item.entry, hs.flagsConv_eq, hs.exptime_eq, hs.data_eq,
        hs.getCas_eq hu hca]
    · obtain ⟨hl, hk, hc, -⟩ := hs.others b hne hb
      rw [show s'.key b = s.key b from Item.key_eq hc,
        m.set_of_ne hk, h.holds b hl, entry_eq_of_content hc]
  kept := fun key e he hli => by
    by_cases hk : key = it.key
    · exact ⟨new, hs.linked, hs.key_eq.trans hk.symm⟩
    obtain ⟨b, hl, hkb⟩ := h.kept key e ((m.set_of_ne hk _).symm.trans he) hli
    obtain ⟨hne, hl'⟩ | hk' | hn := hs.lost b hl
    · have hc := (hs.others b hne hl').2.2.1
      exact ⟨b, hl', (Item.key_eq hc).trans hkb⟩
    · exact absurd (hkb.symm.trans hk') hk
    · exact hn.elim

theorem Refines.of_touch {exptime : ℕ} (h : Refines S s m)
    (he : Edits S s s' a { (s.items a).content with exptime := exptime } s.casId) :
    Refines S s' (m.set (s.key a) (some { (s.items a).entry with exptime := exptime })) := by
  have hke : s'.key a = s.key a := by
    have hi := congrArg Item.key he.item
    exact hi
  refine ⟨he.inv, h.now.trans (currentTime_of_clock he.clock).symm,
    h.lastCas.trans he.casId.symm, (oldestLive_of_clock he.clock).trans h.oldestLive,
    fun b hb => ?_, fun key e hm hli => ?_⟩
  · by_cases hn : b = a
    · subst hn
      have hen : (s'.items b).content.entry = _ := congrArg Item.entry he.item
      rw [hke, m.set_self]
      exact congrArg some hen.symm
    · have hl := (he.linked b).mp hb
      have hc := (he.others b hn hl).1
      rw [show s'.key b = s.key b from Item.key_eq hc,
        m.set_of_ne (fun hk => hn (h.inv.eq_of_key hl he.self hk)), h.holds b hl,
        entry_eq_of_content hc]
  · by_cases hka : key = s.key a
    · exact ⟨a, (he.linked a).mpr he.self, hke.trans hka.symm⟩
    obtain ⟨b, hl, hkb⟩ := h.kept key e ((m.set_of_ne hka _).symm.trans hm) hli
    have hn : b ≠ a := by
      rintro rfl
      exact hka hkb.symm
    exact ⟨b, (he.linked b).mpr hl, (Item.key_eq (he.others b hn hl).1).trans hkb⟩

theorem Refines.of_delete (h : Refines S s m) (ha : s.Linked a) (hp : Published S (· = a) s s')
    (hg : ¬s'.Linked a) : Refines S s' (m.set (s.key a) none) where
  inv := hp.inv
  now := h.now.trans (currentTime_of_clock hp.clock).symm
  lastCas := h.lastCas.trans hp.casId.symm
  oldestLive := (oldestLive_of_clock hp.clock).trans h.oldestLive
  holds := fun b hb => by
    obtain ⟨hl, hc, -⟩ := hp.linked b hb
    have hn : s.key b ≠ s.key a := fun hk => hg (h.inv.eq_of_key hl ha hk ▸ hb)
    rw [hp.key_eq hb, m.set_of_ne hn, h.holds b hl, entry_eq_of_content hc]
  kept := fun key e hm hli => by
    by_cases hke : key = s.key a
    · rw [hke, m.set_self] at hm
      exact absurd hm (by simp)
    obtain ⟨b, hl, hkb⟩ := h.kept key e ((m.set_of_ne hke _).symm.trans hm) hli
    obtain hl' | rfl := hp.lost b hl
    · exact ⟨b, hl', (hp.key_eq hl').trans hkb⟩
    · exact absurd hkb.symm hke

theorem Refines.of_tick {now : ℕ} (h : Refines S s m) (hno : s.currentTime ≤ now) :
    Refines S { s with currentTime := now } { m with now := now } where
  inv := h.inv.of_clock rfl rfl rfl rfl rfl rfl
  now := rfl
  lastCas := h.lastCas
  oldestLive := h.oldestLive
  holds := h.holds
  kept := fun key e he hl => h.kept key e he (by
    have hn := h.now
    simp only [Entry.Live] at hl ⊢
    omega)

section StoreItem

variable {mode : Mode} {r : StoreItemType} {cas : Option ℕ}

/-- A store of the item `a` is one of the map. -/
def StoreMatches (S : Settings) (s s' : Store Addr) (a : Addr) (m : MapState) (mode : Mode)
    (r : StoreItemType) (cas : Option ℕ) : Prop :=
  let it := s.items a
  ∃ m', MapStep m (.store mode it.key it.flagsConv it.exptime it.data it.getCas, .stored r cas) m' ∧
    Refines S s' m'

theorem Refines.stored (h : Refines S s m) (hu : S.useCas = true) (hl : CountersLow s)
    (hs : Stores S nothing s s' a (s.items a)) (hc : (s.items a).flags.cas = S.useCas)
    (hr : mode.result (s.items a).getCas (m.live (s.key a)) = .stored) :
    StoreMatches S s s' a m mode .stored (some (s'.items a).getCas) := by
  have hn : m.lastCas < s.nextCasId := by
    rw [h.lastCas, hl.nextCasId]
    omega
  rw [hs.getCas_eq hu hc]
  exact ⟨_, .stored _ _ _ hr hn, h.of_stores hs hu hc⟩

theorem Refines.refused (h : Refines S s m) (hs : Serves S L T s s') (hL : ∀ b, L b → s.Dead b)
    (hr : mode.result (s.items a).getCas (m.live (s.key a)) = r) (hn : r ≠ .stored) :
    StoreMatches S s s' a m mode r none :=
  ⟨m, .refused _ _ _ hr hn, h.of_dead hs hL⟩

theorem doStoreItem_refines (h : Refines S s m) (hu : S.useCas = true) (hlo : CountersLow s)
    (hr : 0 < s.refs a) (hl : ¬s.Linked a) {comm : Comm} (hm : comm.mode = some mode)
    (rounds : ℕ → Round Addr) (env : CopyEnv)
    (he : doStoreItem S s a comm false rounds env = (s', r, cas)) :
    StoreMatches S s s' a m mode r cas := by
  have hca := h.inv.cas a (h.inv.not_slabbed_of_refs hr)
  obtain hmi | ⟨old, hh⟩ := missing_or_hit s (s.key a)
  · obtain ⟨s1, r1, cas1, he1, -, hsp⟩ :=
      doStoreItem_of_missing h.inv hlo.1 hr hl hmi comm false rounds env
    obtain ⟨rfl, rfl, rfl⟩ : s' = s1 ∧ r = r1 ∧ cas = cas1 := by simpa [he] using he1
    have hli := h.live_of_missing hmi
    cases comm with
    | set =>
      cases hm
      obtain ⟨rfl, rfl, hs⟩ := hsp
      exact h.stored hu hlo hs hca rfl
    | add =>
      cases hm
      obtain ⟨rfl, rfl, hs⟩ := hsp
      exact h.stored hu hlo hs hca (by rw [hli]; rfl)
    | replace | cas =>
      cases hm
      obtain ⟨rfl, rfl, hp⟩ := hsp
      exact h.refused hp.serves (fun b hb => hb.2) (by rw [hli]; rfl) (by decide)
    | append | prepend => cases hm
  obtain ⟨s1, r1, cas1, he1, hsp⟩ :=
    doStoreItem_of_hit h.inv hlo.1 hr hl hh comm false rounds env
  obtain ⟨rfl, rfl, rfl⟩ : s' = s1 ∧ r = r1 ∧ cas = cas1 := by simpa [he] using he1
  have hli := h.live_of_hit hh
  cases comm with
  | set =>
    cases hm
    obtain ⟨rfl, rfl, hs⟩ := hsp
    exact h.stored hu hlo hs hca rfl
  | add =>
    cases hm
    obtain ⟨rfl, rfl, hq⟩ := hsp
    exact h.refused hq.serves (fun _ => False.elim) (by rw [hli]; rfl) (by decide)
  | replace =>
    cases hm
    obtain ⟨rfl, rfl, hs⟩ := hsp
    exact h.stored hu hlo hs hca (by rw [hli]; rfl)
  | cas =>
    cases hm
    have hre : Mode.cas.result (s.items a).getCas (m.live (s.key a)) =
        if (s.items a).getCas ≠ 0 ∧ (s.items a).getCas = (s.items old).getCas then .stored
        else .exists := by rw [hli]; rfl
    -- the four outcomes of the test of `do_store_item`; nothing is stale here
    by_cases hz : (s.items a).getCas = 0
    · simp only [casTest, if_pos hz] at hsp
      obtain ⟨rfl, rfl, hq⟩ := hsp
      exact h.refused hq.serves (fun _ => False.elim) (by rw [hre, if_neg (by simp [hz])])
        (by decide)
    by_cases hma : (s.items a).getCas = (s.items old).getCas
    · simp only [casTest, if_neg hz, if_pos hma] at hsp
      obtain ⟨rfl, rfl, hs⟩ := hsp
      exact h.stored hu hlo hs hca (by rw [hre, if_pos ⟨hz, hma⟩])
    simp only [casTest, if_neg hz, if_neg hma, Bool.false_eq_true, false_and,
      if_false] at hsp
    obtain ⟨rfl, rfl, hq⟩ := hsp
    exact h.refused hq.serves (fun _ => False.elim)
      (by rw [hre, if_neg fun hc => hma hc.2]) (by decide)
  | append | prepend => cases hm

end StoreItem

theorem step_refines (hu : S.useCas = true) (h : Refines S s m) {op : Op Addr} {r : Reply Addr}
    (hok : MapOk S s op) (hst : step S s op = some (s', r)) :
    System.Matches MapStep (Refines S s') m (observe s op r s') := by
  obtain ⟨ho, hs, hlo⟩ := hok
  obtain ⟨hg, ha⟩ := step_eq hst
  have hon := hlo.1.countsOpen
  cases op with
  | tick now =>
    cases ha
    exact ⟨_, .tick (h.now ▸ hg.1), h.of_tick hg.1⟩
  | assocExpand callocOk =>
    cases ha
    exact h.of_dead (assoc_published h.inv (h.inv.assoc.assocExpand hg callocOk)).serves
      fun _ => False.elim
  | assocMigrate =>
    cases ha
    exact h.of_dead (assoc_published h.inv (h.inv.assoc.assocMigrate hg)).serves
      fun _ => False.elim
  | alloc key flags exptime nbytes rounds =>
    cases ha
    exact h.of_serves (doItemAlloc_published h.inv hlo.1 key flags exptime nbytes rounds).serves
      ho
  | fill a data cas =>
    cases ha
    exact h.of_dead (fill_published h.inv hg).serves fun _ => False.elim
  | get key doUpdate room =>
    obtain hm | ⟨a, hh⟩ := missing_or_hit s key
    · obtain ⟨s1, he, hq, -⟩ := doItemGet_of_missing h.inv hlo.1 hm doUpdate room
      simp only [apply, he] at ha
      cases ha
      refine ⟨m, ?_, h.of_dead hq.serves fun b hb => hb.2⟩
      have hge := MapStep.get m key
      rwa [h.live_of_missing hm] at hge
    obtain ⟨s1, he, hq, -⟩ := doItemGet_of_hit h.inv hlo.1 hh doUpdate room
    simp only [apply, he] at ha
    cases ha
    refine ⟨m, ?_, h.of_dead hq.serves fun _ => False.elim⟩
    have hge := MapStep.get m key
    have hl := (hq.lost a hh.linked).resolve_right id
    have hc := hq.content a (hq.inv.not_slabbed_of_linked hl)
    rw [h.live_of_hit hh, ← entry_eq_of_content hc] at hge
    exact hge
  | touch key exptime room =>
    obtain hm | ⟨a, hh⟩ := missing_or_hit s key
    · obtain ⟨s1, he, hp⟩ := doItemTouch_of_missing h.inv hlo.1 hm exptime room
      simp only [apply, he] at ha
      cases ha
      exact ⟨m, .touchMiss (h.live_of_missing hm) exptime, h.of_dead hp.serves fun b hb => hb.2⟩
    obtain ⟨s1, he, hed⟩ := doItemTouch_of_hit h.inv hlo.1 hh exptime room
    simp only [apply, he] at ha
    obtain ⟨rfl, rfl⟩ := Prod.ext_iff.mp ha
    have hse : (s1.items a).content.entry.seen = (s.items a).entry.seen := by
      rw [hed.item]
      rfl
    refine ⟨_, ?_, h.of_touch hed⟩
    have ht := MapStep.touchHit (h.live_of_hit hh) exptime
    rw [← hse] at ht
    rw [hh.key]
    exact ht
  | remove a =>
    cases ha
    exact h.of_dead (releaseRef_quiet h.inv hg).serves fun _ => False.elim
  | unlink a => exact ho.elim
  | link a => exact ho.elim
  | replace a new => exact ho.elim
  | store a comm setStale rounds env =>
    obtain rfl : setStale = false := hs
    obtain ⟨mode, hmo⟩ := Option.isSome_iff_exists.mp ho
    obtain ⟨hr, hl⟩ := hg
    cases ha
    simp only [observe, hmo, Option.map_some]
    exact doStoreItem_refines h hu hlo hr (by simp [Store.Linked, hl]) hmo rounds env rfl
  | addDelta => exact ho.elim
  | delete key =>
    obtain hm | ⟨a, hh⟩ := missing_or_hit s key
    · obtain ⟨s1, he, hp⟩ := processDelete_of_missing h.inv hlo.1 hm
      simp only [apply, he] at ha
      cases ha
      exact ⟨m, .deleteMiss (h.live_of_missing hm), h.of_dead hp.serves fun b hb => hb.2⟩
    obtain ⟨s1, he, -, hp, hgo⟩ := processDelete_of_hit h.inv hlo.1 hh
    simp only [apply, he] at ha
    cases ha
    refine ⟨_, .deleteHit (by rw [h.live_of_hit hh]; rfl), ?_⟩
    rw [← hh.key]
    exact h.of_delete hh.linked hp hgo
  | mdelete => exact ho.elim
  | bump a =>
    cases ha
    exact h.of_dead (lruMaintainerBump_quiet h.inv hg).serves fun _ => False.elim
  | pullTail p trylock =>
    obtain ⟨s1, n, ret, he, hq, -⟩ := lruPullTail_spec h.inv hon p trylock hg
    have hli : ∀ b, s.Linked b → ¬s.Dead b →
        (apply S s (.pullTail p trylock)).1.Linked b := ho
    simp only [apply, he] at ha hli
    cases ha
    exact h.of_serves hq.serves hli
  | flushAll => exact ho.elim

/-! ## Runs -/

def emptyMap (now : ℕ) : MapState := ⟨fun _ => none, 0, now⟩

theorem refines_of_init (h : Init s) : Refines S s (emptyMap s.currentTime) where
  inv := inv_of_init h
  now := rfl
  lastCas := h.casId.symm
  oldestLive := h.oldestLive
  holds := fun a ha => by simp [Store.Linked, (h.items a).1] at ha
  kept := fun key e he => by simp [emptyMap] at he

/-- The requests and answers of every run are those of the map: with CAS values on, nothing
live evicted, nothing flushed, no stale stores and no counter that wraps. -/
theorem trace_refines_map (huse : S.useCas = true) (hinit : Init s)
    {l : List (Request × Answer)} (ht : (system Addr S).Trace (MapOk S) observe s l s') :
    ∃ m, LabelledRun MapStep (emptyMap s.currentTime) l m ∧ Refines S s' m :=
  ht.simulates (Refines S) (refines_of_init hinit)
    fun h ho hs => step_refines huse h ho hs

/-- A value is stored and read, and a second client's `cas` with its token replaces it. -/
def casTrace : List (Op (Fin 2)) :=
  storeOps 0 (ascii "k") (ascii "a\r\n") 0 .set 0 ++ [.get (ascii "k") true true, .remove 0] ++
    storeOps 1 (ascii "k") (ascii "b\r\n") 0 .cas 1

theorem trace_refines_map_casTrace : ∃ s m,
    (system (Fin 2) smallSettings).Trace (MapOk smallSettings) observe (emptyStore 2)
      [(.store .set (ascii "k") 0 0 (ascii "a\r\n") 0, .stored .stored (some 1)),
       (.get (ascii "k"), .found (some (0, ascii "a\r\n", 1))),
       (.store .cas (ascii "k") 0 0 (ascii "b\r\n") 1, .stored .stored (some 2))] s ∧
    LabelledRun MapStep (emptyMap 2)
      [(.store .set (ascii "k") 0 0 (ascii "a\r\n") 0, .stored .stored (some 1)),
       (.get (ascii "k"), .found (some (0, ascii "a\r\n", 1))),
       (.store .cas (ascii "k") 0 0 (ascii "b\r\n") 1, .stored .stored (some 2))] m ∧
    Refines smallSettings s m := by
  have hru : ((system (Fin 2) smallSettings).observed (MapOk smallSettings) observe (emptyStore 2)
      casTrace).map (·.1) =
      some [(.store .set (ascii "k") 0 0 (ascii "a\r\n") 0, .stored .stored (some 1)),
       (.get (ascii "k"), .found (some (0, ascii "a\r\n", 1))),
       (.store .cas (ascii "k") 0 0 (ascii "b\r\n") 1, .stored .stored (some 2))] := by
    decide +kernel
  obtain ⟨⟨l, s⟩, ho, rfl⟩ := Option.map_eq_some_iff.mp hru
  have ht := System.Trace.of_observed _ ho
  obtain ⟨m, hm, hr⟩ := trace_refines_map rfl (emptyStore_init 2) ht
  exact ⟨s, m, ht, hm, hr⟩

/-! ## Runs that are none of the map -/

def Answer.cas : Answer → Option ℕ
  | .found (some (_, _, cas)) => some cas
  | .stored _ cas => cas
  | _ => none

theorem run_cas_pos {now : ℕ} {l : List (Request × Answer)}
    (h : LabelledRun MapStep (emptyMap now) l m) :
    (∀ key e, m.map key = some e → 0 < e.cas) ∧ ∀ e ∈ l, e.2.cas ≠ some 0 := by
  induction h with
  | refl =>
    exact ⟨fun key e he => by simp [emptyMap] at he, fun e he => by simp at he⟩
  | @tail l m e m' _ hs ih =>
    obtain ⟨hp, hl⟩ := ih
    have hli : ∀ {key e}, m.live key = some e → 0 < e.cas := fun {key e} he =>
      hp key e (Option.filter_eq_some_iff.mp he).1
    have hse : ∀ {key e'}, (∀ e, e' = some e → 0 < e.cas) →
        ∀ k e, (m.set key e').map k = some e → 0 < e.cas := by
      intro key e' he' k e he
      by_cases hk : k = key
      · rw [hk, m.set_self] at he
        exact he' e he
      · rw [m.set_of_ne hk] at he
        exact hp k e he
    have hla : (∀ key e, m'.map key = some e → 0 < e.cas) ∧ e.2.cas ≠ some 0 := by
      cases hs with
      | get key =>
        refine ⟨hp, ?_⟩
        cases hk : m.live key with
        | none => simp [Answer.cas]
        | some e => simpa [Answer.cas, Entry.seen] using (hli hk).ne'
      | touchHit hk exptime =>
        have hc := hli hk
        exact ⟨hse fun e he => Option.some.inj he ▸ hc,
          by simpa [Answer.cas, Entry.seen] using hc.ne'⟩
      | touchMiss => exact ⟨hp, by simp [Answer.cas]⟩
      | deleteHit => exact ⟨hse fun e he => by simp at he, by simp [Answer.cas]⟩
      | deleteMiss => exact ⟨hp, by simp [Answer.cas]⟩
      | stored flags exptime value _ hn =>
        exact ⟨hse fun e he => Option.some.inj he ▸ Nat.zero_lt_of_lt hn,
          by simpa [Answer.cas] using (Nat.zero_lt_of_lt hn).ne'⟩
      | refused => exact ⟨hp, by simp [Answer.cas]⟩
      | tick => exact ⟨hp, by simp [Answer.cas]⟩
    refine ⟨hla.1, fun e' he' => ?_⟩
    obtain he' | he' := List.mem_append.mp he'
    · exact hl e' he'
    · rw [List.mem_singleton.mp he']
      exact hla.2

/-- A run of the cache under the condition `ok` that the map does not have. -/
def Deviates (n : ℕ) (S : Settings) (ok : Store (Fin n) → Op (Fin n) → Prop) : Prop :=
  ∃ l s, (system (Fin n) S).Trace ok observe (emptyStore n) l s ∧
    ∀ m, ¬LabelledRun MapStep (emptyMap (emptyStore n).currentTime) l m

theorem deviates_of_cas_zero {n : ℕ} {ok : Store (Fin n) → Op (Fin n) → Prop}
    {l : List (Request × Answer)} {s : Store (Fin n)} {e : Request × Answer}
    (ht : (system (Fin n) S).Trace ok observe (emptyStore n) l s) (he : e ∈ l)
    (hc : e.2.cas = some 0) : Deviates n S ok :=
  ⟨l, s, ht, fun _ hm => (run_cas_pos hm).2 e he hc⟩

/-- After two stores, a stale store with the token of the first one. -/
def staleTrace : List (Op (Fin 2)) :=
  storeOps 0 (ascii "k") (ascii "a\r\n") 0 .set 0 ++
    storeOps 1 (ascii "k") (ascii "b\r\n") 0 .set 0 ++
    [.alloc (ascii "k") 0 0 3 (slabAt 0), .fill 0 (ascii "c\r\n") 1,
     .store 0 .cas true (slabAt 0) {}]

theorem stale_deviates :
    Deviates 2 smallSettings fun s op => MapOp smallSettings s op ∧ CountersLow s := by
  have hru : ((system (Fin 2) smallSettings).observed
      (fun s op => MapOp smallSettings s op ∧ CountersLow s) observe (emptyStore 2)
      staleTrace).map (·.1) =
      some [(.store .set (ascii "k") 0 0 (ascii "a\r\n") 0, .stored .stored (some 1)),
       (.store .set (ascii "k") 0 0 (ascii "b\r\n") 0, .stored .stored (some 2)),
       (.store .cas (ascii "k") 0 0 (ascii "c\r\n") 1, .stored .stored (some 3))] := by
    decide +kernel
  obtain ⟨⟨l, s⟩, ho, rfl⟩ := Option.map_eq_some_iff.mp hru
  refine ⟨_, s, System.Trace.of_observed _ ho, fun m hm => ?_⟩
  obtain ⟨m2, hm2, hs3⟩ := (LabelledRun.snoc_iff (l := [_, _])).mp hm
  obtain ⟨m1, -, hs2⟩ := (LabelledRun.snoc_iff (l := [_])).mp hm2
  have hl : m2.live (ascii "k") = some ⟨0, 0, ascii "b\r\n", 2⟩ := by
    cases hs2 with
    | stored _ _ _ _ _ => simp [MapState.live, MapState.set, Entry.Live]
  cases hs3 with
  | stored _ _ _ hr _ =>
    rw [hl] at hr
    exact absurd hr (by decide)

theorem noCas_deviates :
    Deviates 1 { smallSettings with useCas := false }
      (MapOk { smallSettings with useCas := false }) := by
  have hr : ((system (Fin 1) { smallSettings with useCas := false }).observed
      (MapOk { smallSettings with useCas := false }) observe (emptyStore 1)
      (storeOps 0 (ascii "k") (ascii "a\r\n") 0 .set 0)).map (·.1) =
      some [(.store .set (ascii "k") 0 0 (ascii "a\r\n") 0, .stored .stored (some 0))] := by
    decide +kernel
  obtain ⟨⟨l, s⟩, ho, rfl⟩ := Option.map_eq_some_iff.mp hr
  exact deviates_of_cas_zero (System.Trace.of_observed _ ho) (.head _) rfl

theorem wrapped_deviates : Deviates 1 smallSettings
    fun s op => MapOp smallSettings s op ∧ NotStale op ∧ s.casId + 1 < 2 ^ 64 := by
  obtain ⟨s, hs, hc, hli, hf, hca, hg⟩ : ∃ s, (system (Fin 1) smallSettings).exec
        (fun s op => MapOp smallSettings s op ∧ NotStale op ∧ s.casId + 1 < 2 ^ 64) (emptyStore 1)
        (storeOps 0 (ascii "k") (ascii "a\r\n") 0 .set 0) = some s ∧
      (s.items 0).refcount = 1 ∧ ¬s.Dead 0 ∧ assocFind s.key s.assoc (ascii "k") 0 = some 0 ∧
      s.casId = 1 ∧
      (step smallSettings (wrapped s 0) (.get (ascii "k") false false)).map
        (fun q => (q.2, (q.1.items 0).getCas)) = some (.item (some 0), 0) :=
    ⟨_, rfl, rfl, by decide, rfl, rfl, by decide +kernel⟩
  obtain ⟨⟨s', r⟩, hst, he⟩ := Option.map_eq_some_iff.mp hg
  obtain ⟨rfl, hc'⟩ := Prod.ext_iff.mp he
  obtain ⟨l, hl⟩ := System.Steps.of_exec _ hs
  have hlo : s.casId + 1 < 2 ^ 64 := by
    rw [hca]
    decide
  obtain ⟨l', hl'⟩ := steps_wrapped smallSettings
    (fun s op => MapOp smallSettings s op ∧ NotStale op ∧ s.casId + 1 < 2 ^ 64)
    (fun _ => ⟨trivial, trivial, hlo⟩) ⟨trivial, trivial, hlo⟩ (by rw [hc]; decide) hf
    hli
  obtain ⟨l'', ht⟩ := (hl.trans hl').trace observe
  have ho : MapOp smallSettings (wrapped s 0) (.get (ascii "k") false false) ∧
      NotStale (.get (ascii "k") false false : Op (Fin 1)) ∧ (wrapped s 0).casId + 1 < 2 ^ 64 :=
    ⟨trivial, trivial, by rwa [casId_wrapped]⟩
  refine deviates_of_cas_zero (ht.tail ho hst)
    (List.mem_append_right _ (List.mem_singleton_self _)) ?_
  exact congrArg some hc'

theorem casId_deviates : Deviates 1 smallSettings
    fun s op => MapOp smallSettings s op ∧ NotStale op ∧ CountsLow s := by
  have hp : ∀ (s : Store (Fin 1)) op, Plain s op →
      MapOp smallSettings s op ∧ NotStale op ∧ CountsLow s := by
    rintro s op ⟨hlo, hop⟩
    cases op <;> simp_all [MapOp, NotStale, Comm.mode]
  obtain ⟨l, s, s', hl, hs, hlo, -, -⟩ := steps_casId_zero
  obtain ⟨l', ht⟩ := (hl.mono hp).trace observe
  have ho : MapOp smallSettings s (.store 0 .set false (slabAt 0) {}) ∧
      NotStale (.store 0 .set false (slabAt 0) {} : Op (Fin 1)) ∧ CountsLow s :=
    ⟨rfl, rfl, hlo⟩
  exact deviates_of_cas_zero (ht.tail ho hs)
    (List.mem_append_right _ (List.mem_singleton_self _)) rfl

/-- What the map leaves out: stale stores replace newer items, without CAS values all
stores give CAS value 0, and counters that wrap break the cache. -/
theorem map_refinement_broken :
    (Deviates 2 smallSettings fun s op => MapOp smallSettings s op ∧ CountersLow s) ∧
    Deviates 1 { smallSettings with useCas := false }
      (MapOk { smallSettings with useCas := false }) ∧
    (Deviates 1 smallSettings fun s op =>
      MapOp smallSettings s op ∧ NotStale op ∧ s.casId + 1 < 2 ^ 64) ∧
    Deviates 1 smallSettings fun s op => MapOp smallSettings s op ∧ NotStale op ∧ CountsLow s :=
  ⟨stale_deviates, noCas_deviates, wrapped_deviates, casId_deviates⟩

end Memcached.Items
