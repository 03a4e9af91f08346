import Memcached.Items.Steps

/-!
# Background maintenance (`items.c`, `crawler.c`)

The LRU maintainer pulls items from the tails of the lists of a class
(`lru_maintainer_juggle`). The crawler links a node of its own behind a list, moves it
towards the head one item at a time, and looks at each item it passes
(`item_crawler_thread` with `crawler_expired_eval`). `maintenance` is the item cache with
these threads. Locks that a thread may fail to take are arguments, and so are the two ages
of `lru_maintainer_juggle`, products with floating-point factors.

Results:
* `doItemCrawlQ_ptrs`: a step of a crawler moves nothing but its own node
* `runTask_inv`: every task keeps the invariant
* `Keeps.of_task`: a background task unlinks only items that are expired or flushed
-/

namespace Memcached.Items

open Lib Assoc
open Function (update update_self update_of_ne update_idem)

/-! ## The LRU maintainer -/

section

variable {Addr : Type*} [DecidableEq Addr] [Fintype Addr]

/-- The reclaims from the temporary list in `lru_maintainer_juggle` (lines
1406-1415). -/
def juggleTemp (S : Settings) (id : ℕ) (locks : ℕ → Lru → ℕ → UInt32 → Bool) :
    ℕ → Store Addr → Store Addr
  | 0, s => s
  | i + 1, s =>
    match lruPullTail S s { id := id, curLru := .temp } (locks i .temp) with
    | (s, removed, _) => if removed = 0 then s else juggleTemp S id locks i s

/-- The arguments of the pulls that stop at a crawler. -/
def jugglePull (id totalBytes : ℕ) (lru : Lru) (maxAge : ℕ) : Pull :=
  { id := id, curLru := lru, totalBytes := totalBytes, crawlBlocks := true, maxAge := maxAge }

/-- One round of pulls in `lru_maintainer_juggle` (lines 1446-1453): the
warm list is only pulled when the hot one gave nothing. -/
def juggleRound (S : Settings) (s : Store Addr) (id totalBytes hotAge warmAge : ℕ)
    (locks : Lru → ℕ → UInt32 → Bool) : Store Addr × Bool :=
  let (s, hot, _) := lruPullTail S s (jugglePull id totalBytes .hot hotAge) (locks .hot)
  let (s, more) :=
    if hot ≠ 0 then (s, true)
    else
      let (s, warm, _) := lruPullTail S s (jugglePull id totalBytes .warm warmAge) (locks .warm)
      (s, decide (warm ≠ 0))
  if S.lruSegmented then
    let (s, cold, _) := lruPullTail S s (jugglePull id totalBytes .cold 0) (locks .cold)
    (s, more || decide (cold ≠ 0))
  else (s, more)

/-- The rounds of `lru_maintainer_juggle` (lines 1444-1457). -/
def juggleRounds (S : Settings) (id totalBytes hotAge warmAge : ℕ)
    (locks : ℕ → Lru → ℕ → UInt32 → Bool) : ℕ → Store Addr → Store Addr
  | 0, s => s
  | i + 1, s =>
    match juggleRound S s id totalBytes hotAge warmAge (locks i) with
    | (s, true) => juggleRounds S id totalBytes hotAge warmAge locks i s
    | (s, false) => s

/-- `it->time` of the node at the tail of a list; a crawler's is 0. -/
def nodeTime (s : Store Addr) : Node Addr → ℕ
  | .inl a => (s.items a).time
  | .inr _ => 0

/-- `lru_maintainer_juggle` (lines 1397-1458). `ages` gives the ages of the
hot and the warm list for that of the cold one. -/
def lruMaintainerJuggle (S : Settings) (s : Store Addr) (id : ℕ) (ages : ℕ → ℕ × ℕ)
    (locks : ℕ → Lru → ℕ → UInt32 → Bool) : Store Addr :=
  let s := if S.tempLru then juggleTemp S id locks 500 s else s
  if S.lruSegmented then
    let coldAge :=
      match s.lru.ptrs.tail (id, .cold) with
      | some n => sub32 s.currentTime (nodeTime s n)
      | none => 0
    let totalBytes := s.lru.sizesBytes (id, .cold) + s.lru.sizesBytes (id, .hot) +
      s.lru.sizesBytes (id, .warm)
    juggleRounds S id totalBytes (ages coldAge).1 (ages coldAge).2 locks 500 s
  else juggleRounds S id 0 0 0 locks 500 s

/-! ## The crawler -/

/-- Other list pointers. -/
def Store.withPtrs (s : Store Addr) (m : DMem (ℕ × Lru) (Node Addr)) : Store Addr :=
  { s with lru := { s.lru with ptrs := m } }

/-- A crawler that is linked, with its `remaining`, or one that is not. -/
def Store.setCrawler (s : Store Addr) (q : ℕ × Lru) (remaining : Option ℕ) : Store Addr :=
  { s with lru := { s.lru with crawlers := update s.lru.crawlers q remaining } }

/-- `do_item_linktail_q` (lines 1754-1773) of a crawler. -/
def doItemLinktailQ (s : Store Addr) (q : ℕ × Lru) : Store Addr :=
  s.withPtrs (s.lru.ptrs.pushTail q (.inr q))

/-- `do_item_unlinktail_q` (lines 1775-1793) of a crawler. -/
def doItemUnlinktailQ (s : Store Addr) (q : ℕ × Lru) : Store Addr :=
  s.withPtrs (s.lru.ptrs.unlink q (.inr q))

/-- `do_item_crawl_q` (lines 1797-1849): the crawler swings in front of the
next item, which is returned; at the head it pops itself off. -/
def doItemCrawlQ (s : Store Addr) (q : ℕ × Lru) : Store Addr × Option (Node Addr) :=
  let m := s.lru.ptrs
  let it : Node Addr := .inr q
  match m.prev it with
  | none =>
    match m.next it with
    | none => (s, none)
    | some n =>
      (s.withPtrs { m with
        head := update m.head q (some n)
        prev := update m.prev n none }, none)
  | some p =>
    let prev := setAt m.prev (m.next it) (some p)
    (s.withPtrs
      { head := update m.head q (if m.head q = some p then some it else m.head q)
        tail := update m.tail q (if m.tail q = some it then some p else m.tail q)
        next := setAt (update (update m.next p (m.next it)) it (some p))
          (prev p) (some it)
        prev := update (update prev it (prev p)) p (some it) }, some p)

/-- `do_lru_crawler_start` (`crawler.c`, lines 582-618); without a number `remaining` is
`LRU_CRAWLER_CAP_REMAINING`. -/
def doLruCrawlerStart (s : Store Addr) (q : ℕ × Lru) (remaining : Option ℕ) : Store Addr :=
  match s.lru.crawlers q with
  | some _ => s
  | none =>
    let remaining := remaining.getD (s.lru.sizes q)
    doItemLinktailQ (s.setCrawler q (some (if remaining = 0 then 0 else remaining + 1))) q

/-- `lru_crawler_class_done` (`crawler.c`, lines 341-350). -/
def lruCrawlerClassDone (s : Store Addr) (q : ℕ × Lru) : Store Addr :=
  doItemUnlinktailQ (s.setCrawler q none) q

/-- `refcount_decr` of a reference that the caller holds. -/
def dropRef (s : Store Addr) (a : Addr) : Store Addr := refcountDecr (s.forgetRef a) a

/-- `crawler_expired_eval` (`crawler.c`, lines 182-236). -/
def crawlerExpiredEval (S : Settings) (s : Store Addr) (search : Addr) : Store Addr :=
  let it := s.items search
  if (it.exptime ≠ 0 ∧ it.exptime < s.currentTime) ∨ itemIsFlushed s it then
    releaseRef (doItemUnlink S s search) search
  else dropRef s search

/-- What the crawler does with an item whose lock it took (`crawler.c`, lines 463-484). -/
def crawlItem (S : Settings) (s : Store Addr) (search : Addr) : Store Addr :=
  let s := takeRef s search
  if (s.items search).refcount ≠ 2 then dropRef s search else crawlerExpiredEval S s search

/-- One step of `item_crawler_thread` in one list (`crawler.c`, lines 426-485). `gone` says that
the client it writes to is gone. -/
def itemCrawlerStep (S : Settings) (s : Store Addr) (q : ℕ × Lru) (gone : Bool)
    (trylock : UInt32 → Bool) : Store Addr :=
  match s.lru.crawlers q with
  | none => s
  | some remaining =>
    if gone then lruCrawlerClassDone s q
    else
      match doItemCrawlQ s q with
      | (s, none) => lruCrawlerClassDone s q
      | (s, some search) =>
        -- `crawlers[i].remaining && --crawlers[i].remaining < 1`
        let s := s.setCrawler q (some (remaining - 1))
        if remaining = 1 then lruCrawlerClassDone s q
        else
          match search with
          | .inr _ => s
          | .inl a => if trylock (S.hash (s.key a)) then crawlItem S s a else s

/-! ## The system -/

/-- What the threads of the server do: the steps of `system`, and the maintenance. -/
inductive Task (Addr : Type*) where
  | op (o : Op Addr)
  | juggle (id : ℕ) (ages : ℕ → ℕ × ℕ) (locks : ℕ → Lru → ℕ → UInt32 → Bool)
  | crawlerStart (q : ℕ × Lru) (remaining : Option ℕ)
  | crawl (q : ℕ × Lru) (gone : Bool) (trylock : UInt32 → Bool)

def runTask (S : Settings) (s : Store Addr) : Task Addr → Option (Store Addr × Reply Addr)
  | .op o => step S s o
  | .juggle id ages locks => some (lruMaintainerJuggle S s id ages locks, .done)
  | .crawlerStart q remaining => some (doLruCrawlerStart s q remaining, .done)
  | .crawl q gone trylock => some (itemCrawlerStep S s q gone trylock, .done)

def maintenance (Addr : Type*) [DecidableEq Addr] [Fintype Addr] (S : Settings) :
    System (Store Addr) (Task Addr) (Reply Addr) where
  init := Init
  step := runTask S

/-- The tasks of the background threads, and client lookups: everything that should not
lose live items. The clock may move. -/
def Task.Background : Task Addr → Prop
  | .op (.get ..) | .op (.remove _) | .op (.bump _) | .op (.assocExpand _) | .op .assocMigrate
  | .op (.tick _) => True
  | .op (.pullTail p _) => p.evict = false
  | .op _ => False
  | .juggle .. | .crawlerStart .. | .crawl .. => True

instance (t : Task Addr) : Decidable t.Background := by
  delta Task.Background
  split <;> infer_instance

end

variable {Addr : Type*} [DecidableEq Addr] [Fintype Addr] {S : Settings}
  {s s' s'' : Store Addr} {a b : Addr} {q : ℕ × Lru}

/-! ## Pulls without eviction -/

/-- A piece of a run that unlinks dead items only and hands out no reference. -/
structure Reclaims (S : Settings) (s s' : Store Addr) : Prop extends
    Quiet S s.Dead nothing s s' where
  refs : s'.refs = s.refs
  bumps : s'.bumps = s.bumps

theorem Reclaims.refl (h : Inv S s) : Reclaims S s s :=
  ⟨(Quiet.refl h).of_nothing, rfl, rfl⟩

theorem Reclaims.trans (h : Reclaims S s s') (h' : Reclaims S s' s'') : Reclaims S s s'' := by
  refine ⟨?_, h'.refs.trans h.refs, h'.bumps.trans h.bumps⟩
  have hde : Quiet S s.Dead nothing s' s'' := h'.toQuiet.mono
    (fun b hb hd => (h.toEvolves.dead_iff (h.inv.not_slabbed_of_linked hb) id).mp hd) fun _ => id
  exact h.toQuiet.append hde

theorem Reclaims.low (h : Inv S s) (hr : Reclaims S s s')
    (hl : CountsOpen s) (b : Addr) :
    (s'.items b).refcount + 1 < 2 ^ 16 := by
  have hle := Quiet.refcount_le h hr.toQuiet hr.refs hr.bumps b
  have := hl b
  omega

theorem lruPullTail_reclaims (h : Inv S s) (hl : CountsOpen s)
    {p : Pull} (he : p.evict = false) (hre : p.returnItem = false)
    (trylock : ℕ → UInt32 → Bool) : Reclaims S s (lruPullTail S s p trylock).1 := by
  obtain ⟨s', n, ret, heq, hq, hbu, hr, hn⟩ :=
    lruPullTail_spec h hl p trylock (by simp [hre])
  rw [heq]
  refine ⟨hq.mono (fun b _ hb => hb.1.resolve_right (by simp [he])) fun _ => id, ?_, hbu⟩
  funext b
  rw [hr, hn hre]
  simp

theorem juggleTemp_reclaims (id : ℕ) (locks : ℕ → Lru → ℕ → UInt32 → Bool) (i : ℕ)
    (h : Inv S s) (hl : CountsOpen s) :
    Reclaims S s (juggleTemp S id locks i s) := by
  induction i generalizing s with
  | zero => exact .refl h
  | succ i ih =>
    have hp := lruPullTail_reclaims h hl (p := { id := id, curLru := .temp }) rfl rfl
      (locks i .temp)
    simp only [juggleTemp]
    split_ifs
    · exact hp
    · exact hp.trans (ih hp.inv (hp.low h hl))

theorem juggleRound_reclaims (h : Inv S s) (hl : CountsOpen s)
    (id totalBytes ho warmAge : ℕ) (locks : Lru → ℕ → UInt32 → Bool) :
    Reclaims S s (juggleRound S s id totalBytes ho warmAge locks).1 := by
  have hp : ∀ {t : Store Addr} (lru : Lru) (maxAge : ℕ), Reclaims S s t →
      Reclaims S s (lruPullTail S t (jugglePull id totalBytes lru maxAge) (locks lru)).1 := by
    intro t lru maxAge ht
    exact ht.trans (lruPullTail_reclaims ht.inv (ht.low h hl) rfl rfl (locks lru))
  have hh := hp .hot ho (.refl h)
  simp only [juggleRound]
  split_ifs
  · exact hp .cold 0 hh
  · exact hp .cold 0 (hp .warm warmAge hh)
  · exact hh
  · exact hp .warm warmAge hh

theorem juggleRounds_reclaims (id totalBytes ho warmAge : ℕ)
    (locks : ℕ → Lru → ℕ → UInt32 → Bool) (i : ℕ) (h : Inv S s)
    (hl : CountsOpen s) :
    Reclaims S s (juggleRounds S id totalBytes ho warmAge locks i s) := by
  induction i generalizing s with
  | zero => exact .refl h
  | succ i ih =>
    have hr := juggleRound_reclaims h hl id totalBytes ho warmAge (locks i)
    rcases he : juggleRound S s id totalBytes ho warmAge (locks i) with ⟨t, more⟩
    rw [he] at hr
    cases more with
    | true =>
      simp only [juggleRounds, he]
      exact hr.trans (ih hr.inv (hr.low h hl))
    | false =>
      simp only [juggleRounds, he]
      exact hr

theorem lruMaintainerJuggle_reclaims (h : Inv S s)
    (hl : CountsOpen s) (id : ℕ) (ages : ℕ → ℕ × ℕ)
    (locks : ℕ → Lru → ℕ → UInt32 → Bool) :
    Reclaims S s (lruMaintainerJuggle S s id ages locks) := by
  have ht : Reclaims S s (if S.tempLru then juggleTemp S id locks 500 s else s) := by
    split_ifs
    · exact juggleTemp_reclaims id locks 500 h hl
    · exact .refl h
  simp only [lruMaintainerJuggle]
  generalize (if S.tempLru then juggleTemp S id locks 500 s else s) = t at ht ⊢
  have hr : ∀ totalBytes ho warmAge i,
      Reclaims S s (juggleRounds S id totalBytes ho warmAge locks i t) :=
    fun totalBytes ho warmAge i =>
      ht.trans (juggleRounds_reclaims id totalBytes ho warmAge locks i ht.inv
        (ht.low h hl))
  split_ifs
  · exact hr _ _ _ _
  · exact hr _ _ _ _

/-! ## The crawler -/

variable {m : DMem (ℕ × Lru) (Node Addr)}

theorem Inv.of_crawlers (h : Inv S s) {crawlers : ℕ × Lru → Option ℕ}
    (hs' : s' = { s with lru := { s.lru with ptrs := m, crawlers := crawlers } })
    (hm : m.Placed s'.place) : Inv S s' := by
  subst hs'
  exact ⟨⟨h.assoc, hm, ⟨h.sized.toTallied.congr rfl rfl fun _ _ => ⟨rfl, rfl⟩,
    h.sized.currItems, h.sized.currBytes⟩⟩, ⟨h.refcount, h.lt, h.slabbed, h.freed⟩,
    ⟨h.wiped, h.cas⟩⟩

omit [DecidableEq Addr] [Fintype Addr] in
theorem place_inr (h : (s.lru.crawlers q).isSome) : s.place (.inr q) = some q := by
  simp only [Store.place, h, if_true]

theorem Inv.doLruCrawlerStart (h : Inv S s) (q : ℕ × Lru) (remaining : Option ℕ) :
    Inv S (doLruCrawlerStart s q remaining) := by
  rcases hc : s.lru.crawlers q with _ | r
  · simp only [Items.doLruCrawlerStart, hc]
    have hp : s.place (.inr q) = none := by simp [Store.place, hc]
    refine h.of_crawlers rfl ((h.lru.pushTail (i := q) hp).congr_place fun n i => ?_)
    cases n with
    | inl a =>
      rw [update_of_ne (by simp)]
      exact Iff.rfl
    | inr q' =>
      by_cases hq : q' = q
      · simp [Store.place, doItemLinktailQ, Store.withPtrs, Store.setCrawler, hq]
      · simp [Store.place, doItemLinktailQ, Store.withPtrs, Store.setCrawler, hq]
  · simp only [Items.doLruCrawlerStart, hc]
    exact h

theorem Inv.crawler_off (h : Inv S s) (hc : (s.lru.crawlers q).isSome)
    (hm : m = s.lru.ptrs.unlink q (.inr q)) (hs' : s' = { s with lru := { s.lru with
      ptrs := m, crawlers := update s.lru.crawlers q none } }) : Inv S s' := by
  refine h.of_crawlers hs' ?_
  subst hs'
  rw [hm]
  refine (h.lru.unlink (place_inr hc)).congr_place fun n i => ?_
  cases n with
  | inl a =>
    rw [update_of_ne (by simp)]
    exact Iff.rfl
  | inr q' =>
    by_cases hq : q' = q
    · simp [Store.place, hq]
    · simp [Store.place, hq]

variable {place : Node Addr → Option (ℕ × Lru)}

section

omit [Fintype Addr]

/-- A crawler at the head is off the list once it popped itself off and
`lru_crawler_class_done` unlinked it again. -/
theorem unlink_of_head
    (hm : m.Placed place) {it n : Node Addr} (hit : place it = some q) (hp : m.prev it = none)
    (hn : m.next it = some n) :
    DMem.unlink { m with
      head := update m.head q (some n)
      prev := update m.prev n none } q it = m.unlink q it := by
  -- nothing is before the node, and something is behind it
  have hne : it ≠ n := by
    rintro rfl
    exact hm.flip.prev_ne hit hn
  have hh : m.head q = some it := (hm.head_iff hit).mpr hp
  have ht : m.tail q ≠ some it := by
    intro he
    have hl : m.next it = none := (hm.flip.head_iff hit).mp he
    rw [hn] at hl
    cases hl
  simp only [DMem.unlink, update_self, hh, hn, hp, update_of_ne hne,
    ht, setAt, update_idem, if_true, if_false]
  rw [if_neg fun he => hne (Option.some.inj he).symm]

theorem swing_eq (hm : m.Placed place) {it p : Node Addr} (hit : place it = some q)
    (hp : m.prev it = some p) :
    ({ head := update m.head q (if m.head q = some p then some it else m.head q)
       tail := update m.tail q (if m.tail q = some it then some p else m.tail q)
       next := setAt (update (update m.next p (m.next it)) it (some p))
         (setAt m.prev (m.next it) (some p) p) (some it)
       prev := update (update (setAt m.prev (m.next it) (some p)) it
         (setAt m.prev (m.next it) (some p) p)) p (some it) } : DMem (ℕ × Lru) (Node Addr)) =
      (m.unlink q it).insertBefore q p it := by
  have hh : m.head q ≠ some it := by
    rw [Ne, hm.head_iff hit, hp]
    simp
  simp only [DMem.unlink, DMem.insertBefore, hp, setAt, if_neg hh, update_self,
    update_idem]

end

theorem doItemCrawlQ_ptrs (h : Inv S s) (hc : (s.lru.crawlers q).isSome) :
    (∃ m, doItemCrawlQ s q = (s.withPtrs m, none) ∧
      m.unlink q (.inr q) = s.lru.ptrs.unlink q (.inr q)) ∨
    ∃ p, s.lru.ptrs.prev (.inr q) = some p ∧
      doItemCrawlQ s q =
        (s.withPtrs ((s.lru.ptrs.unlink q (.inr q)).insertBefore q p (.inr q)), some p) := by
  have hpl := place_inr hc
  rcases hp : s.lru.ptrs.prev (.inr q) with _ | p
  · left
    rcases hn : s.lru.ptrs.next (.inr q) with _ | n
    · refine ⟨s.lru.ptrs, ?_, rfl⟩
      simp only [doItemCrawlQ, hp, hn]
      rfl
    · refine ⟨_, ?_, unlink_of_head h.lru hpl hp hn⟩
      simp only [doItemCrawlQ, hp, hn]
  · right
    refine ⟨p, rfl, ?_⟩
    simp only [doItemCrawlQ, hp]
    rw [← swing_eq h.lru hpl hp]

theorem Inv.crawler_moved (h : Inv S s) (hc : (s.lru.crawlers q).isSome) {p : Node Addr}
    (hpr : s.lru.ptrs.prev (.inr q) = some p) (remaining : ℕ) :
    Inv S ((s.withPtrs ((s.lru.ptrs.unlink q (.inr q)).insertBefore q p (.inr q))).setCrawler q
      (some remaining)) := by
  have hpl := place_inr hc
  have hp := h.lru.place_of_prev hpl hpr
  have hn : p ≠ .inr q := fun he => h.lru.prev_ne hpl (by rw [hpr, he])
  have ho := h.lru.unlink hpl
  have hon := ho.insertBefore (b := p) (a := .inr q) (i := q)
    (by rw [update_of_ne hn, hp]) (by simp)
  refine h.of_crawlers rfl (hon.congr_place fun n i => ?_)
  cases n with
  | inl a =>
    rw [update_of_ne (by simp), update_of_ne (by simp)]
    exact Iff.rfl
  | inr q' =>
    by_cases hq : q' = q
    · simp [Store.place, Store.withPtrs, Store.setCrawler, hq]
    · simp [Store.place, Store.withPtrs, Store.setCrawler, hq]

omit [Fintype Addr] in
theorem dropRef_takeRef (hl : (s.items a).refcount < 2 ^ 16) : dropRef (takeRef s a) a = s := by
  have hf : (takeRef s a).forgetRef a = refcountIncr s a := by
    simp [takeRef, Store.noteRef, Store.forgetRef, refcountIncr, Store.modify]
  rw [dropRef, hf, refcountDecr_refcountIncr hl]

theorem crawlItem_reclaims (h : Inv S s) (hl : s.Linked a)
    (hlt : (s.items a).refcount + 1 < 2 ^ 16) :
    Quiet S (fun b => b = a ∧ s.Dead b) nothing s (crawlItem S s a) := by
  have ht := takeRef_quiet h (h.not_slabbed_of_linked hl) hlt
  have hdro : dropRef (takeRef s a) a = s := dropRef_takeRef (by omega)
  have hi : ((takeRef s a).items a).exptime = (s.items a).exptime := by simp [items_takeRef]
  have hfl : itemIsFlushed (takeRef s a) ((takeRef s a).items a) =
      itemIsFlushed s (s.items a) := by
    simp only [items_takeRef, if_true]
    rfl
  simp only [crawlItem, crawlerExpiredEval, hi, hfl]
  split_ifs with hbu hde
  · rw [hdro]
    exact (Quiet.refl h).of_nothing
  · have hd : s.Dead a := by
      obtain ⟨hn, hl'⟩ | hf := hde
      · right
        have hl'' : (s.items a).exptime < s.currentTime := hl'
        simp only [Item.expiredAt, Bool.and_eq_true, bne_iff_ne, ne_eq, decide_eq_true_eq]
        exact ⟨hn, by omega⟩
      · exact .inl hf
    have ho := (unlink_release_quiet ht.inv (a := a) (by simp [refs_takeRef])).1
    refine (ht.of_nothing.append (ho.mono (fun b _ hb => ?_) fun _ => id))
    rw [hb]
    exact ⟨rfl, hd⟩
  · rw [hdro]
    exact (Quiet.refl h).of_nothing

/-! ## Tasks -/

/-- Items that are not dead stay linked and unchanged, and nothing else is linked. -/
structure Keeps (S : Settings) (s s' : Store Addr) : Prop where
  inv : Inv S s'
  content : ∀ b, s'.Linked b → (s'.items b).content = (s.items b).content
  lost : ∀ b, s.Linked b → s'.Linked b ∨ s.Dead b

theorem Quiet.keeps {L T : Addr → Prop} (h : Quiet S L T s s') (hL : ∀ b, L b → s.Dead b) :
    Keeps S s s' :=
  ⟨h.inv, fun b hb => h.content b (h.inv.not_slabbed_of_linked hb),
    fun b hb => (h.lost b hb).imp_right (hL b)⟩

theorem Keeps.after_crawler (h : Keeps S s' s'') (hi : s'.items = s.items)
    (hc : s'.clock = s.clock) : Keeps S s s'' := by
  refine ⟨h.inv, fun b hb => ?_, fun b hb => ?_⟩
  · rw [h.content b hb, hi]
  have hb' : s'.Linked b := by rwa [Store.Linked, hi]
  refine (h.lost b hb').imp_right fun hd => ?_
  simp only [Store.clock, Prod.mk.injEq] at hc
  simpa only [Store.Dead, itemIsFlushed, hi, hc] using hd

theorem itemCrawlerStep_keeps (h : Inv S s) (hlt : CountsOpen s)
    (q : ℕ × Lru) (gone : Bool) (trylock : UInt32 → Bool) :
    Keeps S s (itemCrawlerStep S s q gone trylock) := by
  have hs : ∀ {t}, Inv S t → t.items = s.items → t.clock = s.clock → Keeps S s t :=
    fun ht hi hcl =>
      ((Quiet.refl ht).keeps fun _ => False.elim).after_crawler hi hcl
  rcases hc : s.lru.crawlers q with _ | remaining
  · simp only [itemCrawlerStep, hc]
    exact hs h rfl rfl
  have hso : (s.lru.crawlers q).isSome := by rw [hc]; rfl
  simp only [itemCrawlerStep, hc]
  by_cases hg : gone = true
  · rw [if_pos hg]
    exact hs (h.crawler_off hso rfl rfl) rfl rfl
  rw [if_neg hg]
  obtain ⟨m, he, hm⟩ | ⟨p, hp, he⟩ := doItemCrawlQ_ptrs h hso
  · rw [he]
    exact hs (h.crawler_off hso hm rfl) rfl rfl
  rw [he]
  have hmo := h.crawler_moved hso hp (remaining - 1)
  simp only
  split_ifs with hla
  · -- the crawler has seen as many items as it should
    refine hs (hmo.crawler_off (by simp [Store.setCrawler]) rfl rfl) rfl rfl
  cases p with
  | inr q' => exact hs hmo rfl rfl
  | inl a =>
    have hl : s.Linked a :=
      onList_inl.mp (h.prev_onList (Option.isSome_iff_exists.mpr ⟨q, place_inr hso⟩) hp).1
    simp only
    split_ifs
    · exact ((crawlItem_reclaims hmo hl (hlt a)).keeps fun b hb => hb.2).after_crawler rfl rfl
    · exact hs hmo rfl rfl

theorem Keeps.of_task (h : Inv S s) (hl : CountsLow s) {t : Task Addr} {r : Reply Addr}
    (hb : t.Background) (hs : runTask S s t = some (s', r)) : Keeps S s s' := by
  have ho := hl.countsOpen
  have hn : ∀ b : Addr, nothing b → s.Dead b := fun _ => False.elim
  cases t with
  | juggle id ages locks =>
    cases hs
    exact (lruMaintainerJuggle_reclaims h ho id ages locks).toQuiet.keeps fun _ hd => hd
  | crawlerStart q remaining =>
    cases hs
    refine ((Quiet.refl (h.doLruCrawlerStart q remaining)).keeps fun _ => False.elim).after_crawler
      ?_ ?_ <;> simp only [doLruCrawlerStart] <;> split <;> rfl
  | crawl q gone trylock =>
    cases hs
    exact itemCrawlerStep_keeps h ho q gone trylock
  | op o =>
    obtain ⟨hg, ha⟩ := step_eq hs
    obtain rfl : (apply S s o).1 = s' := by rw [ha]
    cases o with
    | tick | assocExpand | assocMigrate =>
      exact ⟨step_inv h hl hs, fun _ _ => rfl, fun _ hb => .inl hb⟩
    | get key doUpdate room =>
      obtain hm | ⟨a, hh⟩ := missing_or_hit s key
      · obtain ⟨t, heq, hq, -⟩ := doItemGet_of_missing h hl hm doUpdate room
        simp only [apply, heq]
        exact hq.keeps fun _ => And.right
      · obtain ⟨t, heq, hq, -⟩ := doItemGet_of_hit h hl hh doUpdate room
        simp only [apply, heq]
        exact hq.keeps hn
    | remove a => exact (releaseRef_quiet h hg).keeps hn
    | bump a => exact (lruMaintainerBump_quiet h hg).keeps hn
    | pullTail p trylock =>
      obtain ⟨t, n, ret, heq, hq, -⟩ := lruPullTail_spec h ho p trylock hg
      have he : p.evict = false := hb
      simp only [apply, heq]
      exact hq.keeps fun b hb => hb.1.resolve_right (by simp [he])
    | _ => exact hb.elim

theorem runTask_inv (h : Inv S s) (hl : CountsLow s) {t : Task Addr} {r : Reply Addr}
    (hs : runTask S s t = some (s', r)) : Inv S s' := by
  cases t with
  | op o => exact step_inv h hl hs
  | juggle id ages locks => exact (Keeps.of_task h hl (by trivial) hs).inv
  | crawlerStart q remaining => exact (Keeps.of_task h hl (by trivial) hs).inv
  | crawl q gone trylock => exact (Keeps.of_task h hl (by trivial) hs).inv

theorem maintenance_inv {ok : Store Addr → Task Addr → Prop} (ho : ∀ s t, ok s t → CountsLow s)
    (hr : (maintenance Addr S).Reachable ok s) : Inv S s :=
  hr.induct (fun _ hi => inv_of_init hi)
    fun h hs hst => runTask_inv h (ho _ _ hs) hst

theorem steps_op {ok : Store Addr → Op Addr → Prop} {ok' : Store Addr → Task Addr → Prop}
    (ho : ∀ s o, ok s o → ok' s (.op o)) {l : List (Op Addr × Reply Addr)}
    (h : (system Addr S).Steps ok s l s') :
    (maintenance Addr S).Steps ok' s (l.map fun x => (.op x.1, x.2)) s' := by
  induction h with
  | refl => exact .refl
  | tail _ ha hs ih =>
    rw [List.map_append]
    exact ih.tail (ho _ _ ha) hs

end Memcached.Items
