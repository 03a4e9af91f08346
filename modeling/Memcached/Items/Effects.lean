import Memcached.Items.Invariant

/-!
# What the functions of `items.c` change

`Evolves lost stamped s s'` bounds what happens between two states in which no item is
stored or changed by a client: items keep their content, only items of `lost` are
unlinked, and only items of `stamped` get a new access time. `Quiet` adds that the
invariant holds again. Lookups, LRU work and evictions are quiet, with one lemma each.

Results:
* `lruPullTail_spec`: eviction
* `doItemAlloc_spec`: allocation, with all the evictions it may take
* `doItemGet_spec`: lookups
-/

namespace Memcached.Items

open Lib Assoc

variable {Addr : Type*} [DecidableEq Addr] {S : Settings} {s s' s'' : Store Addr} {a b : Addr}
  {L L' T T' : Addr → Prop}

/-! ## The relations -/

/-- Every reference count can be raised once more. -/
def CountsOpen (s : Store Addr) : Prop := ∀ b, (s.items b).refcount + 1 < 2 ^ 16

/-- No reference count is near its limit: a step takes at most two references to one
item. -/
def CountsLow (s : Store Addr) : Prop := ∀ b, (s.items b).refcount + 2 < 2 ^ 16

instance [Fintype Addr] : Decidable (CountsLow s) :=
  inferInstanceAs (Decidable (∀ b, (s.items b).refcount + 2 < 2 ^ 16))

/-- The settings and the time that decide which items are alive. -/
def Store.clock (s : Store Addr) : ℕ × ℕ × ℕ := (s.currentTime, s.oldestLive, s.oldestCas)

section

omit [DecidableEq Addr]

theorem CountsLow.countsOpen (h : CountsLow s) : CountsOpen s := fun b => Nat.lt_of_succ_lt (h b)

variable (h : s'.clock = s.clock)
include h

theorem currentTime_of_clock : s'.currentTime = s.currentTime :=
  congrArg Prod.fst h

theorem oldestLive_of_clock : s'.oldestLive = s.oldestLive :=
  congrArg (fun c => c.2.1) h

theorem oldestCas_of_clock : s'.oldestCas = s.oldestCas :=
  congrArg (fun c => c.2.2) h

end

/-- What can happen between two states without a client storing something. -/
structure Evolves (lost stamped : Addr → Prop) (s s' : Store Addr) : Prop where
  content : ∀ b, ¬s'.Slabbed b → (s'.items b).content = (s.items b).content
  linked : ∀ b, s'.Linked b → s.Linked b
  lost : ∀ b, s.Linked b → s'.Linked b ∨ lost b
  time : ∀ b, ¬s'.Slabbed b → (s'.items b).time = (s.items b).time ∨
    stamped b ∧ (s'.items b).time = s.currentTime
  casId : s'.casId = s.casId
  clock : s'.clock = s.clock
  crawlers : s'.lru.crawlers = s.lru.crawlers

def nothing : Addr → Prop := fun _ => False

section

omit [DecidableEq Addr]

theorem slabbed_content : (s.items a).content.flags.slabbed = true ↔ s.Slabbed a := Iff.rfl

theorem Evolves.slabbed (h : Evolves L T s s') (hb : ¬s'.Slabbed b) : ¬s.Slabbed b := by
  rwa [← slabbed_content, ← h.content b hb, slabbed_content]

theorem Evolves.refl (s : Store Addr) : Evolves nothing nothing s s :=
  ⟨fun _ _ => rfl, fun _ => id, fun _ => .inl, fun _ _ => .inl rfl, rfl, rfl, rfl⟩

theorem Evolves.mono (h : Evolves L T s s') (hL : ∀ b, s.Linked b → L b → L' b)
    (hT : ∀ b, T b → T' b) : Evolves L' T' s s' :=
  { h with
    lost := fun b hb => (h.lost b hb).imp_right (hL b hb)
    time := fun b hb => (h.time b hb).imp_right (And.imp_left (hT b)) }

theorem Evolves.trans (h : Evolves L T s s') (h' : Evolves L' T' s' s'') :
    Evolves (fun b => L b ∨ L' b) (fun b => T b ∨ T' b) s s'' where
  content := fun b hb => (h'.content b hb).trans (h.content b (h'.slabbed hb))
  linked := fun b hb => h.linked b (h'.linked b hb)
  lost := fun b hb => by
    obtain hb | hb := h.lost b hb
    · exact (h'.lost b hb).imp_right .inr
    · exact .inr (.inl hb)
  time := fun b hb => by
    have hno := currentTime_of_clock h.clock
    obtain he | ⟨hT, hn⟩ := h'.time b hb
    · rw [he]
      exact (h.time b (h'.slabbed hb)).imp_right (And.imp_left .inl)
    · exact .inr ⟨.inr hT, hn.trans hno⟩
  casId := h'.casId.trans h.casId
  clock := h'.clock.trans h.clock
  crawlers := h'.crawlers.trans h.crawlers

end

theorem Evolves.of_items {it : Item} (hi : ∀ b, s'.items b = if b = a then it else s.items b)
    (hco : it.content = (s.items a).content)
    (hl : it.flags.linked = (s.items a).flags.linked)
    (ht : it.time = (s.items a).time ∨ T a ∧ it.time = s.currentTime)
    (hca : s'.casId = s.casId) (hcl : s'.clock = s.clock)
    (hc : s'.lru.crawlers = s.lru.crawlers) : Evolves nothing T s s' where
  content := fun b _ => proj_of_items Item.content hi hco b
  linked := fun b hb => by
    rwa [Store.Linked, proj_of_items (fun it => it.flags.linked) hi hl b] at hb
  lost := fun b hb => by
    refine .inl ?_
    rwa [Store.Linked, proj_of_items (fun it => it.flags.linked) hi hl b]
  time := fun b _ => by
    rw [hi]
    split_ifs with hb
    · rwa [hb]
    · exact .inl rfl
  casId := hca
  clock := hcl
  crawlers := hc

variable [Fintype Addr]

/-- A quiet piece of a run that ends with the invariant. -/
structure Quiet (S : Settings) (lost stamped : Addr → Prop) (s s' : Store Addr) : Prop
    extends Evolves lost stamped s s' where
  inv : Inv S s'

theorem Quiet.refl (h : Inv S s) : Quiet S nothing nothing s s := ⟨Evolves.refl s, h⟩

section

variable (h : Quiet S L T s s')
include h

theorem Quiet.mono (hL : ∀ b, s.Linked b → L b → L' b)
    (hT : ∀ b, T b → T' b) : Quiet S L' T' s s' := ⟨h.toEvolves.mono hL hT, h.inv⟩

theorem Quiet.trans (h' : Quiet S L' T' s' s'') :
    Quiet S (fun b => L b ∨ L' b) (fun b => T b ∨ T' b) s s'' :=
  ⟨h.toEvolves.trans h'.toEvolves, h'.inv⟩

theorem Quiet.append (h' : Quiet S L T s' s'') : Quiet S L T s s'' :=
  (h.trans h').mono (fun _ _ => Or.rec id id) (fun _ => Or.rec id id)

end

theorem Quiet.of_nothing (h : Quiet S nothing nothing s s') : Quiet S L T s s' :=
  h.mono (fun _ _ => False.elim) (fun _ => False.elim)

/-! ## References, lists and links -/

theorem takeRef_quiet (h : Inv S s) (hh : ¬s.Slabbed a)
    (hl : (s.items a).refcount + 1 < 2 ^ 16) : Quiet S nothing nothing s (takeRef s a) :=
  ⟨.of_items items_takeRef rfl rfl (.inl rfl) rfl rfl rfl, h.takeRef hh hl⟩

section

omit [Fintype Addr]

theorem casId_doItemRemove : (doItemRemove s a).casId = s.casId := by
  simp only [doItemRemove]
  split_ifs <;> rfl

theorem clock_doItemRemove : (doItemRemove s a).clock = s.clock := by
  simp only [doItemRemove]
  split_ifs <;> rfl

end

theorem releaseRef_quiet (h : Inv S s) (hr : 0 < s.refs a) :
    Quiet S nothing nothing s (releaseRef s a) where
  inv := h.releaseRef hr
  content := fun b hb => by
    rw [Store.Slabbed, (releaseRef_eq h hr).1] at hb
    rw [(releaseRef_eq h hr).1]
    split_ifs at hb ⊢ with hba
    · -- the item was not freed, so only its count changed
      have ho : (s.items a).refcount ≠ 1 := fun ho => hb (by simp [Item.released, ho])
      simp [Item.content, Item.released, ho, hba]
    · rfl
  linked := fun b hb => (linked_releaseRef h hr).mp hb
  lost := fun b hb => .inl ((linked_releaseRef h hr).mpr hb)
  time := fun b _ => .inl (proj_releaseRef Item.time h hr rfl b)
  casId := casId_doItemRemove
  clock := clock_doItemRemove
  crawlers := by
    unfold releaseRef
    rw [lru_doItemRemove]
    rfl

omit [Fintype Addr] in
theorem items_setActive (active : Bool) (b : Addr) :
    (setActive s a active).items b =
      if b = a then { s.items a with flags := { (s.items a).flags with active := active } }
      else s.items b :=
  items_modify _ b

theorem setActive_quiet (h : Inv S s) (active : Bool) :
    Quiet S nothing nothing s (setActive s a active) :=
  ⟨.of_items (items_setActive active) rfl rfl (.inl rfl) rfl rfl rfl,
    h.congr (.of_items (items_setActive active) rfl rfl rfl rfl rfl rfl rfl)
      (h.toTidy.of_items (items_setActive active) (.inl rfl))⟩

theorem touchTime_quiet (h : Inv S s) : Quiet S nothing (· = a) s (touchTime s a) :=
  ⟨.of_items items_touchTime rfl rfl (.inr ⟨rfl, rfl⟩) rfl rfl rfl,
    h.congr .touchTime (h.toTidy.of_items items_touchTime (.inl rfl))⟩

theorem lruMove_quiet (h : Inv S s) (hl : s.Linked a) (lru : Lru) :
    Quiet S nothing nothing s (lruMove s a lru) :=
  ⟨.of_items (items_lruMove lru) rfl rfl (.inl rfl) rfl rfl rfl, h.lruMove hl lru⟩

theorem unlinked_evolves : Evolves (· = a) nothing s (unlinked S s a) where
  content := fun b _ => proj_of_items Item.content items_unlinked rfl b
  linked := fun _ hb => (linked_unlinked.mp hb).2
  lost := fun b hb => by
    by_cases hba : b = a
    · exact .inr hba
    · exact .inl (linked_unlinked.mpr ⟨hba, hb⟩)
  time := fun b _ => .inl (proj_of_items Item.time items_unlinked rfl b)
  casId := rfl
  clock := rfl
  crawlers := rfl

theorem doItemUnlink_quiet (h : Inv S s) : Quiet S (· = a) nothing s (doItemUnlink S s a) := by
  by_cases hl : s.Linked a
  · rw [doItemUnlink_of_linked hl]
    have hi := h.unlinked hl
    exact Quiet.append ⟨unlinked_evolves, hi⟩
      (releaseRef_quiet hi (by simp [refs_unlinked])).of_nothing
  · rw [doItemUnlink_of_not_linked hl]
    exact (Quiet.refl h).of_nothing

omit [Fintype Addr] in
theorem refs_takeRef (b : Addr) : (takeRef s a).refs b = s.refs b + if b = a then 1 else 0 :=
  refs_noteRef

theorem unlink_release_quiet (h : Inv S s) (hr : 0 < s.refs a) :
    Quiet S (· = a) nothing s (releaseRef (doItemUnlink S s a) a) ∧
      ∀ b, ¬(releaseRef (doItemUnlink S s a) a).Linked b ∨ b ≠ a := by
  have hu := doItemUnlink_quiet h (a := a)
  have hr' : 0 < (doItemUnlink S s a).refs a := by simpa using hr
  refine ⟨hu.append (releaseRef_quiet hu.inv hr').of_nothing, fun b => ?_⟩
  rw [linked_releaseRef hu.inv hr', linked_doItemUnlink h]
  by_cases hb : b = a
  · exact .inl fun hl => hl.1 hb
  · exact .inr hb

/-! ## Accesses -/

theorem doItemUpdate_quiet (h : Inv S s) : Quiet S nothing (· = a) s (doItemUpdate S s a) := by
  have ht := touchTime_quiet h (a := a)
  have hlt : (touchTime s a).Linked a ↔ s.Linked a := SameFrame.touchTime.linked a
  simp only [doItemUpdate]
  split_ifs with hs hl hc ho hl
  · -- a hit in the cold list moves to the warm one
    have ha := setActive_quiet ht.inv (a := a) false
    have hm := lruMove_quiet ha.inv (a := a)
      (Eq.trans (by simp [items_setActive]) (hlt.mpr hl)) .warm
    exact ht.append (ha.append hm).of_nothing
  · exact ht
  · exact (Quiet.refl h).of_nothing
  · exact ht.append (lruMove_quiet ht.inv (hlt.mpr hl) _).of_nothing
  · exact (Quiet.refl h).of_nothing
  · exact (Quiet.refl h).of_nothing

section

omit [Fintype Addr]

@[simp] theorem refs_doItemUpdate : (doItemUpdate S s a).refs = s.refs := by
  simp only [doItemUpdate]
  split_ifs <;> rfl

@[simp] theorem bumps_doItemUpdate : (doItemUpdate S s a).bumps = s.bumps := by
  simp only [doItemUpdate]
  split_ifs <;> rfl

theorem refcountDecr_refcountIncr (hl : (s.items a).refcount < 2 ^ 16) :
    refcountDecr (refcountIncr s a) a = s := by
  have hi : (refcountDecr (refcountIncr s a) a).items = s.items := by
    funext b
    simp only [refcountDecr, refcountIncr, items_modify, if_true]
    split_ifs with hb
    · have : (((s.items a).refcount + 1) % 2 ^ 16 + (2 ^ 16 - 1)) % 2 ^ 16 =
          (s.items a).refcount := by omega
      rw [this, hb]
    · rfl
  calc refcountDecr (refcountIncr s a) a
      = { s with items := (refcountDecr (refcountIncr s a) a).items } := rfl
    _ = s := by rw [hi]

end

theorem lruBumpAsync_quiet (h : Inv S s) (hh : ¬s.Slabbed a)
    (hlt : (s.items a).refcount + 1 < 2 ^ 16) (room : Bool) :
    Quiet S nothing nothing s (lruBumpAsync s a room).1 := by
  cases room with
  | false =>
    have : (lruBumpAsync s a false).1 = s := refcountDecr_refcountIncr (h.lt a)
    rw [this]
    exact .refl h
  | true =>
    have ht := takeRef_quiet h hh hlt
    refine ⟨.of_items items_takeRef rfl rfl (.inl rfl) rfl rfl rfl, ?_⟩
    refine ⟨ht.inv.toIndexed.congr (fun _ => Iff.rfl) (fun _ _ => ⟨rfl, rfl, rfl⟩) rfl rfl,
      ht.inv.toCounted.congr (fun _ => ⟨rfl, rfl⟩) (fun b => ?_) rfl,
      h.toTidy.of_items items_takeRef (.inl rfl)⟩
    rw [holders_takeRef]
    have hl : (lruBumpAsync s a true).1.Linked b ↔ s.Linked b := linked_takeRef
    simp only [Store.holders, hl]
    show s.refs b + (a :: s.bumps).count b + _ = _
    by_cases hb : b = a
    · rw [hb, List.count_cons_self, if_pos rfl]
      omega
    · rw [List.count_cons_of_ne (Ne.symm hb), if_neg hb]
      omega

theorem fetched_quiet (h : Inv S s) :
    Quiet S nothing nothing s
      (s.modify a fun it => { it with flags := { it.flags with fetched := true } }) :=
  ⟨.of_items (items_modify _) rfl rfl (.inl rfl) rfl rfl rfl,
    h.congr (.modify rfl rfl) (h.toTidy.of_items (items_modify _) (.inl rfl))⟩

theorem doItemBump_quiet (h : Inv S s) (hh : ¬s.Slabbed a)
    (hl : (s.items a).refcount + 1 < 2 ^ 16) (room : Bool) :
    Quiet S nothing (· = a) s (doItemBump S s a room) := by
  simp only [doItemBump]
  split_ifs with hseg hac hf hc
  · exact (Quiet.refl h).of_nothing
  · have hse := setActive_quiet h (a := a) true
    exact hse.of_nothing.append (touchTime_quiet hse.inv)
  · have hse := setActive_quiet h (a := a) true
    have hs : ¬(setActive s a true).Slabbed a := by
      simpa [Store.Slabbed, items_setActive] using hh
    have ha := lruBumpAsync_quiet hse.inv hs (by simpa [items_setActive] using hl) room
    have hb := hse.append ha
    split
    · rename_i s1 he
      rw [he] at hb
      exact hb.of_nothing
    · rename_i s1 he
      rw [he] at hb
      exact (hb.append (setActive_quiet hb.inv false)).of_nothing
  · exact (fetched_quiet h).of_nothing
  · exact (fetched_quiet h).of_nothing.append (doItemUpdate_quiet (fetched_quiet h).inv)

section

omit [Fintype Addr]

theorem refs_lruBumpAsync (room : Bool) : (lruBumpAsync s a room).1.refs = s.refs := by
  cases room <;> rfl

theorem refs_doItemBump (room : Bool) : (doItemBump S s a room).refs = s.refs := by
  simp only [doItemBump]
  split_ifs
  · rfl
  · rfl
  · have := refs_lruBumpAsync (s := setActive s a true) (a := a) room
    split <;> rename_i he <;> rw [he] at this <;> exact this
  · rfl
  · exact refs_doItemUpdate

end

def Store.Dead (s : Store Addr) (a : Addr) : Prop :=
  itemIsFlushed s (s.items a) = true ∨ (s.items a).expiredAt s.currentTime = true

instance : Decidable (s.Dead a) := inferInstanceAs (Decidable (_ ∨ _))

variable {key : Bytes}

section

variable (h : Inv S s)
include h

theorem Inv.find_eq_some_iff :
    assocFind s.key s.assoc key (S.hash key) = some a ↔ s.Linked a ∧ s.key a = key := by
  rw [h.assoc.assocFind_eq_some_iff, mem_stored]

theorem Inv.find_eq_none_iff :
    assocFind s.key s.assoc key (S.hash key) = none ↔ ∀ b, s.Linked b → s.key b ≠ key := by
  rw [h.assoc.assocFind_eq_none_iff]
  simp only [mem_stored]

theorem Inv.not_slabbed_of_linked (hl : s.Linked a) : ¬s.Slabbed a := by
  rw [h.slabbed, Store.holders, if_pos hl]
  omega

theorem Inv.not_slabbed_of_refs (hr : 0 < s.refs a) : ¬s.Slabbed a := by
  rw [h.slabbed, Store.holders]
  omega

theorem Inv.eq_of_key (ha : s.Linked a) (hb : s.Linked b) (hk : s.key a = s.key b) : a = b :=
  h.assoc.keys a (by simpa using ha) b (by simpa using hb) hk

end

omit [Fintype Addr] in
theorem dead_takeRef : (takeRef s a).Dead b ↔ s.Dead b := by
  have hc : ((takeRef s a).items b).content = (s.items b).content :=
    proj_of_items Item.content items_takeRef rfl b
  have ht : ((takeRef s a).items b).time = (s.items b).time :=
    proj_of_items Item.time items_takeRef rfl b
  have hca : ((takeRef s a).items b).getCas = (s.items b).getCas := Item.proj_eq _ hc
  have hexp : ((takeRef s a).items b).exptime = (s.items b).exptime := Item.proj_eq _ hc
  simp only [Store.Dead, itemIsFlushed, Item.expiredAt, hca, hexp, ht]
  rfl

theorem doItemGet_of_live (doUpdate room : Bool)
    (hf : assocFind s.key s.assoc key (S.hash key) = some a) (hl : ¬s.Dead a) :
    doItemGet S s key doUpdate room =
      (if doUpdate then doItemBump S (takeRef s a) a room else takeRef s a, some a) := by
  rw [← dead_takeRef (a := a), Store.Dead, not_or] at hl
  simp only [doItemGet, hf]
  rw [if_neg hl.1, if_neg hl.2]

theorem doItemGet_of_dead (doUpdate room : Bool)
    (hfi : assocFind s.key s.assoc key (S.hash key) = some a) (hd : s.Dead a) :
    doItemGet S s key doUpdate room =
      (releaseRef (doItemUnlink S (takeRef s a) a) a, none) := by
  rw [← dead_takeRef (a := a)] at hd
  simp only [doItemGet, hfi]
  obtain hf | he := hd
  · rw [if_pos hf]
  · rw [if_pos he, ite_self]

/-- `do_item_get`: a miss unlinks the item of the key if that is dead, and a hit takes
a reference to the live item. -/
theorem doItemGet_spec (h : Inv S s) (key : Bytes) (doUpdate room : Bool)
    (hlt : CountsLow s) :
    (∃ s', doItemGet S s key doUpdate room = (s', none) ∧
      Quiet S (fun b => s.key b = key ∧ s.Dead b) nothing s s' ∧ s'.refs = s.refs ∧
      s'.bumps = s.bumps ∧ ∀ b, s'.Linked b → s.key b ≠ key) ∨
    (∃ s' a, doItemGet S s key doUpdate room = (s', some a) ∧ s.Linked a ∧ s.key a = key ∧
      ¬s.Dead a ∧ Quiet S nothing (fun b => doUpdate = true ∧ b = a) s s' ∧
      (∀ b, s'.refs b = s.refs b + if b = a then 1 else 0) ∧
      (doUpdate = false → s' = takeRef s a)) := by
  cases hf : assocFind s.key s.assoc key (S.hash key) with
  | none =>
    refine .inl ⟨s, by simp [doItemGet, hf], (Quiet.refl h).of_nothing, rfl, rfl, ?_⟩
    exact h.find_eq_none_iff.mp hf
  | some a =>
    obtain ⟨hl, hk⟩ := h.find_eq_some_iff.mp hf
    have hh := h.not_slabbed_of_linked hl
    have ht := takeRef_quiet h hh (hlt.countsOpen a)
    have hr : 0 < (takeRef s a).refs a := by simp [refs_takeRef]
    by_cases hd : s.Dead a
    · have hge := doItemGet_of_dead doUpdate room hf hd
      obtain ⟨hq, hg⟩ := unlink_release_quiet ht.inv hr
      refine .inl ⟨_, hge, ?_, ?_, ?_, ?_⟩
      · exact (ht.of_nothing.append hq).mono
          (fun b _ hb => ⟨by rw [hb, hk], by rwa [hb]⟩) (fun _ => id)
      · funext b
        rw [refs_releaseRef, refs_doItemUnlink, refs_takeRef]
        omega
      · show (doItemRemove _ _).bumps = _
        simp [Store.forgetRef, takeRef, Store.noteRef, refcountIncr, Store.modify]
      · intro b hb hkb
        refine (hg b).elim (fun hn => hn hb) fun hne => hne ?_
        exact h.eq_of_key (ht.linked b (hq.linked b hb)) hl (hkb.trans hk.symm)
    · have hge := doItemGet_of_live doUpdate room hf hd
      refine .inr ⟨_, a, hge, hl, hk, hd, ?_, ?_, ?_⟩
      · cases doUpdate with
        | false => exact ht.of_nothing
        | true =>
          have hh' : ¬(takeRef s a).Slabbed a := ht.inv.not_slabbed_of_refs hr
          have hc : ((takeRef s a).items a).refcount + 1 < 2 ^ 16 := by
            rw [refcount_takeRef (hlt.countsOpen a), if_pos rfl]
            have := hlt a
            omega
          exact (ht.of_nothing.append (doItemBump_quiet ht.inv hh' hc room)).mono
            (fun _ _ => id) (fun b hb => ⟨rfl, hb⟩)
      · intro b
        cases doUpdate <;> simp [refs_doItemBump, refs_takeRef]
      · rintro rfl
        rfl

/-! ## Eviction -/

omit [DecidableEq Addr] [Fintype Addr] in
theorem Evolves.dead_iff (h : Evolves L T s s') (hb : ¬s'.Slabbed b) (hT : ¬T b) :
    s'.Dead b ↔ s.Dead b := by
  have hc := h.content b hb
  have hca : (s'.items b).getCas = (s.items b).getCas := Item.proj_eq _ hc
  have hexp : (s'.items b).exptime = (s.items b).exptime := Item.proj_eq _ hc
  have ht : (s'.items b).time = (s.items b).time :=
    (h.time b hb).resolve_right fun hs => hT hs.1
  have hcl := h.clock
  simp only [Store.clock, Prod.mk.injEq] at hcl
  simp only [Store.Dead, itemIsFlushed, Item.expiredAt, hca, hexp, ht, hcl]

theorem Quiet.refcount_le (h : Inv S s) (hq : Quiet S L T s s') (hr : s'.refs = s.refs)
    (hb : s'.bumps = s.bumps) (b : Addr) : (s'.items b).refcount ≤ (s.items b).refcount := by
  rw [h.refcount, hq.inv.refcount, Store.holders, Store.holders, hr, hb]
  have hl := hq.linked b
  split_ifs with h' h
  · exact le_rfl
  · exact absurd (hl h') h
  · omega
  · exact le_rfl

/-- The items that `lru_pull_tail` may unlink: those it can lock that are dead or, if
it evicts, any. -/
def Pull.Takes (S : Settings) (p : Pull) (trylock : ℕ → UInt32 → Bool) (s : Store Addr)
    (b : Addr) : Prop :=
  (s.Dead b ∨ p.evict = true) ∧ ∃ n, trylock n (S.hash (s.key b)) = true

/-- The references after an iteration of `lru_pull_tail`. -/
def Pulled.Keeps (r : Pulled) (search : Addr) (s s' : Store Addr) : Prop :=
  match r with
  | .again => s'.refs = s.refs
  | .stop moveTo =>
    (∀ b, s'.refs b = s.refs b + if b = search then 1 else 0) ∧
      (moveTo.isSome → s'.Linked search)

theorem lruPullLive_spec (h : Inv S s) (hl : s.Linked a) (hr : 0 < s.refs a) (p : Pull) :
    ∃ s' n r, lruPullLive S s p a = (s', n, r) ∧
      Quiet S (fun b => b = a ∧ p.evict = true) nothing s s' ∧ s'.bumps = s.bumps ∧
      match r with
      | .again => ∀ b, s'.refs b = s.refs b - if b = a then 1 else 0
      | .stop moveTo => s'.refs = s.refs ∧ (moveTo.isSome → s'.Linked a) := by
  have hs : Quiet S (fun b => b = a ∧ p.evict = true) nothing s s := (Quiet.refl h).of_nothing
  have ha := setActive_quiet h (a := a) false
  have hact_linked : (setActive s a false).Linked a := by
    rw [Store.Linked, items_setActive, if_pos rfl]
    exact hl
  cases hlr : p.curLru with
  | hot =>
    simp only [lruPullLive, hlr]
    split_ifs
    · exact ⟨_, _, _, rfl, ha.of_nothing, rfl, rfl, fun _ => hact_linked⟩
    · exact ⟨_, _, _, rfl, hs, rfl, rfl, fun _ => hl⟩
    · exact ⟨_, _, _, rfl, hs, rfl, rfl, fun _ => hl⟩
  | warm =>
    simp only [lruPullLive, hlr]
    split_ifs
    · have hm := lruMove_quiet ha.inv hact_linked (s.items a).lru
      have hre := releaseRef_quiet (a := a) hm.inv hr
      exact ⟨_, _, _, rfl, ((ha.append hm).append hre).of_nothing, bumps_doItemRemove,
        fun b => refs_releaseRef⟩
    · exact ⟨_, _, _, rfl, hs, rfl, rfl, fun _ => hl⟩
    · exact ⟨_, _, _, rfl, hs, rfl, rfl, fun _ => hl⟩
  | cold =>
    simp only [lruPullLive, hlr]
    split_ifs with he
    · refine ⟨_, _, _, rfl, ?_, bumps_doItemUnlink, refs_doItemUnlink, by simp⟩
      exact (doItemUnlink_quiet h).mono (fun b _ hb => ⟨hb, he⟩) (fun _ => id)
    · exact ⟨_, _, _, rfl, hs, rfl, rfl, fun _ => hl⟩
    · exact ⟨_, _, _, rfl, hs, rfl, rfl, fun _ => hl⟩
    · exact ⟨_, _, _, rfl, ha.of_nothing, rfl, rfl, fun _ => hact_linked⟩
    · exact ⟨_, _, _, rfl, hs, rfl, rfl, fun _ => hl⟩
  | temp =>
    simp only [lruPullLive, hlr]
    exact ⟨_, _, _, rfl, hs, rfl, rfl, fun _ => hl⟩

theorem lruPullOne_spec (h : Inv S s) (hl : s.Linked a) (hlt : (s.items a).refcount + 1 < 2 ^ 16)
    (p : Pull) :
    ∃ s' n r, lruPullOne S s p a = (s', n, r) ∧
      Quiet S (fun b => b = a ∧ (s.Dead b ∨ p.evict = true)) nothing s s' ∧
      s'.bumps = s.bumps ∧ r.Keeps a s s' := by
  have ht := takeRef_quiet h (h.not_slabbed_of_linked hl) hlt
  have href : 0 < (takeRef s a).refs a := by simp [refs_takeRef]
  have hi : ((takeRef s a).items a).exptime = (s.items a).exptime := by
    simp [items_takeRef]
  have hfl : itemIsFlushed (takeRef s a) ((takeRef s a).items a) =
      itemIsFlushed s (s.items a) := by
    simp only [items_takeRef, if_true]
    rfl
  simp only [lruPullOne, hi, hfl]
  split_ifs with hre
  · have hd : s.Dead a := by
      obtain ⟨hn, hlt⟩ | hf := hre
      · refine .inr ?_
        have : (s.items a).exptime ≤ s.currentTime := le_of_lt hlt
        simp [Item.expiredAt, hn, this]
      · exact .inl hf
    obtain ⟨hq, -⟩ := unlink_release_quiet ht.inv href
    refine ⟨_, _, _, rfl, ?_, ?_, ?_⟩
    · exact (ht.of_nothing.append hq).mono (fun b _ hb => ⟨hb, .inl (by rwa [hb])⟩)
        (fun _ => id)
    · exact bumps_doItemRemove.trans bumps_doItemUnlink
    · funext b
      rw [refs_releaseRef, refs_doItemUnlink, refs_takeRef]
      omega
  · obtain ⟨s', n, r, he, hq, hbu, hr⟩ :=
      lruPullLive_spec ht.inv (linked_takeRef.mpr hl) href p
    refine ⟨s', n, r, he, ?_, hbu, ?_⟩
    · exact (ht.of_nothing.append hq).mono (fun b _ hb => ⟨hb.1, .inr hb.2⟩) (fun _ => id)
    cases r with
    | again =>
      funext b
      rw [hr, refs_takeRef]
      omega
    | stop moveTo => exact ⟨fun b => by rw [hr.1, refs_takeRef], hr.2⟩

omit [DecidableEq Addr] [Fintype Addr] in
theorem place_eq_some_iff {q : ℕ × Lru} :
    s.place (.inl a) = some q ↔ s.Linked a ∧ (s.items a).queue = q := by
  simp only [Store.place]
  split_ifs with hl <;> simp [hl]

/-- The nodes that a walk over an LRU list meets: linked items, and crawlers. -/
def Store.OnList (s : Store Addr) (n : Node Addr) : Prop := (s.place n).isSome

omit [DecidableEq Addr] [Fintype Addr] in
theorem onList_inl : s.OnList (.inl a) ↔ s.Linked a := by
  simp only [Store.OnList, Store.place]
  split_ifs with hl <;> simp [hl]

theorem Inv.prev_onList (h : Inv S s) {n m : Node Addr} (hn : s.OnList n)
    (hpr : s.lru.ptrs.prev n = some m) : s.OnList m ∧ m ≠ n := by
  obtain ⟨q, hp⟩ := Option.isSome_iff_exists.mp hn
  refine ⟨?_, fun hm => h.lru.prev_ne hp (by rw [hpr, hm])⟩
  exact Option.isSome_iff_exists.mpr ⟨q, h.lru.place_of_prev hp hpr⟩

theorem Inv.pastCrawler_linked (h : Inv S s) {node : Option (Node Addr)}
    (hn : ∀ n, node = some n → s.OnList n) (ha : pastCrawler s node = some a) : s.Linked a := by
  obtain _ | ⟨b | q⟩ := node
  · cases ha
  · obtain rfl : b = a := Option.some.inj ha
    exact onList_inl.mp (hn _ rfl)
  simp only [pastCrawler] at ha
  split at ha
  · rename_i c hp
    obtain rfl : c = a := Option.some.inj ha
    exact onList_inl.mp (h.prev_onList (hn _ rfl) hp).1
  · cases ha

omit [DecidableEq Addr] [Fintype Addr] in
theorem Evolves.onList (h : Evolves (fun b => b = a ∧ L b) T s s') {n : Node Addr}
    (hn : s.OnList n) (hne : n ≠ .inl a) : s'.OnList n := by
  cases n with
  | inl b =>
    rw [onList_inl] at hn ⊢
    exact (h.lost b hn).resolve_right fun hl => hne (by rw [hl.1])
  | inr q =>
    unfold Store.OnList Store.place at hn ⊢
    simp only at hn ⊢
    rwa [h.crawlers]

theorem takes_of_quiet {p : Pull} {trylock : ℕ → UInt32 → Bool}
    (hq : Quiet S L nothing s s') (hb : s'.Linked b) (ht : p.Takes S trylock s' b) :
    p.Takes S trylock s b := by
  have hs := hq.inv.not_slabbed_of_linked hb
  have hk : s'.key b = s.key b := Item.key_eq (hq.content b hs)
  refine ⟨ht.1.imp_left (hq.dead_iff hs id).mp, ?_⟩
  rw [← hk]
  exact ht.2

theorem lruPullLoop_spec (p : Pull) (trylock : ℕ → UInt32 → Bool) (tries : ℕ)
    (h : Inv S s) {node : Option (Node Addr)} (hno : ∀ n, node = some n → s.OnList n)
    (hlt : CountsOpen s) (removed : ℕ) :
    ∃ s' n found, lruPullLoop S p trylock tries s node removed = (s', n, found) ∧
      Quiet S (p.Takes S trylock s) nothing s s' ∧ s'.bumps = s.bumps ∧
      match found with
      | none => s'.refs = s.refs
      | some (a, moveTo) => (Pulled.stop moveTo).Keeps a s s' := by
  induction tries generalizing s node removed with
  | zero => exact ⟨_, _, _, rfl, (Quiet.refl h).of_nothing, rfl, rfl⟩
  | succ tries ih =>
    unfold lruPullLoop
    by_cases hbl : p.crawlBlocks ∧ node.any Sum.isRight
    · rw [if_pos hbl]
      exact ⟨_, _, _, rfl, (Quiet.refl h).of_nothing, rfl, rfl⟩
    rw [if_neg hbl]
    rcases hpa : pastCrawler s node with _ | a
    · exact ⟨_, _, _, rfl, (Quiet.refl h).of_nothing, rfl, rfl⟩
    have hl := h.pastCrawler_linked hno hpa
    have hp : ∀ n, s.lru.ptrs.prev (.inl a) = some n → s.OnList n ∧ n ≠ .inl a :=
      fun n hn => h.prev_onList (onList_inl.mpr hl) hn
    by_cases hlo : trylock tries (S.hash (s.key a)) = true
    · obtain ⟨s1, n, r, ho, hq, hbu, hk⟩ := lruPullOne_spec h hl (hlt a) p
      have hq' : Quiet S (p.Takes S trylock s) nothing s s1 :=
        hq.mono (fun b _ hb => ⟨hb.2, tries, by rwa [hb.1]⟩) (fun _ => id)
      cases r with
      | stop moveTo =>
        refine ⟨s1, removed + n, some (a, moveTo), ?_, hq', hbu, hk⟩
        simp only [hlo, if_true, ho]
      | again =>
        have hne : ∀ m, s.lru.ptrs.prev (.inl a) = some m → s1.OnList m :=
          fun m hm => hq.toEvolves.onList (hp m hm).1 (hp m hm).2
        have hle := Quiet.refcount_le h hq hk hbu
        obtain ⟨s2, n2, found, hloo, hq2, hb2, hf⟩ :=
          ih hq.inv hne (fun b => lt_of_le_of_lt (by have := hle b; omega) (hlt b)) (removed + n)
        refine ⟨s2, n2, found, ?_, ?_, hb2.trans hbu, ?_⟩
        · simp only [hlo, if_true, ho, hloo]
        · exact (hq'.trans (hq2.mono (fun b hb ht => takes_of_quiet hq hb ht) (fun _ => id))).mono
            (fun _ _ => Or.rec id id) (fun _ => Or.rec id id)
        rw [Pulled.Keeps] at hk
        cases found with
        | none => exact hf.trans hk
        | some x => exact ⟨fun b => by rw [hf.1, hk], hf.2⟩
    · obtain ⟨s2, n2, found, hloo, hr⟩ := ih h (fun m hm => (hp m hm).1) hlt removed
      refine ⟨s2, n2, found, ?_, hr⟩
      simp only [hlo, hloo]
      rfl

theorem lruPullMove_quiet (h : Inv S s) {moveTo : Option Lru}
    (hl : moveTo.isSome → s.Linked a) : Quiet S nothing nothing s (lruPullMove s a moveTo) := by
  cases moveTo with
  | none => exact .refl h
  | some lru => exact lruMove_quiet h (hl rfl) lru

section

omit [Fintype Addr]

theorem refs_lruPullMove (moveTo : Option Lru) : (lruPullMove s a moveTo).refs = s.refs := by
  cases moveTo <;> rfl

theorem bumps_lruPullMove (moveTo : Option Lru) : (lruPullMove s a moveTo).bumps = s.bumps := by
  cases moveTo <;> rfl

end

theorem lruPullTail_spec (h : Inv S s) (hlt : CountsOpen s) (p : Pull)
    (trylock : ℕ → UInt32 → Bool) (hre : p.returnItem → p.curLru = .cold ∧ p.evict = false) :
    ∃ s' n ret, lruPullTail S s p trylock = (s', n, ret) ∧
      Quiet S (p.Takes S trylock s) nothing s s' ∧ s'.bumps = s.bumps ∧
      (∀ b, s'.refs b = s.refs b + if ret = some b then 1 else 0) ∧
      (p.returnItem = false → ret = none) := by
  unfold lruPullTail
  by_cases hi : p.id = 0
  · rw [if_pos hi]
    exact ⟨_, _, _, rfl, (Quiet.refl h).of_nothing, rfl, fun b => by simp, fun _ => rfl⟩
  rw [if_neg hi]
  have ht : ∀ n, s.lru.ptrs.tail (p.id, p.curLru) = some n → s.OnList n :=
    fun n hn => Option.isSome_iff_exists.mpr ⟨_, h.lru.place_of_tail hn⟩
  obtain ⟨s1, n, found, hlo, hq, hb, hf⟩ :=
    lruPullLoop_spec p trylock 5 h ht hlt 0
  rw [hlo]
  obtain _ | ⟨a, moveTo⟩ := found
  · exact ⟨_, _, _, rfl, hq, hb, fun b => by simp [hf], fun _ => rfl⟩
  obtain ⟨hr, hl⟩ := hf
  have hq2 := lruPullMove_quiet hq.inv hl
  have hq12 := hq.append hq2.of_nothing
  have hr2 := refs_lruPullMove (s := s1) (a := a) moveTo
  have hb2 := bumps_lruPullMove (s := s1) (a := a) moveTo
  by_cases hri : p.returnItem = true
  · have hs : p.returnItem = true ∧ p.curLru = .cold ∧ ¬p.evict = true :=
      ⟨hri, (hre hri).1, by simp [(hre hri).2]⟩
    simp only [lruPullDone, if_pos hri, if_pos hs]
    refine ⟨_, _, _, rfl, hq12, hb2.trans hb, fun b => ?_, by simp [hri]⟩
    simp only [hr2, hr, Option.some.injEq, eq_comm]
  have hno : ¬(p.returnItem = true ∧ p.curLru = .cold ∧ ¬p.evict = true) :=
    fun ha => hri ha.1
  simp only [lruPullDone, if_neg hri, if_neg hno]
  refine ⟨_, _, _, rfl, hq12.append (releaseRef_quiet hq2.inv ?_).of_nothing, ?_, fun b => ?_,
    fun _ => rfl⟩
  · rw [hr2, hr, if_pos rfl]
    omega
  · exact bumps_doItemRemove.trans (hb2.trans hb)
  · rw [refs_releaseRef, hr2, hr]
    simp

/-! ## Allocation -/

/-- The items whose lock an allocation may take. -/
def Lockable (S : Settings) (rounds : ℕ → Round Addr) (s : Store Addr) (b : Addr) : Prop :=
  ∃ i n, (rounds i).trylock n (S.hash (s.key b)) = true

variable {rounds : ℕ → Round Addr}

theorem lockable_of_quiet (hq : Quiet S L nothing s s')
    (hb : s'.Linked b) (hl : Lockable S rounds s' b) : Lockable S rounds s b := by
  have hk : s'.key b = s.key b :=
    Item.key_eq (hq.content b (hq.inv.not_slabbed_of_linked hb))
  unfold Lockable
  rw [← hk]
  exact hl

/-- A quiet piece of an allocation after which no reference is handed out. -/
structure Pulling (S : Settings) (rounds : ℕ → Round Addr) (s s' : Store Addr) : Prop
    extends Quiet S (Lockable S rounds s) nothing s s' where
  refs : s'.refs = s.refs
  bumps : s'.bumps = s.bumps

theorem Pulling.refl (h : Inv S s) (rounds : ℕ → Round Addr) : Pulling S rounds s s :=
  ⟨(Quiet.refl h).of_nothing, rfl, rfl⟩

theorem Pulling.trans (h : Pulling S rounds s s')
    (h' : Pulling S rounds s' s'') : Pulling S rounds s s'' where
  toQuiet := (h.toQuiet.trans
    (h'.toQuiet.mono (fun _ hb hl => lockable_of_quiet h.toQuiet hb hl) (fun _ => id))).mono
      (fun _ _ => Or.rec id id) (fun _ => Or.rec id id)
  refs := h'.refs.trans h.refs
  bumps := h'.bumps.trans h.bumps

theorem Pulling.pull (h : Inv S s) (hl : CountsOpen s)
    (rounds : ℕ → Round Addr) (i : ℕ) {p : Pull} (hp : p.returnItem = false) :
    Pulling S rounds s (lruPullTail S s p (rounds i).trylock).1 := by
  obtain ⟨s', n, ret, he, hq, hb, hr, hre⟩ :=
    lruPullTail_spec h hl p (rounds i).trylock (by simp [hp])
  rw [he]
  refine ⟨hq.mono (fun b _ ht => ⟨i, ht.2⟩) (fun _ => id), ?_, hb⟩
  funext b
  simp [hr, hre hp]

theorem Pulling.refcount_lt (hp : Pulling S rounds s s') (h : Inv S s)
    (hl : CountsOpen s) (b : Addr) :
    (s'.items b).refcount + 1 < 2 ^ 16 := by
  have := Quiet.refcount_le h hp.toQuiet hp.refs hp.bumps b
  have := hl b
  omega

theorem doItemAllocPull_spec (id tries : ℕ) (rounds : ℕ → Round Addr) (h : Inv S s)
    (hl : CountsOpen s) :
    ∃ s1, Pulling S rounds s s1 ∧
      (doItemAllocPull S id rounds tries s = (s1, none) ∨
        ∃ a, s1.Slabbed a ∧ doItemAllocPull S id rounds tries s = (slabTake s1 a, some a)) := by
  induction tries generalizing s with
  | zero => exact ⟨s, .refl h rounds, .inl rfl⟩
  | succ tries ih =>
    -- the pull that comes first when the LRU is not segmented
    obtain ⟨s1, hs1, hp1⟩ : ∃ s1, (if S.lruSegmented then s
        else (lruPullTail S s { id := id, curLru := .cold } (rounds tries).trylock).1) = s1 ∧
        Pulling S rounds s s1 := by
      split_ifs
      · exact ⟨_, rfl, .refl h rounds⟩
      · exact ⟨_, rfl, .pull h hl rounds tries rfl⟩
    have hl1 := hp1.refcount_lt h hl
    simp only [doItemAllocPull, hs1]
    cases hs : slabsAlloc s1 (rounds tries).slab with
    | some r =>
      refine ⟨s1, hp1, .inr ⟨r.2, ?_⟩⟩
      unfold slabsAlloc at hs
      split at hs
      · cases hs
      split_ifs at hs with ha
      cases hs
      exact ⟨ha, rfl⟩
    | none =>
      have hp2 := Pulling.pull hp1.inv hl1 rounds tries
        (p := { id := id, curLru := .cold, evict := true }) rfl
      rcases hp : lruPullTail S s1 { id := id, curLru := .cold, evict := true }
        (rounds tries).trylock with ⟨s2, removed, ret⟩
      rw [hp] at hp2
      have hl2 := hp2.refcount_lt hp1.inv hl1
      have hp12 := hp1.trans hp2
      simp only
      split_ifs
      · have hp3 := Pulling.pull hp2.inv hl2 rounds tries (p := { id := id, curLru := .hot }) rfl
        obtain ⟨s4, hp4, hr⟩ := ih hp3.inv (hp3.refcount_lt hp2.inv hl2)
        exact ⟨s4, hp12.trans (hp3.trans hp4), hr⟩
      · exact ⟨s2, hp12, .inl rfl⟩
      · obtain ⟨s4, hp4, hr⟩ := ih hp2.inv hl2
        exact ⟨s4, hp12.trans hp4, hr⟩

/-- The test of `do_item_alloc` for an item that is kept in chunks (line 284). -/
def largeItem (S : Settings) (key : Bytes) (flags nbytes : ℕ) : Bool :=
  decide (48 + (key.length + 1) + (if flags = 0 then 0 else 4) + nbytes +
    (if S.useCas then 8 else 0) > S.slabChunkSizeMax)

/-- The state `s'` has a new item `a` in memory that was free in `s1`. -/
structure Allocated (S : Settings) (s1 s' : Store Addr) (a : Addr) (key : Bytes)
    (flags exptime nbytes : ℕ) : Prop where
  inv : Inv S s'
  slabbed : s1.Slabbed a
  items : ∀ b, b ≠ a → s'.items b = s1.items b
  item : ∃ id, (s'.items a).content =
    (itemInit S s1 key flags exptime nbytes id (largeItem S key flags nbytes)
      { s1.items a with flags := { (s1.items a).flags with slabbed := false } }).content
  linked : ¬s'.Linked a
  refcount : (s'.items a).refcount = 1
  refs : ∀ b, s'.refs b = s1.refs b + if b = a then 1 else 0
  bumps : s'.bumps = s1.bumps
  casId : s'.casId = s1.casId
  clock : s'.clock = s1.clock

theorem Inv.of_slabbed (h : Inv S s) (ha : s.Slabbed a) :
    ¬s.Linked a ∧ s.refs a = 0 ∧ s.bumps.count a = 0 := by
  have hz := (h.slabbed a).mp ha
  rw [Store.holders] at hz
  refine ⟨fun hl => ?_, by omega, by omega⟩
  rw [if_pos hl] at hz
  omega

omit [Fintype Addr] in
theorem items_allocated (init : Item → Item) (b : Addr) :
    ((slabTake s a).modify a init).items b =
      if b = a then
        init { s.items a with refcount := 1, flags := { (s.items a).flags with slabbed := false } }
      else s.items b := by
  rw [items_modify]
  have ht : ∀ c, (slabTake s a).items c =
      if c = a then
        { s.items a with refcount := 1, flags := { (s.items a).flags with slabbed := false } }
      else s.items c := fun c => by
    show (s.modify a fun it =>
      { it with refcount := 1, flags := { it.flags with slabbed := false } }).items c = _
    exact items_modify _ c
  split_ifs with hb
  · rw [ht, if_pos rfl]
  · rw [ht, if_neg hb]

theorem Allocated.of_slab (h : Inv S s) (ha : s.Slabbed a) (key : Bytes)
    (flags exptime nbytes id : ℕ) :
    Allocated S s
      ((slabTake s a).modify a
        (itemInit S (slabTake s a) key flags exptime nbytes id (largeItem S key flags nbytes)))
      a key flags exptime nbytes := by
  obtain ⟨hl, hr, hc⟩ := h.of_slabbed ha
  set init := itemInit S (slabTake s a) key flags exptime nbytes id
    (largeItem S key flags nbytes) with hin
  set s' := (slabTake s a).modify a init with hs'
  have hi : ∀ b, s'.items b = _ := items_allocated init
  have hli : ∀ b, s'.Linked b ↔ s.Linked b := by
    intro b
    rw [Store.Linked, hi]
    split_ifs with hb
    · rw [hb]
      exact Iff.rfl
    · exact Iff.rfl
  have hr' : ∀ b, s'.refs b = s.refs b + if b = a then 1 else 0 := fun b => refs_noteRef
  have hh : ∀ b, s'.holders b = s.holders b + if b = a then 1 else 0 := by
    intro b
    simp only [Store.holders, hli, hr']
    show _ + s.bumps.count b + _ = _
    omega
  have hz : s.holders a = 0 := (h.slabbed a).mp ha
  refine ⟨⟨?_, ?_, ?_⟩, ha, fun b hb => by rw [hi, if_neg hb], ⟨id, ?_⟩,
    (hli a).not.mpr hl, by rw [hi, if_pos rfl]; rfl, hr', rfl, rfl, rfl⟩
  · refine h.toIndexed.congr hli (fun b hb => ?_) rfl rfl
    have hba : b ≠ a := by
      rintro rfl
      exact hl hb
    simp only [Store.key, hi, if_neg hba, and_self]
  · refine ⟨fun b => ?_, fun b => ?_, fun b => ?_, h.freed⟩
    · rw [hh, hi]
      split_ifs with hb
      · rw [hb, hz]
        rfl
      · exact h.refcount b
    · rw [hi]
      split_ifs with hb
      · show 1 < 2 ^ 16
        decide
      · exact h.lt b
    · rw [hh, Store.Slabbed, hi]
      split_ifs with hb
      · simp [hin, itemInit]
      · exact h.slabbed b
  · have hf := congrArg ItFlags.cas (h.wiped a ha)
    refine h.toTidy.of_items hi (.inr (.inr ⟨rfl, ?_⟩))
    show ((s.items a).flags.cas || S.useCas) = S.useCas
    rw [show (s.items a).flags.cas = false from hf, Bool.false_or]
  · rw [hi, if_pos rfl]
    rfl

theorem itemFromSlab_spec (h : Inv S s) (hl : CountsOpen s)
    (key : Bytes) (flags exptime nbytes id : ℕ) {chunked : Bool}
    (hc : largeItem S key flags nbytes = chunked) (pullId : ℕ) (rounds : ℕ → Round Addr) :
    ∃ s1, Pulling S rounds s s1 ∧
      (itemFromSlab S s key flags exptime nbytes id chunked pullId rounds = (s1, none) ∨
        ∃ s' a, itemFromSlab S s key flags exptime nbytes id chunked pullId rounds = (s', some a) ∧
          Allocated S s1 s' a key flags exptime nbytes) := by
  obtain ⟨s1, hp, hr | ⟨a, ha, hr⟩⟩ := doItemAllocPull_spec pullId 10 rounds h hl
  · exact ⟨s1, hp, .inl (by simp only [itemFromSlab, hr])⟩
  refine ⟨s1, hp, .inr ⟨_, a, by simp only [itemFromSlab, hr]; rfl, ?_⟩⟩
  rw [← hc]
  exact .of_slab hp.inv ha key flags exptime nbytes id

theorem doItemAlloc_spec (h : Inv S s) (hlt : CountsOpen s)
    (key : Bytes) (flags exptime nbytes : ℕ) (rounds : ℕ → Round Addr) :
    ∃ s1, Pulling S rounds s s1 ∧
      (doItemAlloc S s key flags exptime nbytes rounds = (s1, none) ∨
        ∃ s' a, doItemAlloc S s key flags exptime nbytes rounds = (s', some a) ∧
          Allocated S s1 s' a key flags exptime nbytes) := by
  unfold doItemAlloc
  extract_lets nsuffix cas ntotal id ht
  by_cases hn : nbytes < 2 ∨ id = 0
  · exact ⟨s, .refl h rounds, .inl (if_pos hn)⟩
  rw [if_neg hn]
  by_cases hl : ntotal > S.slabChunkSizeMax
  · rw [if_pos hl]
    exact itemFromSlab_spec h hlt key flags exptime nbytes id (decide_eq_true hl)
      (S.slabsClsid ht) rounds
  · rw [if_neg hl]
    exact itemFromSlab_spec h hlt key flags exptime nbytes id (decide_eq_false hl) id rounds

end Memcached.Items
