import Memcached.Items.Mutations

/-!
# Changes to items in place

Operations that work on a linked item without putting another one in its place are
described by `Edits`: touch, increments that fit, and invalidation by meta delete.

Results:
* `processDelete_of_hit`, `processMdelete_of_hit`: delete and meta delete
* `doItemTouch_of_hit`, `doAddDelta_outcome`: touch and increments
* `lruMaintainerBump_quiet`: a bump changes no item but its access time
-/

namespace Memcached.Items

open Lib Assoc

variable {Addr : Type*} [DecidableEq Addr] [Fintype Addr] {S : Settings}
  {s s' s'' s1 : Store Addr} {a b new old : Addr} {L L' T : Addr → Prop}

/-! ## Changes in place -/

/-- The content of the linked item `a` becomes `c`. -/
structure Edits (S : Settings) (s s' : Store Addr) (a : Addr) (c : Item) (casId : ℕ) : Prop where
  inv : Inv S s'
  self : s.Linked a
  linked : ∀ b, s'.Linked b ↔ s.Linked b
  item : (s'.items a).content = c
  key : c.key = s.key a
  time : (s'.items a).time = (s.items a).time ∨ (s'.items a).time = s.currentTime
  others : ∀ b, b ≠ a → s.Linked b → (s'.items b).content = (s.items b).content ∧
    (s'.items b).time = (s.items b).time
  casId : s'.casId = casId
  clock : s'.clock = s.clock

theorem Edits.of_items {it : Item} (hin : Inv S s') (hl : s.Linked a)
    (hi : ∀ b, s'.items b = if b = a then it else s.items b)
    (hh : it.header = (s.items a).header) (ht : it.time = (s.items a).time)
    (hc : s'.clock = s.clock) : Edits S s s' a it.content s'.casId where
  inv := hin
  self := hl
  linked := fun b => Eq.congr_left
    (proj_of_items (fun it => it.flags.linked) hi (congrArg Header.linked hh) b)
  item := by rw [hi, if_pos rfl]
  key := congrArg Header.key hh
  time := .inl (by rw [hi, if_pos rfl, ht])
  others := fun b hn _ => by
    rw [hi, if_neg hn]
    exact ⟨rfl, rfl⟩
  casId := rfl
  clock := hc

theorem Edits.between {c : Item} {n : ℕ} {T' : Addr → Prop} {s2 : Store Addr}
    (hq : Quiet S nothing T s s1) (he : Edits S s1 s2 a c n) (hq' : Quiet S nothing T' s2 s')
    (hT : ∀ b, T b → b = a) (hT' : ∀ b, T' b → b = a) : Edits S s s' a c n := by
  have hno := currentTime_of_clock hq.clock
  have hn' := currentTime_of_clock he.clock
  have hl : ∀ b, s1.Linked b ↔ s.Linked b :=
    fun b => ⟨hq.linked b, fun hb => (hq.lost b hb).resolve_right id⟩
  have hl' : ∀ b, s'.Linked b ↔ s2.Linked b :=
    fun b => ⟨hq'.linked b, fun hb => (hq'.lost b hb).resolve_right id⟩
  have ha : ∀ b, s'.Linked b ↔ s.Linked b :=
    fun b => (hl' b).trans ((he.linked b).trans (hl b))
  have hse : s.Linked a := (hl a).mp he.self
  have hs : ∀ b, s.Linked b → ¬s1.Slabbed b ∧ ¬s'.Slabbed b := fun b hb =>
    ⟨hq.inv.not_slabbed_of_linked ((hl b).mpr hb), hq'.inv.not_slabbed_of_linked ((ha b).mpr hb)⟩
  refine ⟨hq'.inv, hse, ha, ?_, ?_, ?_, fun b hn hb => ?_, hq'.casId.trans he.casId,
    hq'.clock.trans (he.clock.trans hq.clock)⟩
  · rw [hq'.content a (hs a hse).2, he.item]
  · rw [he.key]
    exact Item.key_eq (hq.content a (hs a hse).1)
  · obtain h3 | ⟨-, h3⟩ := hq'.time a (hs a hse).2
    · obtain h2 | h2 := he.time
      · obtain h1 | ⟨-, h1⟩ := hq.time a (hs a hse).1
        · exact .inl (h3.trans (h2.trans h1))
        · exact .inr (h3.trans (h2.trans h1))
      · exact .inr (h3.trans (h2.trans hno))
    · exact .inr (h3.trans (hn'.trans hno))
  · obtain ⟨hc2, ht2⟩ := he.others b hn ((hl b).mpr hb)
    have ht1 := (hq.time b (hs b hb).1).resolve_right fun ht => hn (hT b ht.1)
    have ht3 := (hq'.time b (hs b hb).2).resolve_right fun ht => hn (hT' b ht.1)
    exact ⟨(hq'.content b (hs b hb).2).trans (hc2.trans (hq.content b (hs b hb).1)),
      ht3.trans (ht2.trans ht1)⟩

omit [Fintype Addr] in
theorem items_setExptime (exptime : ℕ) (b : Addr) :
    (setExptime s a exptime).items b =
      if b = a then { s.items a with exptime := exptime } else s.items b :=
  items_modify _ b

variable {key : Bytes}

theorem doItemTouch_of_hit (h : Inv S s) (hlt : CountsLow s)
    (hh : s.Hit key a) (exptime : ℕ) (room : Bool) :
    ∃ s', doItemTouch S s key exptime room = (s', some a) ∧
      Edits S s s' a { (s.items a).content with exptime := exptime } s.casId := by
  obtain ⟨s1, hg, hq, hre, -⟩ := doItemGet_of_hit h hlt hh true room
  have hr : 0 < s1.refs a := by
    rw [hre, if_pos rfl]
    omega
  have hl1 : s1.Linked a := (hq.lost a hh.linked).resolve_right id
  have hi : Inv S (setExptime s1 a exptime) :=
    hq.inv.of_held hr (items_setExptime exptime) rfl rfl (fun _ => rfl) ⟨rfl, rfl, rfl, rfl, rfl⟩
  have he := Edits.of_items hi hl1 (items_setExptime exptime) rfl rfl rfl
  refine ⟨setExptime s1 a exptime, by simp only [doItemTouch, hg], ?_⟩
  have hed := Edits.between hq he (Quiet.refl hi) (fun b hb => hb.2) (fun b hb => hb.elim)
  have hc : ({ s1.items a with exptime := exptime } : Item).content =
      { (s.items a).content with exptime := exptime } := by
    rw [← hq.content a (hq.inv.not_slabbed_of_refs hr)]
    rfl
  rw [hc, show (setExptime s1 a exptime).casId = s.casId from hq.casId] at hed
  exact hed

theorem doItemTouch_of_missing (h : Inv S s) (hlt : CountsLow s)
    (hm : s.Missing key) (exptime : ℕ) (room : Bool) :
    ∃ s', doItemTouch S s key exptime room = (s', none) ∧
      Published S (fun b => s.key b = key ∧ s.Dead b) s s' := by
  obtain ⟨s', hg, hq, -⟩ := doItemGet_of_missing h hlt hm true room
  exact ⟨s', by simp only [doItemTouch, hg], hq.published⟩

/-! ## `do_add_delta` -/

/-- The value after an increment in place. -/
def paddedData (it : Item) (buf : Bytes) : Bytes :=
  buf ++ List.replicate (it.nbytes - buf.length - 2) 32 ++ it.data.drop (it.nbytes - 2)

/-- The CAS counter after an item got a new CAS value. -/
def casIdAfter (S : Settings) (s : Store Addr) (it : Item) : ℕ :=
  if it.flags.cas ∧ S.useCas then s.nextCasId else s.casId

theorem length_paddedData {it : Item} {buf : Bytes} (h : buf.length + 2 ≤ it.nbytes) :
    (paddedData it buf).length = it.data.length := by
  have hn : it.nbytes = it.data.length := rfl
  simp only [paddedData, List.length_append, List.length_replicate, List.length_drop]
  omega

/-- The held item gets the CAS value that it would have got before. -/
theorem Holding.freshCas_eq (hh : Holding S s s1 a) : freshCas S s1 a = freshCas S s a ∧
    (if (s1.items a).flags.cas ∧ S.useCas then s1.nextCasId else s1.casId) =
      casIdAfter S s (s.items a) := by
  have hc := hh.content a (hh.inv.not_slabbed_of_refs hh.refs_pos)
  have hca : (s1.items a).flags.cas = (s.items a).flags.cas :=
    Item.proj_eq (fun it => it.flags.cas) hc
  have hn : s1.nextCasId = s.nextCasId := by rw [Store.nextCasId, hh.casId]; rfl
  rw [freshCas, freshCas, hca, hn, Item.proj_eq Item.casUnique hc, hh.casId]
  exact ⟨rfl, rfl⟩

theorem deltaInPlace_edits (hh : Holding S s s1 a) (buf : Bytes)
    (hf : buf.length + 2 ≤ (s.items a).nbytes) :
    Edits S s (deltaInPlace S s1 a buf) a
        { (s.items a).content with
          data := paddedData (s.items a) buf
          casUnique := freshCas S s a }
        (casIdAfter S s (s.items a)) ∧
      (deltaInPlace S s1 a buf).refs = s1.refs := by
  have hc := hh.content a (hh.inv.not_slabbed_of_refs hh.refs_pos)
  have hi : ∀ b, (setData (setFreshCas S s1 a) a (paddedData (s1.items a) buf)).items b =
      if b = a then
        { s1.items a with data := paddedData (s1.items a) buf, casUnique := freshCas S s1 a }
      else s1.items b := by
    intro b
    simp only [items_setData, items_setFreshCas, if_true]
    split_ifs <;> rfl
  have hin : Inv S (setData (setFreshCas S s1 a) a (paddedData (s1.items a) buf)) :=
    hh.inv.of_held hh.refs_pos hi rfl rfl (fun _ => by
      rw [← Item.proj_eq Item.nbytes hc] at hf
      simp only [Item.bytes, Item.ntotal, Item.lruBytes, Item.nbytes,
        length_paddedData hf]) ⟨rfl, rfl, rfl, rfl, rfl⟩
  have he := Edits.of_items hin hh.linked_self hi rfl rfl rfl
  have hed := Edits.between hh.toQuiet he (doItemUpdate_quiet hin (a := a))
    (fun b hb => hb.elim) (fun b hb => hb)
  have hd : paddedData (s1.items a) buf = paddedData (s.items a) buf := by
    rw [paddedData, paddedData, Item.proj_eq Item.nbytes hc, Item.proj_eq Item.data hc]
  have hite : ({ s1.items a with
      data := paddedData (s1.items a) buf, casUnique := freshCas S s1 a } : Item).content =
      { (s.items a).content with
        data := paddedData (s.items a) buf, casUnique := freshCas S s a } := by
    rw [hd, hh.freshCas_eq.1, ← hc]
    rfl
  have hca : (setData (setFreshCas S s1 a) a (paddedData (s1.items a) buf)).casId =
      casIdAfter S s (s.items a) := hh.freshCas_eq.2
  rw [hite, hca] at hed
  exact ⟨hed, refs_doItemUpdate⟩

omit [Fintype Addr] in
theorem items_setCas (cas : ℕ) (b : Addr) :
    (setCas s a cas).items b =
      if b = a then
        if (s.items a).flags.cas then { s.items a with casUnique := cas } else s.items a
      else s.items b :=
  items_modify _ b

theorem setCas_inv (h : Inv S s) (hr : 0 < s.refs a) (cas : ℕ) : Inv S (setCas s a cas) :=
  h.of_held hr (items_setCas cas) (by split_ifs <;> rfl) (by split_ifs <;> rfl)
    (fun _ => by split_ifs <;> rfl) ⟨rfl, rfl, rfl, rfl, rfl⟩

theorem setCas_published (h : Inv S s) (hr : 0 < s.refs a) (hl : ¬s.Linked a) (cas : ℕ) :
    Published S nothing s (setCas s a cas) :=
  .of_items (setCas_inv h hr cas) (items_setCas cas) hl (by split_ifs <;> rfl) rfl rfl

/-- An increment put the new item `it'` at `new` in place of the one at `a`. -/
structure DeltaReplaced (S : Settings) (s s' : Store Addr) (a new : Addr) (it' : Item)
    (buf : Bytes) : Prop where
  ne : a ≠ new
  stores : Stores S (fun b => s.key b ≠ s.key a) s s' new it'
  made : MadeFrom S it' (s.items a) (buf ++ ascii "\r\n")
  unmarked : it'.Unmarked
  held : 0 < s'.refs a
  cas : (s'.items a).getCas = (s'.items new).getCas

theorem getCas_setCas {cas : ℕ} (h : Inv S s) (ha : ¬s.Slabbed a)
    (hc : S.useCas = false → cas = 0) :
    ((setCas s a cas).items a).getCas = cas := by
  have hf := h.cas a ha
  rw [items_setCas, if_pos rfl]
  cases hu : S.useCas with
  | true => simp [Item.getCas, hf, hu]
  | false => simp [Item.getCas, hf, hu, hc hu]

theorem deltaReplace_spec (hh : Holding S s s1 a) (buf : Bytes) (rounds : ℕ → Round Addr) :
    (∃ s', deltaReplace S s1 a buf rounds = (s', false) ∧
      Published S (fun b => s.key b ≠ s.key a) s s') ∨
    (∃ s' new it', deltaReplace S s1 a buf rounds = (s', true) ∧
      DeltaReplaced S s s' a new it' buf ∧ (s'.items a).exptime = (s1.items a).exptime) := by
  have hc := hh.content a (hh.inv.not_slabbed_of_refs hh.refs_pos)
  obtain ⟨s2, hr, hal | ⟨s3, new, hal, ha⟩⟩ :=
    hh.alloc (s1.items a).flagsConv (s1.items a).exptime (buf.length + 2) rounds
  · refine .inl ⟨_, ?_, hr.release⟩
    simp only [Store.key] at hal
    simp only [deltaReplace, hal]
  have hn := hr.newItem ha
  have hne : a ≠ new := by
    rintro rfl
    exact hn.linked_new hn.linked_old
  have hst := hn.replace (buf ++ ascii "\r\n")
  set s4 := doItemReplace S (setData s3 new (buf ++ ascii "\r\n")) a new with hs4
  have hr4 : s4.refs = s3.refs := refs_doItemReplace
  have hhe : 0 < s4.refs a := by
    rw [hr4]
    exact hn.refs_old
  -- the old item is not linked any more, so its CAS value is nobody's business
  have hl4 : ¬s4.Linked a := by
    intro hl
    have hkey := (hst.others a hne hl).2.1
    refine hkey ?_
    show s.key a = s3.key new
    rw [hn.key, hn.key_eq hn.linked_old]
  set cas := if S.useCas then (s4.items new).getCas else 0 with hca
  have hse := setCas_published hst.inv hhe hl4 cas
  have hre := releaseRef_quiet (a := new) hse.inv (by
    show 0 < s4.refs new
    rw [hr4]
    exact hn.refs_new)
  have hs' := (hst.then_published hse).then_published hre.published
  have hh' : 0 < (releaseRef (setCas s4 a cas) new).refs a := by
    rw [refs_releaseRef, if_neg hne]
    exact hhe
  refine .inr ⟨releaseRef (setCas s4 a cas) new, new, _, ?_,
    ⟨hne, hs', ?_, ⟨?_, ?_, ?_⟩, hh', ?_⟩, ?_⟩
  · simp only [Store.key] at hal
    simp only [deltaReplace, hal]
    rfl
  · obtain ⟨hk, hf, he, -⟩ := ha.item_eq hr.inv
    refine ⟨?_, ?_, ?_, rfl, hn.inv.cas new (hn.inv.not_slabbed_of_refs hn.refs_new)⟩
    · exact hk.trans (Item.key_eq hc)
    · exact hf.trans (Item.proj_eq Item.flagsConv hc)
    · exact he.trans (Item.proj_eq Item.exptime hc)
  · exact (ha.unmarked hr.inv).stale
  · exact (ha.unmarked hr.inv).tokenSent
  · exact (ha.unmarked hr.inv).keyBinary
  · have hnew : cas = (s4.items new).getCas := by
      rw [hca]
      cases hu : S.useCas with
      | true => rfl
      | false =>
        simp [Item.getCas, hst.inv.cas new (hst.inv.not_slabbed_of_linked hst.linked), hu]
    have hke : ∀ b, ¬(releaseRef (setCas s4 a cas) new).Slabbed b →
        ((releaseRef (setCas s4 a cas) new).items b).getCas =
          ((setCas s4 a cas).items b).getCas :=
      fun b hb => Item.proj_eq Item.getCas (hre.content b hb)
    rw [hke a (hs'.inv.not_slabbed_of_refs hh'),
      hke new (hs'.inv.not_slabbed_of_linked hs'.linked),
      getCas_setCas hst.inv (hst.inv.not_slabbed_of_refs hhe) fun hu => by simp [hca, hu],
      items_setCas, if_neg hne.symm]
    exact hnew
  · -- the old item is taken off its list, and nothing but its CAS value is written
    have hd := setData_published hn.inv hn.refs_new hn.linked_new (buf ++ ascii "\r\n")
    have hq := doItemUnlink_quiet (a := a) hd.inv
    have hs : ¬(doItemUnlink S (setData s3 new (buf ++ ascii "\r\n")) a).Slabbed a := by
      apply hq.inv.not_slabbed_of_refs
      rw [refs_doItemUnlink]
      exact hn.refs_old
    have ho : (s4.items a).exptime = (s1.items a).exptime := by
      rw [hs4, doItemReplace, items_doItemLink, if_neg hne,
        Item.proj_eq Item.exptime (hq.content a hs), items_setData, if_neg hne]
      exact Item.proj_eq Item.exptime (hn.content a hh.refs_pos)
    rw [Item.proj_eq Item.exptime (hre.content a (hs'.inv.not_slabbed_of_refs hh')),
      items_setCas, if_pos rfl]
    split_ifs
    · exact ho
    · exact ho

theorem deltaDone_quiet (h : Inv S s) (hr : 0 < s.refs a) (buf : Bytes) (keep : Bool) :
    (deltaDone s a buf keep).2.result = .ok ∧
      Quiet S nothing nothing s (deltaDone s a buf keep).1 := by
  simp only [deltaDone]
  split_ifs
  · exact ⟨rfl, .refl h⟩
  · exact ⟨rfl, releaseRef_quiet h hr⟩

/-- The new number is written over the old one: there is room and only the link holds the
item. -/
def FitsInPlace (it : Item) (buf : Bytes) : Prop := buf.length + 2 ≤ it.nbytes ∧ it.refcount = 1

instance (it : Item) (buf : Bytes) : Decidable (FitsInPlace it buf) :=
  inferInstanceAs (Decidable (_ ∧ _))

/-- A caller of `do_add_delta` that wants the item gets it, with a reference. -/
def KeepsItem (s' : Store Addr) (a : Addr) (keep : Bool) (reply : DeltaReply Addr) : Prop :=
  keep = true → reply.itRet = some a ∧ 0 < s'.refs a

/-- What `do_add_delta` does to the live item of a key: nothing, nothing for want of memory,
a change in place with a new CAS value, or a new item. -/
inductive DeltaOutcome (S : Settings) (s s' : Store Addr) (a : Addr) (incr : Bool) (delta : ℕ)
    (keep : Bool) (reply : DeltaReply Addr) : Prop where
  | refused (hres : reply.result = .nonNumeric ∨ reply.result = .casMismatch)
      (h : Quiet S nothing nothing s s')
  | noMemory (hres : reply.result = .eom) (h : Published S (fun b => s.key b ≠ s.key a) s s')
  | edited (buf : Bytes) (hres : reply.result = .ok)
      (h : Edits S s s' a
        { (s.items a).content with
          data := paddedData (s.items a) buf
          casUnique := freshCas S s a }
        (casIdAfter S s (s.items a)))
      (hkeep : KeepsItem s' a keep reply)
  | replaced (value : ℕ) (new : Addr) (it' : Item) (hres : reply.result = .ok)
      (hvalue : Util.safeStrtoull (s.items a).data = some value)
      (hfits : ¬FitsInPlace (s.items a) (Util.itoaU64 (applyDelta value incr delta)))
      (hne : a ≠ new) (h : Stores S (fun b => s.key b ≠ s.key a) s s' new it')
      (hmade : MadeFrom S it' (s.items a)
        (Util.itoaU64 (applyDelta value incr delta) ++ ascii "\r\n"))
      (hunmarked : it'.Unmarked) (hkeep : KeepsItem s' a keep reply)

/-- `do_add_delta` refuses the item: its value is empty, not in one piece or no number, or it
has another CAS value than the one that is asked for. -/
def Item.NoDelta (it : Item) (cas : ℕ) : Prop :=
  (it.nbytes ≤ 2 ∨ it.flags.chunked ∨ it.flags.hdr) ∨ (cas ≠ 0 ∧ it.getCas ≠ cas) ∨
    Util.safeStrtoull it.data = none

section

omit [Fintype Addr]

theorem result_deltaDone (s : Store Addr) (a : Addr) (buf : Bytes) (keep : Bool) :
    (deltaDone s a buf keep).2.result = .ok := by
  cases keep <;> rfl

theorem deltaDone_keeps (hr : 0 < s.refs a) (buf : Bytes) (keep : Bool) :
    KeepsItem (deltaDone s a buf keep).1 a keep (deltaDone s a buf keep).2 := by
  rintro rfl
  exact ⟨rfl, hr⟩

theorem takeRef_proj {β : Type} (f : Item → β)
    (hf : f { s.items a with refcount := ((s.items a).refcount + 1) % 2 ^ 16 } = f (s.items a)) :
    f ((takeRef s a).items a) = f (s.items a) := by
  rw [items_takeRef, if_pos rfl]
  exact hf

end

section

variable (h : Inv S s) (hlt : CountsLow s)
include h hlt

theorem takeRef_linked (hl : s.Linked a) :
    ((takeRef s a).items a).refcount = (s.items a).refcount + 1 ∧
      (s.items a).refcount + 1 > 1 := by
  have hlo := hlt a
  constructor
  · rw [items_takeRef, if_pos rfl]
    exact Nat.mod_eq_of_lt (by omega)
  · rw [h.refcount, Store.holders, if_pos hl]
    omega

theorem doAddDelta_outcome (hhi : s.Hit key a) (incr : Bool) (delta cas : ℕ) (keep : Bool)
    (rounds : ℕ → Round Addr) :
    ∃ s' reply, doAddDelta S s key incr delta cas keep rounds = (s', reply) ∧
      DeltaOutcome S s s' a incr delta keep reply ∧
      (keep = true → reply.result = .ok → (s'.items a).exptime = (s.items a).exptime) := by
  have hg := doItemGet_peek h hlt hhi
  have hh := holding_takeRef h hlt hhi.linked
  have hq : Quiet S nothing nothing s (releaseRef (takeRef s a) a) := hh.release_quiet
  obtain ⟨hon, hpo⟩ := takeRef_linked h hlt hhi.linked
  simp only [doAddDelta, doAddDeltaIn, List.append_nil, hg, takeRef_proj Item.nbytes rfl,
    takeRef_proj Item.flags rfl, takeRef_proj Item.getCas rfl, takeRef_proj Item.data rfl, hon]
  split_ifs with hn hca
  · exact ⟨_, _, rfl, .refused (.inl rfl) hq, nofun⟩
  · exact ⟨_, _, rfl, .refused (.inr rfl) hq, nofun⟩
  cases hv : Util.safeStrtoull (s.items a).data with
  | none => exact ⟨_, _, rfl, .refused (.inl rfl) hq, nofun⟩
  | some value =>
    simp only
    set buf := Util.itoaU64 (applyDelta value incr delta) with hb
    split_ifs with hpl
    · obtain ⟨he, hre⟩ := deltaInPlace_edits hh buf hpl.1
      have hr : 0 < (deltaInPlace S (takeRef s a) a buf).refs a := by
        rw [hre]
        exact hh.refs_pos
      obtain ⟨ho, hd⟩ := deltaDone_quiet (a := a) he.inv hr buf keep
      have ha := Edits.between (Quiet.refl h) he hd (fun _ => False.elim)
        (fun _ => False.elim)
      have hc : _ = Item.content { s.items a with
        data := paddedData (s.items a) buf, casUnique := freshCas S s a } := ha.item
      exact ⟨_, _, rfl, .edited buf ho ha (deltaDone_keeps hr buf keep),
        fun _ _ => (Item.proj_eq Item.exptime hc :)⟩
    · obtain ⟨s', hrep, hp⟩ | ⟨s', new, it', hrep, hr, hexp⟩ := deltaReplace_spec hh buf rounds
      · rw [hrep]
        exact ⟨_, _, rfl, .noMemory rfl hp, nofun⟩
      rw [hrep]
      obtain ⟨ho, hd⟩ := deltaDone_quiet hr.stores.inv hr.held buf keep
      refine ⟨_, _, rfl, .replaced value new it' ho hv
        (fun hf => hpl ⟨hf.1, by have := hf.2; omega⟩) hr.ne
        (hr.stores.then_published hd.published) hr.made hr.unmarked
        (deltaDone_keeps hr.held buf keep), ?_⟩
      rintro rfl -
      exact hexp.trans (takeRef_proj Item.exptime rfl)

theorem doAddDelta_refused_iff (hh : s.Hit key a) (incr : Bool) (delta cas : ℕ) (keep : Bool)
    (rounds : ℕ → Round Addr) :
    (s.items a).NoDelta cas ↔
      (doAddDelta S s key incr delta cas keep rounds).2.result = .nonNumeric ∨
        (doAddDelta S s key incr delta cas keep rounds).2.result = .casMismatch := by
  obtain ⟨hon, hpo⟩ := takeRef_linked h hlt hh.linked
  simp only [doAddDelta, doAddDeltaIn, List.append_nil, doItemGet_peek h hlt hh,
    takeRef_proj Item.nbytes rfl, takeRef_proj Item.flags rfl, takeRef_proj Item.getCas rfl,
    takeRef_proj Item.data rfl, hon]
  by_cases hn : (s.items a).nbytes ≤ 2 ∨ (s.items a).flags.chunked ∨ (s.items a).flags.hdr
  · rw [if_pos hn]
    exact iff_of_true (.inl hn) (.inl rfl)
  rw [if_neg hn]
  by_cases hc : cas ≠ 0 ∧ (s.items a).getCas ≠ cas
  · rw [if_pos hc]
    exact iff_of_true (.inr (.inl hc)) (.inr rfl)
  rw [if_neg hc]
  cases hv : Util.safeStrtoull (s.items a).data with
  | none => exact iff_of_true (.inr (.inr hv)) (.inl rfl)
  | some value =>
    have hd : ¬(s.items a).NoDelta cas := by
      rintro (h | h | h)
      · exact hn h
      · exact hc h
      · rw [hv] at h
        cases h
    refine iff_of_false hd ?_
    simp only
    split_ifs
    · simp [result_deltaDone]
    · rcases deltaReplace S (takeRef s a) a _ rounds with ⟨s', _ | _⟩ <;>
        simp [result_deltaDone]

theorem doAddDelta_of_hit (hh : s.Hit key a) (incr : Bool) (delta cas : ℕ) (keep : Bool)
    (rounds : ℕ → Round Addr) :
    ∃ s' reply, doAddDelta S s key incr delta cas keep rounds = (s', reply) ∧
      ((reply.result ≠ .ok ∧ Published S (fun b => s.key b ≠ s.key a) s s') ∨
      (reply.result = .ok ∧ ∃ buf, (Edits S s s' a
            { (s.items a).content with
              data := paddedData (s.items a) buf
              casUnique := freshCas S s a }
            (casIdAfter S s (s.items a)) ∨
          ∃ new it', Stores S (fun b => s.key b ≠ s.key a) s s' new it' ∧
            MadeFrom S it' (s.items a) (buf ++ ascii "\r\n")))) := by
  obtain ⟨s', reply, heq, ho, -⟩ := doAddDelta_outcome h hlt hh incr delta cas keep rounds
  refine ⟨s', reply, heq, ?_⟩
  cases ho with
  | refused hr hq =>
    refine .inl ⟨?_, hq.published.mono fun _ _ => False.elim⟩
    rcases hr with hr | hr <;> simp [hr]
  | noMemory hr hp => exact .inl ⟨by simp [hr], hp⟩
  | edited buf hr he _ => exact .inr ⟨hr, buf, .inl he⟩
  | replaced value new it' hr _ _ _ hs hm _ _ =>
    exact .inr ⟨hr, _, .inr ⟨new, it', hs, hm⟩⟩

theorem doAddDelta_of_missing (hm : s.Missing key) (incr : Bool) (delta cas : ℕ) (keep : Bool)
    (rounds : ℕ → Round Addr) :
    ∃ s' reply, doAddDelta S s key incr delta cas keep rounds = (s', reply) ∧
      reply.result = .itemNotFound ∧ Published S (fun b => s.key b = key ∧ s.Dead b) s s' := by
  obtain ⟨s', hg, hq, -⟩ := doItemGet_of_missing h hlt hm false false
  refine ⟨s', { result := .itemNotFound }, ?_, rfl, hq.published⟩
  simp only [doAddDelta, doAddDeltaIn, hg]

end

/-! ## Delete and meta delete -/

theorem processDelete_of_missing (h : Inv S s) (hlt : CountsLow s)
    (hm : s.Missing key) :
    ∃ s', processDelete S s key = (s', false) ∧
      Published S (fun b => s.key b = key ∧ s.Dead b) s s' := by
  obtain ⟨s', hg, hq, -⟩ := doItemGet_of_missing h hlt hm false false
  exact ⟨s', by simp only [processDelete, hg], hq.published⟩

theorem Holding.delete (hh : Holding S s s1 a) :
    Published S (· = a) s (releaseRef (doItemUnlink S s1 a) a) ∧
      ¬(releaseRef (doItemUnlink S s1 a) a).Linked a := by
  obtain ⟨hq, hg⟩ := unlink_release_quiet hh.inv hh.refs_pos
  exact ⟨(hh.toQuiet.of_nothing.append hq).published,
    fun hl => (hg a).elim (fun hn => hn hl) (fun hne => hne rfl)⟩

theorem processDelete_of_hit (h : Inv S s) (hlt : CountsLow s)
    (hh : s.Hit key a) :
    ∃ s', processDelete S s key = (s', true) ∧ (s'.refs = s.refs ∧ s'.bumps = s.bumps) ∧
      Published S (· = a) s s' ∧ ¬s'.Linked a := by
  have hg := doItemGet_peek h hlt hh
  refine ⟨_, by simp only [processDelete, hg], ⟨?_, ?_⟩,
    (holding_takeRef h hlt hh.linked).delete⟩
  · funext b
    rw [refs_releaseRef, refs_doItemUnlink, refs_takeRef]
    omega
  · exact bumps_doItemRemove.trans bumps_doItemUnlink

/-- The item that a meta delete with flag `I` leaves, but for its CAS value. -/
def invalidated (it : Item) (newTtl : Option ℕ) : Item :=
  { it with
    exptime := newTtl.getD it.exptime
    flags := { it.flags with stale := true, tokenSent := false } }

omit [Fintype Addr] in
theorem items_markStale (newTtl : Option ℕ) (b : Addr) :
    (markStale S s a newTtl).items b =
      if b = a then { invalidated (s.items a) newTtl with casUnique := freshCas S s a }
      else s.items b := by
  have hf : freshCas S (s.modify a (invalidated · newTtl)) a = freshCas S s a := by
    simp [freshCas, invalidated, Store.nextCasId, Store.modify]
  show (setFreshCas S (s.modify a (invalidated · newTtl)) a).items b = _
  rw [items_setFreshCas, hf]
  split_ifs with hb
  · rw [items_modify_self]
  · exact items_modify_of_ne hb _

theorem markStale_edits (hh : Holding S s s1 a) (newTtl : Option ℕ) :
    Edits S s (releaseRef (markStale S s1 a newTtl) a) a
      { (invalidated (s.items a) newTtl).content with casUnique := freshCas S s a }
      (casIdAfter S s (s.items a)) := by
  have hc := hh.content a (hh.inv.not_slabbed_of_refs hh.refs_pos)
  have hin : Inv S (markStale S s1 a newTtl) :=
    hh.inv.of_held hh.refs_pos (items_markStale newTtl) rfl rfl (fun _ => rfl)
      ⟨rfl, rfl, rfl, rfl, rfl⟩
  have he := Edits.of_items hin hh.linked_self (items_markStale newTtl) rfl rfl rfl
  have hed := Edits.between hh.toQuiet he (releaseRef_quiet (a := a) hin hh.refs_pos)
    (fun b hb => hb.elim) (fun b hb => hb.elim)
  have hi : (invalidated (s1.items a) newTtl).content =
      (invalidated (s.items a) newTtl).content := by
    show (invalidated (s1.items a).content newTtl).content = _
    rw [hc]
    rfl
  have hite : ({ invalidated (s1.items a) newTtl with casUnique := freshCas S s1 a } : Item).content
      = { (invalidated (s.items a) newTtl).content with casUnique := freshCas S s a } := by
    rw [← hi, hh.freshCas_eq.1]
    rfl
  have hca : (markStale S s1 a newTtl).casId = casIdAfter S s (s.items a) := by
    show (if ((s1.modify a (invalidated · newTtl)).items a).flags.cas ∧ S.useCas then
      s1.nextCasId else s1.casId) = _
    rw [items_modify_self]
    exact hh.freshCas_eq.2
  rw [hite, hca] at hed
  exact hed

theorem processMdelete_of_hit (h : Inv S s) (hlt : CountsLow s)
    (hhi : s.Hit key a) (cas : Option ℕ) (setStale : Bool) (newTtl : Option ℕ) :
    ∃ s' r, processMdelete S s key cas setStale newTtl = (s', r) ∧
      (Quiet S nothing nothing s s' ∨
        Edits S s s' a
          { (invalidated (s.items a) newTtl).content with casUnique := freshCas S s a }
          (casIdAfter S s (s.items a)) ∨
        Published S (· = a) s s' ∧ ¬s'.Linked a) := by
  have hg := doItemGet_peek h hlt hhi
  have hh := holding_takeRef h hlt hhi.linked
  simp only [processMdelete, hg]
  split_ifs with hc hs
  · exact ⟨_, _, rfl, .inl hh.release_quiet⟩
  · exact ⟨_, _, rfl, .inr (.inl (markStale_edits hh newTtl))⟩
  · exact ⟨_, _, rfl, .inr (.inr hh.delete)⟩

theorem processMdelete_of_missing (h : Inv S s) (hlt : CountsLow s)
    (hm : s.Missing key) (cas : Option ℕ) (setStale : Bool) (newTtl : Option ℕ) :
    ∃ s', processMdelete S s key cas setStale newTtl = (s', .notFound) ∧
      Published S (fun b => s.key b = key ∧ s.Dead b) s s' := by
  obtain ⟨s', hg, hq, -⟩ := doItemGet_of_missing h hlt hm false false
  exact ⟨s', by simp only [processMdelete, hg], hq.published⟩

/-! ## Bump buffers -/

theorem lruMaintainerBump_quiet (h : Inv S s) (ha : a ∈ s.bumps) :
    Quiet S nothing (· = a) s (lruMaintainerBump S s a) := by
  have hup := doItemUpdate_quiet h (a := a)
  set s1 := doItemUpdate S s a with hs1
  set s2 : Store Addr := ({ s1 with bumps := s.bumps.erase a } : Store Addr).noteRef a with hs2
  have he : lruMaintainerBump S s a = releaseRef s2 a := by
    rw [lruMaintainerBump, doItemRemove_eq]
  have hbu : s1.bumps = s.bumps := bumps_doItemUpdate
  -- the reference of the entry becomes one of the caller
  have hh : ∀ b, s2.holders b = s1.holders b := by
    intro b
    have hl : s2.Linked b ↔ s1.Linked b := Iff.rfl
    have hre : s2.refs b = s1.refs b + if b = a then 1 else 0 := refs_noteRef
    simp only [Store.holders, hl, hre, hbu]
    show _ + (s.bumps.erase a).count b + _ = _
    by_cases hb : b = a
    · have hpo := List.count_pos_iff.mpr ha
      rw [hb, List.count_erase_self, if_pos rfl]
      omega
    · rw [List.count_erase_of_ne hb, if_neg hb]
      omega
  have hi : Inv S s2 :=
    ⟨hup.inv.toIndexed.congr (fun _ => Iff.rfl) (fun _ _ => ⟨rfl, rfl, rfl⟩) rfl rfl,
      hup.inv.toCounted.congr (fun _ => ⟨rfl, rfl⟩) hh rfl, ⟨hup.inv.wiped, hup.inv.cas⟩⟩
  have hp : Quiet S nothing nothing s1 s2 :=
    ⟨⟨fun _ _ => rfl, fun _ => id, fun _ => .inl, fun _ _ => .inl rfl, rfl, rfl, rfl⟩, hi⟩
  have hr : 0 < s2.refs a := by
    rw [hs2, refs_noteRef, if_pos rfl]
    omega
  have hrel := releaseRef_quiet hi hr
  rw [he]
  exact hup.append (hp.append hrel).of_nothing

end Memcached.Items
