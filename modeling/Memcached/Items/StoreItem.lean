import Memcached.Items.Mutations

/-!
# `do_store_item`

What `do_store_item` changes and answers, for every mode.

Results:
* `doStoreItem_of_missing`, `doStoreItem_of_hit`: without and with a live item
-/

namespace Memcached.Items

open Lib Assoc

variable {Addr : Type*} [DecidableEq Addr] [Fintype Addr] {S : Settings}
  {s s' s'' s1 : Store Addr} {a b new old : Addr} {L L' T : Addr → Prop}

/-! ## `do_store_item` -/

variable {it : Addr}

theorem doStoreItem_of_missing (h : Inv S s) (hlt : CountsLow s)
    (hr : 0 < s.refs it) (hl : ¬s.Linked it) (hm : s.Missing (s.key it))
    (comm : Comm) (setStale : Bool) (rounds : ℕ → Round Addr) (env : CopyEnv) :
    ∃ s' r cas, doStoreItem S s it comm setStale rounds env = (s', r, cas) ∧
      (s'.refs = s.refs ∧ s'.bumps = s.bumps) ∧
      match comm with
      | .add | .set =>
        r = .stored ∧ cas = some (s'.items it).getCas ∧ Stores S nothing s s' it (s.items it)
      | .cas => r = .notFound ∧ cas = none ∧
        Published S (fun b => s.key b = s.key it ∧ s.Dead b) s s'
      | .replace | .append | .prepend => r = .notStored ∧ cas = none ∧
        Published S (fun b => s.key b = s.key it ∧ s.Dead b) s s' := by
  obtain ⟨s1, hge, hq, hre, hbu, hg⟩ := doItemGet_of_missing h hlt hm false false
  have hr1 : 0 < s1.refs it := by rwa [hre]
  have hc := hq.content it (hq.inv.not_slabbed_of_refs hr1)
  have hk : s1.key it = s.key it := Item.key_eq hc
  have hl1 : ¬s1.Linked it := fun hb => hl (hq.linked it hb)
  have hli : Stores S nothing s (doItemLink S s1 it) it (s.items it) := by
    have ha : ∀ b, s1.Linked b → s1.key b ≠ s1.key it := by
      intro b hb
      have : s1.key b = s.key b :=
        Item.key_eq (hq.content b (hq.inv.not_slabbed_of_linked hb))
      rw [this, hk]
      exact hg b hb
    have hco : (s1.items it).refcount + 1 < 2 ^ 16 := by
      have := Quiet.refcount_le h hq hre hbu it
      have := hlt it
      omega
    have hs := (doItemLink_stores hq.inv hl1 hr1 ha hco).congr_item hc
    refine (Stores.of_published hq.published hs).mono fun b _ hb => ?_
    exact hb.elim (fun hd => .inl hd.1) (fun hn => hn.elim)
  simp only [doStoreItem, hge]
  cases comm with
  | add | set => exact ⟨_, _, _, rfl, ⟨hre, hbu⟩, rfl, rfl, hli⟩
  | cas | replace | append | prepend =>
    exact ⟨_, _, _, rfl, ⟨hre, hbu⟩, rfl, rfl, hq.published⟩

/-- The item that a stale store leaves. -/
def staleItem (it old : Item) : Item :=
  { it with
    exptime := old.exptime
    flags := { it.flags with
      stale := true
      tokenSent := it.flags.tokenSent || old.flags.tokenSent } }

omit [Fintype Addr] in
theorem items_keepStale (b : Addr) :
    (keepStale s a old).items b =
      if b = a then staleItem (s.items a) (s.items old) else s.items b :=
  items_modify _ b

theorem keepStale_published (h : Inv S s) (hr : 0 < s.refs a) (hl : ¬s.Linked a) :
    Published S nothing s (keepStale s a old) :=
  .of_items (h.of_held hr items_keepStale rfl rfl (fun _ => rfl) ⟨rfl, rfl, rfl, rfl, rfl⟩)
    items_keepStale hl rfl rfl rfl

theorem planConcat_run (hh : Holding S s s1 old) (hr : 0 < s1.refs it)
    (hke : s1.key it = s1.key old) (comm : Comm) (rounds : ℕ → Round Addr) (env : CopyEnv) :
    let p := planConcat S s1 it old comm rounds env
    (p.stored = .notStored ∧ p.link = none ∧
      Published S (fun b => s.key b ≠ s.key old) s (p.run S old)) ∨
    (p.stored = .stored ∧ ∃ new it', p.link = some new ∧
      Stores S (fun b => s.key b ≠ s.key old) s (p.run S old) new it' ∧
      MadeFrom S it' (s1.items old)
        (storeItemCopyData comm (copySource env it'.flags.chunked (s1.items old))
          (copySource env it'.flags.chunked (s1.items it))) ∧
      it'.flags.chunked = largeItem S (s1.key old) (s1.items old).flagsConv
        ((s1.items it).nbytes + (s1.items old).nbytes - 2) ∧
      (it'.flags.chunked = true → env.ok = true)) := by
  obtain ⟨s2, hre, hal | ⟨s3, new, hal, ha⟩⟩ :=
    hh.alloc (s1.items old).flagsConv (s1.items old).exptime
      ((s1.items it).nbytes + (s1.items old).nbytes - 2) rounds
  · simp only [planConcat, hke, hal]
    exact .inl ⟨trivial, trivial, hre.release⟩
  have hn := hre.newItem ha
  have hne : old ≠ new := by
    rintro rfl
    exact hn.linked_new hn.linked_old
  simp only [planConcat, hke, hal]
  split_ifs with hco
  · -- the chunks of a large item could not be allocated
    have ho := releaseRef_quiet hn.inv hn.refs_old
    have hnew := releaseRef_quiet (a := new) ho.inv (by
      rw [refs_releaseRef, if_neg hne.symm]
      exact hn.refs_new)
    refine .inl ⟨rfl, rfl, ?_⟩
    exact (hn.toPublished.trans (ho.append hnew).published).mono
      fun b _ hb => hb.elim id False.elim
  have hst := hn.replace
    (storeItemCopyData comm (copySource env (s3.items new).flags.chunked (s3.items old))
      (copySource env (s3.items new).flags.chunked (s3.items it)))
  have ho := releaseRef_quiet (a := old) hst.inv (by
    rw [refs_doItemReplace]
    exact hn.refs_old)
  have hnew := releaseRef_quiet (a := new) ho.inv (by
    rw [refs_releaseRef, if_neg hne.symm, refs_doItemReplace]
    exact hn.refs_new)
  refine .inr ⟨rfl, new, _, rfl, hst.then_published (ho.append hnew).published, ?_⟩
  obtain ⟨hk, hf, he, -⟩ := ha.item_eq hre.inv
  have hs : ∀ intoChunks, copySource env intoChunks (s3.items old) =
      copySource env intoChunks (s1.items old) := fun intoChunks =>
    Item.proj_eq (copySource env intoChunks) (hn.content old hh.refs_pos)
  have hs' : ∀ intoChunks, copySource env intoChunks (s3.items it) =
      copySource env intoChunks (s1.items it) := fun intoChunks =>
    Item.proj_eq (copySource env intoChunks) (hn.content it hr)
  refine ⟨⟨hk, hf, he, ?_, hn.inv.cas new (hn.inv.not_slabbed_of_refs hn.refs_new)⟩, ?_,
    fun hc => ?_⟩
  · show storeItemCopyData _ _ _ = _
    rw [hs, hs']
  · exact ha.chunked_eq hre.inv
  · have hc' : (s3.items new).flags.chunked = true := hc
    simpa [hc'] using hco

theorem Holding.store {s2 : Store Addr} (hh : Holding S s s1 old)
    (hp : Published S nothing s1 s2) (hhe : (s2.items it).header = (s1.items it).header)
    (hre : s2.refs = s1.refs) (hr : 0 < s1.refs it) (hl : ¬s1.Linked it)
    (hk : s1.key it = s1.key old) :
    Stores S nothing s (releaseRef (doItemReplace S s2 old it) old) it (s2.items it) := by
  have ho : s2.Linked old := (hp.lost old hh.linked_self).resolve_right id
  have hpu : Published S nothing s s2 :=
    (hh.toQuiet.published.trans hp).mono fun b _ hb => hb.elim id id
  have hs : Stores S nothing s (doItemReplace S s2 old it) it (s2.items it) :=
    replace_stores hpu ho ?_ (by rwa [hre]) ?_ ?_
  · refine hs.then_published (releaseRef_quiet hs.inv ?_).published
    rw [refs_doItemReplace, hre]
    exact hh.refs_pos
  · rwa [Store.Linked, show (s2.items it).flags.linked = _ from congrArg Header.linked hhe]
  · rw [hp.key_eq ho, ← hk]
    exact congrArg Header.key hhe
  · rw [show (s2.items it).refcount = _ from congrArg Header.refcount hhe]
    exact hh.count it

theorem planStore_concat {comm : Comm} (hc : comm = .append ∨ comm = .prepend)
    (setStale : Bool) (rounds : ℕ → Round Addr) (env : CopyEnv) :
    planStore S s it old comm setStale rounds env =
      let casRes := casTest (s.items it).getCas (s.items old).getCas setStale
      if casRes ≠ .none ∧ casRes ≠ .match then { store := s, stored := .exists }
      else if (s.items old).flags.hdr then { store := s, stored := .notStored }
      else planConcat S s it old comm rounds env := by
  obtain rfl | rfl := hc <;> rfl

theorem mem_of_casTest {itCas oldCas : ℕ} {setStale : Bool}
    (h : ¬(casTest itCas oldCas setStale ≠ .none ∧ casTest itCas oldCas setStale ≠ .match)) :
    itCas ∈ [0, oldCas] := by
  by_contra hm
  simp only [List.mem_cons, List.not_mem_nil, or_false, not_or] at hm
  refine h ?_
  unfold casTest
  rw [if_neg hm.1, if_neg hm.2]
  split_ifs <;> decide

/-- What append and prepend do to a key with a live item `old`, and what they answer. -/
inductive Concatenates (S : Settings) (s s' : Store Addr) (it old : Addr) (comm : Comm)
    (env : CopyEnv) : StoreItemType → Option ℕ → Prop where
  | badToken (h : Quiet S nothing nothing s s') : Concatenates S s s' it old comm env .exists none
  | refused (h : Published S (fun b => s.key b ≠ s.key old) s s') :
      Concatenates S s s' it old comm env .notStored none
  | stored (new : Addr) (it' : Item) (hcas : (s.items it).getCas ∈ [0, (s.items old).getCas])
      (h : Stores S (fun b => s.key b ≠ s.key old) s s' new it')
      (hmade : MadeFrom S it' (s.items old)
        (storeItemCopyData comm (copySource env it'.flags.chunked (s.items old))
          (copySource env it'.flags.chunked (s.items it))))
      (hchunked : it'.flags.chunked = largeItem S (s.key old) (s.items old).flagsConv
        ((s.items it).nbytes + (s.items old).nbytes - 2))
      (hok : it'.flags.chunked = true → env.ok = true) :
      Concatenates S s s' it old comm env .stored (some (s'.items new).getCas)

theorem doStoreItem_of_hit (h : Inv S s) (hlt : CountsLow s)
    (hr : 0 < s.refs it) (hl : ¬s.Linked it) (hhi : s.Hit (s.key it) old)
    (comm : Comm) (setStale : Bool) (rounds : ℕ → Round Addr) (env : CopyEnv) :
    ∃ s' r cas, doStoreItem S s it comm setStale rounds env = (s', r, cas) ∧
      match comm with
      | .add => r = .notStored ∧ cas = none ∧ Quiet S nothing (· = old) s s'
      | .set | .replace =>
        r = .stored ∧ cas = some (s'.items it).getCas ∧ Stores S nothing s s' it (s.items it)
      | .cas =>
        match casTest (s.items it).getCas (s.items old).getCas setStale with
        | .match =>
          r = .stored ∧ cas = some (s'.items it).getCas ∧ Stores S nothing s s' it (s.items it)
        | .stale =>
          r = .stored ∧ cas = some (s'.items it).getCas ∧
            Stores S nothing s s' it (staleItem (s.items it) (s.items old))
        | _ => r = .exists ∧ cas = none ∧ Quiet S nothing nothing s s'
      | .append | .prepend => Concatenates S s s' it old comm env r cas := by
  have hg := doItemGet_peek h hlt hhi
  have hh := holding_takeRef h hlt hhi.linked
  have hn : it ≠ old := by
    rintro rfl
    exact hl hhi.linked
  have hi : (takeRef s old).items it = s.items it := by rw [items_takeRef, if_neg hn]
  have hr1 : 0 < (takeRef s old).refs it := by
    rw [refs_takeRef, if_neg hn]
    exact hr
  have hl1 : ¬(takeRef s old).Linked it := linked_takeRef.not.mpr hl
  have hca : ((takeRef s old).items old).getCas = (s.items old).getCas := by
    rw [items_takeRef, if_pos rfl]
    rfl
  have hk1 : (takeRef s old).key it = (takeRef s old).key old := by
    rw [Store.key, hi, Store.key, items_takeRef, if_pos rfl]
    exact hhi.key.symm
  have hse : Stores S nothing s (releaseRef (doItemReplace S (takeRef s old) old it) old) it
      (s.items it) :=
    hi ▸ hh.store (Quiet.refl hh.inv).published rfl rfl hr1 hl1 hk1
  have hco : comm = .append ∨ comm = .prepend →
      let p := planStore S (takeRef s old) it old comm setStale rounds env
      Concatenates S s (p.run S old) it old comm env p.stored
        (p.link.map fun new => ((p.run S old).items new).getCas) := by
    intro hc
    have hru := planConcat_run hh hr1 hk1 comm rounds env
    simp only [planStore_concat hc, hca, hi]
    split_ifs with hb hhd
    · exact .badToken hh.release_quiet
    · exact .refused (hh.release_quiet.published.mono fun _ _ => False.elim)
    obtain ⟨hst, hli, hp⟩ | ⟨hst, new, it', hli, hs, hm, hch, ho⟩ := hru
    · rw [hst, hli]
      exact .refused hp
    rw [hst, hli]
    rw [hi, items_takeRef, if_pos rfl] at hm
    rw [hi, Store.key, items_takeRef, if_pos rfl] at hch
    exact .stored new it' (mem_of_casTest hb) hs
      ⟨hm.key, hm.flags, hm.exptime, hm.data, hm.cas⟩ hch ho
  simp only [doStoreItem, hg]
  cases comm with
  | add =>
    have hup := doItemUpdate_quiet hh.inv (a := old)
    have hre := releaseRef_quiet (a := old) hup.inv (by
      rw [refs_doItemUpdate]
      exact hh.refs_pos)
    exact ⟨_, _, _, rfl, rfl, rfl, (hh.toQuiet.of_nothing.append hup).append hre.of_nothing⟩
  | set => exact ⟨_, _, _, rfl, rfl, rfl, hse⟩
  | replace => exact ⟨_, _, _, rfl, rfl, rfl, hse⟩
  | cas =>
    refine ⟨_, _, _, rfl, ?_⟩
    simp only [planStore, hi, hca]
    cases casTest (s.items it).getCas (s.items old).getCas setStale with
    | none => exact ⟨rfl, rfl, hh.release_quiet⟩
    | badval => exact ⟨rfl, rfl, hh.release_quiet⟩
    | «match» => exact ⟨rfl, rfl, hse⟩
    | stale =>
      refine ⟨rfl, rfl, ?_⟩
      have hp : Published S nothing (takeRef s old) (keepStale (takeRef s old) it old) :=
        keepStale_published hh.inv hr1 hl1
      have hst := hh.store hp (by rw [items_keepStale, if_pos rfl]; rfl) rfl hr1 hl1 hk1
      rw [items_keepStale, if_pos rfl, hi] at hst
      refine hst.congr_item ?_
      rw [items_takeRef, if_pos rfl]
      rfl
  | append => exact ⟨_, _, _, rfl, hco (.inl rfl)⟩
  | prepend => exact ⟨_, _, _, rfl, hco (.inr rfl)⟩

end Memcached.Items
