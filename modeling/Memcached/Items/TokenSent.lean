import Memcached.Items.Moves
import Memcached.Items.BinaryKeys

/-!
# The mark of the recache token

`ITEM_TOKEN_SENT` says that a client was told to recache the item. The mark is in
`it_flags`: whatever puts another item in the place of the marked one has to carry it
over.

Results:
* `Awarded.of_moveFromLru`: a move of the slab rebalancer keeps the mark
* `Awarded.of_step`: so does every step that does not store the key
-/

namespace Memcached.Items

open Lib Assoc

variable {Addr : Type*} [DecidableEq Addr] [Fintype Addr]

/-- The token of the key is out: its item carries the mark. -/
def Awarded (s : Store Addr) (key : Bytes) : Prop :=
  ∀ a, s.Linked a → s.key a = key → (s.items a).flags.tokenSent = true

/-- The operation takes the token back: it stores the key, or marks its item stale (`md` with
flag `I`). -/
def TakesBack (S : Settings) (s : Store Addr) (op : Op Addr) (key : Bytes) : Prop :=
  match op with
  | .mdelete k cas setStale newTtl =>
    k = key ∧ setStale = true ∧ (processMdelete S s k cas setStale newTtl).2 = .done
  | op => StoresKey S s op key

instance (S : Settings) (s : Store Addr) (key : Bytes) (op : Op Addr) :
    Decidable (TakesBack S s op key) := by
  delta TakesBack
  induction op using Op.casesOn <;> infer_instance

/-- An increment does not put a new item in the place of one whose token is out. -/
def KeepsToken (s : Store Addr) (key : Bytes) (incr : Bool) (delta : ℕ) : Prop :=
  ∀ a, s.Hit key a → (s.items a).flags.tokenSent = true →
    ∀ value ∈ Util.safeStrtoull (s.items a).data,
      FitsInPlace (s.items a) (Util.itoaU64 (applyDelta value incr delta))

instance (s : Store Addr) (key : Bytes) (incr : Bool) (delta : ℕ) :
    Decidable (KeepsToken s key incr delta) := by
  delta KeepsToken
  infer_instance

/-- The operation is no increment that loses the mark of the key. -/
def Op.KeepsMark (s : Store Addr) (key : Bytes) : Op Addr → Prop
  | .addDelta k incr delta _ _ _ => k = key → KeepsToken s key incr delta
  | _ => True

instance (s : Store Addr) (key : Bytes) (op : Op Addr) : Decidable (op.KeepsMark s key) := by
  delta Op.KeepsMark
  induction op using Op.casesOn <;> infer_instance

variable {S : Settings} {s s' : Store Addr} {a it new : Addr} {key : Bytes} {L T : Addr → Prop}

/-! ## Kinds of steps -/

omit [DecidableEq Addr] [Fintype Addr] in
theorem Awarded.of_linked (h : Awarded s key)
    (hl : ∀ b, s'.Linked b → s.Linked b ∧ (s'.items b).content = (s.items b).content) :
    Awarded s' key := by
  intro b hb hk
  obtain ⟨hb', hc⟩ := hl b hb
  rw [Item.proj_eq (fun it => it.flags.tokenSent) hc]
  exact h b hb' ((Item.key_eq hc).symm.trans hk)

theorem Awarded.of_serves (h : Awarded s key) (hs : Serves S L T s s') : Awarded s' key :=
  h.of_linked fun b hb => ⟨(hs.linked b hb).1, (hs.linked b hb).2.1⟩

theorem Awarded.of_published (h : Awarded s key) (hp : Published S L s s') : Awarded s' key :=
  h.of_serves hp.serves

theorem Awarded.of_quiet (h : Awarded s key) (hq : Quiet S L T s s') : Awarded s' key :=
  h.of_serves hq.serves

theorem Awarded.of_stores (h : Awarded s key) {i : Item} (hs : Stores S L s s' new i)
    (hn : i.key = key → i.flags.tokenSent = true) : Awarded s' key := by
  intro b hb hk
  by_cases hbn : b = new
  · subst hbn
    have hf := congrArg (fun it => it.flags.tokenSent) hs.item
    exact hf.trans (hn (hs.key_eq.symm.trans hk))
  · obtain ⟨hl, -, hc, -⟩ := hs.others b hbn hb
    rw [Item.proj_eq (fun it => it.flags.tokenSent) hc]
    exact h b hl ((Item.key_eq hc).symm.trans hk)

theorem Awarded.of_edits (h : Awarded s key) {c : Item} {n : ℕ} (he : Edits S s s' a c n)
    (hc : s.key a = key → (s.items a).flags.tokenSent = true → c.flags.tokenSent = true) :
    Awarded s' key := by
  intro b hb hk
  have hl := (he.linked b).mp hb
  by_cases hba : b = a
  · subst hba
    have hkb : s.key b = key := by
      rw [← hk, ← he.key, ← he.item]
      rfl
    have hf := congrArg (fun it => it.flags.tokenSent) he.item
    exact hf.trans (hc hkb (h b hl hkb))
  · obtain ⟨hco, -⟩ := he.others b hba hl
    rw [Item.proj_eq (fun it => it.flags.tokenSent) hco]
    exact h b hl ((Item.key_eq hco).symm.trans hk)

/-! ## Operations on items -/

section

variable (h : Awarded s key) (hinv : Inv S s) (hlt : CountsLow s)
include h hinv hlt

theorem Awarded.of_addDelta {k : Bytes}
    {incr : Bool} {delta : ℕ} (hke : k = key → KeepsToken s key incr delta) (cas : ℕ)
    (keep : Bool) (rounds : ℕ → Round Addr) :
    Awarded (doAddDelta S s k incr delta cas keep rounds).1 key := by
  obtain hmi | ⟨a, hh⟩ := missing_or_hit s k
  · obtain ⟨s1, reply, heq, -, hp⟩ :=
      doAddDelta_of_missing hinv hlt hmi incr delta cas keep rounds
    rw [heq]
    exact h.of_published hp
  obtain ⟨s1, reply, heq, ho, -⟩ := doAddDelta_outcome hinv hlt hh incr delta cas keep rounds
  rw [heq]
  cases ho with
  | refused _ hq => exact h.of_quiet hq
  | noMemory _ hp => exact h.of_published hp
  | edited buf _ he _ => exact h.of_edits he fun _ => id
  | replaced value new it' _ hv hf _ hs hm _ _ =>
    refine h.of_stores hs fun hkey => ?_
    have hk : k = key := hh.key.symm.trans (hm.key.symm.trans hkey)
    subst hk
    exact absurd (hke rfl a hh (h a hh.linked hh.key) value hv) hf

theorem Awarded.of_touch (k : Bytes)
    (exptime : ℕ) (room : Bool) : Awarded (doItemTouch S s k exptime room).1 key := by
  obtain hm | ⟨a, hh⟩ := missing_or_hit s k
  · obtain ⟨s1, heq, hp⟩ := doItemTouch_of_missing hinv hlt hm exptime room
    rw [heq]
    exact h.of_published hp
  · obtain ⟨s1, heq, he⟩ := doItemTouch_of_hit hinv hlt hh exptime room
    rw [heq]
    exact h.of_edits he fun _ => id

theorem Awarded.of_get (k : Bytes)
    (doUpdate room : Bool) : Awarded (doItemGet S s k doUpdate room).1 key := by
  obtain hm | ⟨a, hh⟩ := missing_or_hit s k
  · obtain ⟨s1, he, hq, -⟩ := doItemGet_of_missing hinv hlt hm doUpdate room
    rw [he]
    exact h.of_quiet hq
  · obtain ⟨s1, he, hq, -⟩ := doItemGet_of_hit hinv hlt hh doUpdate room
    rw [he]
    exact h.of_quiet hq

theorem Awarded.of_delete (k : Bytes) : Awarded (processDelete S s k).1 key := by
  obtain hm | ⟨a, hh⟩ := missing_or_hit s k
  · obtain ⟨s1, he, hp⟩ := processDelete_of_missing hinv hlt hm
    rw [he]
    exact h.of_published hp
  · obtain ⟨s1, he, -, hp, -⟩ := processDelete_of_hit hinv hlt hh
    rw [he]
    exact h.of_published hp

theorem Awarded.of_mdelete {k : Bytes} {cas : Option ℕ} {setStale : Bool} {newTtl : Option ℕ}
    (hk : ¬TakesBack S s (.mdelete k cas setStale newTtl) key) :
    Awarded (processMdelete S s k cas setStale newTtl).1 key := by
  obtain hm | ⟨a, hhi⟩ := missing_or_hit s k
  · obtain ⟨s1, he, hp⟩ := processMdelete_of_missing hinv hlt hm cas setStale newTtl
    rw [he]
    exact h.of_published hp
  have hg := doItemGet_peek hinv hlt hhi
  have hh := holding_takeRef hinv hlt hhi.linked
  revert hk
  simp only [TakesBack, processMdelete, hg]
  split_ifs with hc hs
  · exact fun _ => h.of_quiet hh.release_quiet
  · refine fun hk => h.of_edits (markStale_edits hh newTtl) fun hke _ => ?_
    exact absurd ⟨hhi.key.symm.trans hke, hs, rfl⟩ hk
  · exact fun _ => h.of_published hh.delete.1

/-- **The mark stays.** -/
theorem Awarded.of_step {op : Op Addr}
    {r : Reply Addr} (hk : ¬TakesBack S s op key) (hmark : op.KeepsMark s key)
    (hste : step S s op = some (s', r)) : Awarded s' key := by
  obtain ⟨hg, hap⟩ := step_eq hste
  have ho := hlt.countsOpen
  have hli : ∀ {L new} {s1 : Store Addr}, Stores S L s s1 new (s.items new) →
      s.key new ≠ key → Awarded s1 key := fun hst hn => h.of_stores hst fun hke =>
    absurd hke hn
  obtain rfl : (apply S s op).1 = s' := by rw [hap]
  cases op with
  | tick | assocExpand | assocMigrate => exact h
  | alloc k flags exptime nbytes rounds =>
    exact h.of_published (doItemAlloc_published hinv hlt k flags exptime nbytes rounds)
  | fill a data cas => exact h.of_published (fill_published hinv hg)
  | get k doUpdate room => exact h.of_get hinv hlt k doUpdate room
  | touch k exptime room => exact h.of_touch hinv hlt k exptime room
  | remove a => exact h.of_quiet (releaseRef_quiet hinv hg)
  | unlink a => exact h.of_quiet (doItemUnlink_quiet hinv)
  | link a =>
    obtain ⟨hr, hl, ha⟩ := hg
    exact hli (doItemLink_stores hinv (by simp [Store.Linked, hl]) hr
      (hinv.find_eq_none_iff.mp ha) (ho a)) hk
  | replace a new =>
    obtain ⟨-, hol, hr, hl, hke⟩ := hg
    exact hli (doItemReplace_stores hinv hol (by simp [Store.Linked, hl]) hr hke
      (ho new)) hk
  | store a comm setStale rounds env =>
    obtain ⟨hr, hl⟩ := hg
    rcases doStoreItem_effect hinv hlt hr (by simp [Store.Linked, hl]) comm setStale rounds env with
      ⟨L, T, hs, -⟩ | ⟨L, new, i, hst, -, hke⟩
    · exact h.of_serves hs
    refine h.of_stores hst fun he => ?_
    rw [he] at hke
    exact absurd hke hk
  | addDelta k incr delta cas keep rounds =>
    exact h.of_addDelta hinv hlt hmark cas keep rounds
  | delete k => exact h.of_delete hinv hlt k
  | mdelete k cas setStale newTtl => exact h.of_mdelete hinv hlt hk
  | bump a => exact h.of_quiet (lruMaintainerBump_quiet hinv hg)
  | pullTail p trylock =>
    obtain ⟨s1, n, ret, he, hq, -⟩ := lruPullTail_spec hinv ho p trylock hg
    simp only [apply, he]
    exact h.of_quiet hq
  | flushAll exptime =>
    refine h.of_linked fun b hb => ?_
    have hi : (apply S s (.flushAll exptime)).1.items = s.items := items_processFlushAll
    rw [Store.Linked, hi] at hb
    exact ⟨hb, by rw [hi]⟩

end

/-! ## Moves of the slab rebalancer -/

theorem Awarded.of_moveFromLru {m : Heap Addr} {ch new : Option Addr} (h : Awarded m.store key)
    (hi : Idling S m.store it) (hg : MoveGuard m.store it ch new) :
    Awarded (moveFromLru S m it ch new).store key := by
  obtain ⟨n, hs⟩ | hp := moveFromLru_cases hi hg
  · exact h.of_stores hs fun hk => h it hi.linked hk
  · exact h.of_published hp

end Memcached.Items
