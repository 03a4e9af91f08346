import Memcached.Items.Refcount

/-!
# The two branches of `do_add_delta`

An increment writes the new number over the old one when there is room for it and nobody
else holds the item; otherwise it puts a new item in the place of the old one, made from
the key, the client flags and the expiry time only. Clients cannot tell which happens.

Results:
* `delta_keeps_item_iff`: when the two branches cannot be told apart
* `delta_drops_marks`: a stale mark and an expiry time that are lost
-/

namespace Memcached.Items

open Lib Assoc

variable {Addr : Type*} [DecidableEq Addr] [Fintype Addr] {S : Settings}
  {s s' s1 : Store Addr} {a b new : Addr} {key : Bytes} {value : ℕ}

/-! ## Numeric items -/

/-- An item in memory that holds a number. -/
structure Item.Numeric (it : Item) (value : ℕ) : Prop where
  length : 2 < it.nbytes
  ends : it.data.drop (it.nbytes - 2) = ascii "\r\n"
  chunked : it.flags.chunked = false
  hdr : it.flags.hdr = false
  value : Util.safeStrtoull it.data = some value

instance (it : Item) : Decidable (it.Numeric value) :=
  decidable_of_iff (2 < it.nbytes ∧ it.data.drop (it.nbytes - 2) = ascii "\r\n" ∧
      it.flags.chunked = false ∧ it.flags.hdr = false ∧ Util.safeStrtoull it.data = some value)
    ⟨fun ⟨h1, h2, h3, h4, h5⟩ => ⟨h1, h2, h3, h4, h5⟩,
      fun ⟨h1, h2, h3, h4, h5⟩ => ⟨h1, h2, h3, h4, h5⟩⟩

instance (it : Item) : Decidable it.Unmarked :=
  decidable_of_iff (it.flags.stale = false ∧ it.flags.tokenSent = false ∧
      it.flags.keyBinary = false)
    ⟨fun ⟨h1, h2, h3⟩ => ⟨h1, h2, h3⟩, fun ⟨h1, h2, h3⟩ => ⟨h1, h2, h3⟩⟩

theorem Item.Numeric.plain {it : Item} (h : it.Numeric value) :
    ¬(it.nbytes ≤ 2 ∨ it.flags.chunked = true ∨ it.flags.hdr = true) := by
  have := h.length
  simp only [h.chunked, h.hdr, Bool.false_eq_true, or_false]
  omega

theorem applyDelta_lt (h : value < 2 ^ 64) (incr : Bool) (delta : ℕ) :
    applyDelta value incr delta < 2 ^ 64 := by
  unfold applyDelta
  split_ifs
  · exact Nat.mod_lt _ (by decide)
  · decide
  · omega

theorem safeStrtoull_paddedData {it : Item} (h : it.data.drop (it.nbytes - 2) = ascii "\r\n")
    (hv : value < 2 ^ 64) :
    Util.safeStrtoull (paddedData it (Util.itoaU64 value)) = some value := by
  rw [paddedData, h, List.append_assoc]
  cases it.nbytes - (Util.itoaU64 value).length - 2 with
  | zero => exact Util.safeStrtoull_itoaU64 hv (by decide) (by decide)
  | succ n =>
    refine Util.safeStrtoull_itoaU64 hv rfl fun hm => ?_
    obtain hm | hm := List.mem_append.mp hm
    · exact absurd (List.eq_of_mem_replicate hm) (by decide)
    · exact absurd hm (by decide)

/-! ## The branches -/

theorem ite_fitsInPlace {α : Type*} {it : Item} {buf : Bytes} {x y z : α}
    (hp : it.refcount + 1 > 1) :
    (if buf.length + 2 ≤ it.nbytes ∧ it.refcount + 1 = 2 then x
      else if it.refcount + 1 > 1 then y else z) = if FitsInPlace it buf then x else y := by
  have hi : buf.length + 2 ≤ it.nbytes ∧ it.refcount + 1 = 2 ↔ FitsInPlace it buf := by
    unfold FitsInPlace
    omega
  simp only [if_pos hp, hi]

theorem doAddDelta_numeric (h : Inv S s) (hl : CountsLow s) (hh : s.Hit key a)
    (hn : (s.items a).Numeric value) (incr : Bool) (delta : ℕ) {cas : ℕ}
    (hca : ¬(cas ≠ 0 ∧ (s.items a).getCas ≠ cas)) (keep : Bool) (rounds : ℕ → Round Addr) :
    doAddDelta S s key incr delta cas keep rounds =
      if FitsInPlace (s.items a) (Util.itoaU64 (applyDelta value incr delta)) then
        deltaDone (deltaInPlace S (takeRef s a) a (Util.itoaU64 (applyDelta value incr delta))) a
          (Util.itoaU64 (applyDelta value incr delta)) keep
      else
        match deltaReplace S (takeRef s a) a (Util.itoaU64 (applyDelta value incr delta))
            rounds with
        | (s, false) => (s, { result := .eom })
        | (s, true) => deltaDone s a (Util.itoaU64 (applyDelta value incr delta)) keep := by
  have hg := doItemGet_peek h hl hh
  obtain ⟨hc, hp⟩ := takeRef_linked h hl hh.linked
  simp only [doAddDelta, doAddDeltaIn, List.append_nil, hg, takeRef_proj Item.nbytes rfl,
    takeRef_proj Item.flags rfl, takeRef_proj Item.getCas rfl, takeRef_proj Item.data rfl, hc]
  rw [if_neg hn.plain, if_neg hca]
  simp only [hn.value]
  exact ite_fitsInPlace hp

theorem doAddDelta_casMismatch (h : Inv S s) (hl : CountsLow s) (hh : s.Hit key a)
    (hn : (s.items a).Numeric value) (incr : Bool) (delta : ℕ) {cas : ℕ}
    (hc : cas ≠ 0 ∧ (s.items a).getCas ≠ cas) (keep : Bool) (rounds : ℕ → Round Addr) :
    (doAddDelta S s key incr delta cas keep rounds).2.result = .casMismatch := by
  have hg := doItemGet_peek h hl hh
  simp only [doAddDelta, doAddDeltaIn, List.append_nil, hg, takeRef_proj Item.nbytes rfl,
    takeRef_proj Item.flags rfl, takeRef_proj Item.getCas rfl]
  rw [if_neg hn.plain, if_pos hc]

/-- An increment of the item at `a` leaves the key with an item of the same client flags,
expiry time and marks that holds the number, and gives back the CAS value of that
item and, to a caller that wants it, the item itself. -/
def DeltaKeeps (s s' : Store Addr) (a : Addr) (value : ℕ) (keep : Bool)
    (reply : DeltaReply Addr) : Prop :=
  ∃ b, s'.Linked b ∧ s'.key b = s.key a ∧
    (s'.items b).flagsConv = (s.items a).flagsConv ∧
    (s'.items b).exptime = (s.items a).exptime ∧
    (s'.items b).flags.stale = (s.items a).flags.stale ∧
    (s'.items b).flags.tokenSent = (s.items a).flags.tokenSent ∧
    (s'.items b).flags.keyBinary = (s.items a).flags.keyBinary ∧
    Util.safeStrtoull (s'.items b).data = some value ∧
    reply.cas = (s'.items b).getCas ∧ (keep = true → reply.itRet = some b)

instance (keep : Bool) (reply : DeltaReply Addr) : Decidable (DeltaKeeps s s' a value keep reply) :=
  inferInstanceAs (Decidable (∃ _, _ ∧ _ ∧ _ ∧ _ ∧ _ ∧ _ ∧ _ ∧ _ ∧ _ ∧ (_ → _)))

omit [Fintype Addr] in
theorem deltaDone_reply (s : Store Addr) (a : Addr) (buf : Bytes) (keep : Bool) :
    (deltaDone s a buf keep).2.cas = (s.items a).getCas ∧
      (keep = true → (deltaDone s a buf keep).2.itRet = some a) := by
  cases keep <;> exact ⟨rfl, by simp [deltaDone]⟩

theorem deltaInPlace_keeps (hh : Holding S s s1 a) (hnu : (s.items a).Numeric value)
    {n : ℕ} (hn : n < 2 ^ 64) (hf : (Util.itoaU64 n).length + 2 ≤ (s.items a).nbytes)
    (keep : Bool) :
    DeltaKeeps s (deltaDone (deltaInPlace S s1 a (Util.itoaU64 n)) a (Util.itoaU64 n) keep).1 a n
      keep (deltaDone (deltaInPlace S s1 a (Util.itoaU64 n)) a (Util.itoaU64 n) keep).2 := by
  obtain ⟨he, hr⟩ := deltaInPlace_edits hh (Util.itoaU64 n) hf
  obtain ⟨-, hd⟩ := deltaDone_quiet (a := a) he.inv (by rw [hr]; exact hh.refs_pos)
    (Util.itoaU64 n) keep
  obtain ⟨hca, hre⟩ := deltaDone_reply (deltaInPlace S s1 a (Util.itoaU64 n)) a
    (Util.itoaU64 n) keep
  set s2 := deltaInPlace S s1 a (Util.itoaU64 n)
  set s3 := (deltaDone s2 a (Util.itoaU64 n) keep).1
  have hl : s3.Linked a := (hd.lost a ((he.linked a).mpr he.self)).resolve_right id
  have hk : (s3.items a).content = (s2.items a).content :=
    hd.content a (hd.inv.not_slabbed_of_linked hl)
  have hc : (s3.items a).content = Item.content { s.items a with
      data := paddedData (s.items a) (Util.itoaU64 n), casUnique := freshCas S s a } :=
    hk.trans he.item
  refine ⟨a, hl, (Item.key_eq hc :), (Item.proj_eq Item.flagsConv hc :),
    (Item.proj_eq Item.exptime hc :), (Item.proj_eq (·.flags.stale) hc :),
    (Item.proj_eq (·.flags.tokenSent) hc :), (Item.proj_eq (·.flags.keyBinary) hc :), ?_, ?_, hre⟩
  · rw [Item.proj_eq Item.data hc]
    exact safeStrtoull_paddedData hnu.ends hn
  · rw [hca]
    exact (Item.proj_eq Item.getCas hk).symm

theorem deltaReplaced_keeps_iff {it : Item} {n : ℕ} (hn : n < 2 ^ 64)
    (h : DeltaReplaced S s s' a new it (Util.itoaU64 n)) (keep : Bool) :
    DeltaKeeps s (deltaDone s' a (Util.itoaU64 n) keep).1 a n keep
        (deltaDone s' a (Util.itoaU64 n) keep).2 ↔
      keep = false ∧ (s.items a).Unmarked := by
  obtain ⟨-, hd⟩ := deltaDone_quiet h.stores.inv h.held (Util.itoaU64 n) keep
  obtain ⟨hca, hr⟩ := deltaDone_reply s' a (Util.itoaU64 n) keep
  set s2 := (deltaDone s' a (Util.itoaU64 n) keep).1
  have hst := h.stores.then_published hd.published
  have hke : (s2.items new).content = (s'.items new).content :=
    hd.content new (hd.inv.not_slabbed_of_linked hst.linked)
  have hc : (s2.items new).content = Item.content { it with
      casUnique := if it.flags.cas then if S.useCas then s.nextCasId else 0 else it.casUnique } :=
    hst.item
  have hsta : (s2.items new).flags.stale = false :=
    (Item.proj_eq (·.flags.stale) hc :).trans h.unmarked.stale
  have hto : (s2.items new).flags.tokenSent = false :=
    (Item.proj_eq (·.flags.tokenSent) hc :).trans h.unmarked.tokenSent
  have hbi : (s2.items new).flags.keyBinary = false :=
    (Item.proj_eq (·.flags.keyBinary) hc :).trans h.unmarked.keyBinary
  have hkey : s2.key new = s.key a := hst.key_eq.trans h.made.key
  constructor
  · rintro ⟨b, hb, hkb, -, -, hs, ht, hk, -, -, hi⟩
    -- the key has one item, the new one
    obtain rfl : b = new := hst.inv.eq_of_key hb hst.linked (hkb.trans hkey.symm)
    refine ⟨Bool.eq_false_iff.mpr fun hw => ?_,
      ⟨hs.symm.trans hsta, ht.symm.trans hto, hk.symm.trans hbi⟩⟩
    exact h.ne (Option.some.inj ((hr hw).symm.trans (hi hw)))
  rintro ⟨rfl, hm⟩
  refine ⟨new, hst.linked, hkey, hst.flagsConv_eq.trans h.made.flags,
    hst.exptime_eq.trans h.made.exptime, hsta.trans hm.stale.symm,
    hto.trans hm.tokenSent.symm, hbi.trans hm.keyBinary.symm, ?_, ?_,
    fun hw => absurd hw (by decide)⟩
  · rw [hst.data_eq, h.made.data]
    exact Util.safeStrtoull_itoaU64 hn (by decide) (by decide)
  · rw [hca, h.cas]
    exact (Item.proj_eq Item.getCas hke).symm

/-! ## Both branches -/

/-- `do_add_delta` of a numeric item in memory, in every state and for every number of
references: it leaves what an increment in place leaves if and only if it is one, or
the item has no mark and the caller does not want the item. -/
theorem delta_keeps_item_iff (h : Inv S s) (hlt : CountsLow s) (hhit : s.Hit key a)
    (hnum : (s.items a).Numeric value) (incr : Bool) (delta cas : ℕ) (keep : Bool)
    (rounds : ℕ → Round Addr)
    (hok : (doAddDelta S s key incr delta cas keep rounds).2.result = .ok) :
    DeltaKeeps s (doAddDelta S s key incr delta cas keep rounds).1 a
        (applyDelta value incr delta) keep (doAddDelta S s key incr delta cas keep rounds).2 ↔
      FitsInPlace (s.items a) (Util.itoaU64 (applyDelta value incr delta)) ∨
        keep = false ∧ (s.items a).Unmarked := by
  have hh := holding_takeRef h hlt hhit.linked
  have hn := applyDelta_lt (Util.safeStrtoull_lt hnum.value) incr delta
  have hc : ¬(cas ≠ 0 ∧ (s.items a).getCas ≠ cas) := fun hb => by
    rw [doAddDelta_casMismatch h hlt hhit hnum incr delta hb keep rounds] at hok
    cases hok
  have he := doAddDelta_numeric h hlt hhit hnum incr delta hc keep rounds
  by_cases hf : FitsInPlace (s.items a) (Util.itoaU64 (applyDelta value incr delta))
  · rw [if_pos hf] at he
    rw [he]
    exact iff_of_true (deltaInPlace_keeps hh hnum hn hf.1 keep) (.inl hf)
  rw [if_neg hf] at he
  rcases deltaReplace_spec hh (Util.itoaU64 (applyDelta value incr delta)) rounds with
    ⟨s', hre, -⟩ | ⟨s', new, it', hre, hr, -⟩
  · rw [he, hre] at hok
    cases hok
  · rw [he, hre]
    exact (deltaReplaced_keeps_iff hn hr keep).trans (or_iff_right hf).symm

/-- The key `n` is stored with the value `9`. -/
def numberOps : List (Op (Fin 2)) :=
  storeOps 0 (ascii "n") (ascii "9\r\n") 0 .set 0

/-- `incr n 1` grows the number to two digits and needs a new item; without marks nothing
is lost. -/
theorem delta_keeps_item_iff_ten : ∃ s : Store (Fin 2), s.Hit (ascii "n") 0 ∧
    (s.items 0).Numeric 9 ∧
    DeltaKeeps s (doAddDelta smallSettings s (ascii "n") true 1 0 false (slabAt 1)).1 0 10 false
      (doAddDelta smallSettings s (ascii "n") true 1 0 false (slabAt 1)).2 := by
  have hi := emptyStore_reachable 2 smallSettings fun s _ => CountsLow s
  obtain ⟨s, hs, hl, hh, hn, hm, ho⟩ := hi.exists_of_exec numberOps
    (p := fun s => CountsLow s ∧ s.Hit (ascii "n") 0 ∧
      (s.items 0).Numeric 9 ∧ (s.items 0).Unmarked ∧
      (doAddDelta smallSettings s (ascii "n") true 1 0 false (slabAt 1)).2.result = .ok)
    (by decide +kernel)
  have hin := reachable_inv (fun _ _ ho => ho) hs
  exact ⟨s, hh, hn, (delta_keeps_item_iff hin hl hh hn true 1 0 false (slabAt 1) ho).mpr
      (.inr ⟨rfl, hm⟩)⟩

/-- The value is invalidated with `md n I` and then incremented while a reader holds its
item: the mark is gone. And `ma n T100` on the unmarked value, with two digits after
it, sets the expiry time of the old item, not of the one the key has now. -/
theorem delta_drops_marks :
    (∃ s : Store (Fin 2), (system (Fin 2) smallSettings).Reachable (fun s _ => CountsLow s) s ∧
      CountsLow s ∧ s.Hit (ascii "n") 0 ∧ (s.items 0).Numeric 9 ∧
      (doAddDelta smallSettings s (ascii "n") false 1 0 false (slabAt 1)).2.result = .ok ∧
      ¬DeltaKeeps s (doAddDelta smallSettings s (ascii "n") false 1 0 false (slabAt 1)).1 0 8 false
        (doAddDelta smallSettings s (ascii "n") false 1 0 false (slabAt 1)).2) ∧
    ∃ s : Store (Fin 2), (system (Fin 2) smallSettings).Reachable (fun s _ => CountsLow s) s ∧
      CountsLow s ∧ s.Hit (ascii "n") 0 ∧ (s.items 0).Numeric 9 ∧
      (doAddDelta smallSettings s (ascii "n") true 1 0 true (slabAt 1)).2.result = .ok ∧
      ¬DeltaKeeps s (doAddDelta smallSettings s (ascii "n") true 1 0 true (slabAt 1)).1 0 10 true
        (doAddDelta smallSettings s (ascii "n") true 1 0 true (slabAt 1)).2 ∧
      (doAddDelta smallSettings s (ascii "n") true 1 0 true (slabAt 1)).2.itRet = some 0 ∧
      ((setExptime (doAddDelta smallSettings s (ascii "n") true 1 0 true (slabAt 1)).1 0
        102).items 1).exptime = 0 := by
  have hi := emptyStore_reachable 2 smallSettings fun s _ => CountsLow s
  exact ⟨hi.exists_of_exec
      (numberOps ++ [.mdelete (ascii "n") none true none, .get (ascii "n") true true])
      (by decide +kernel),
    hi.exists_of_exec numberOps (by decide +kernel)⟩

end Memcached.Items
