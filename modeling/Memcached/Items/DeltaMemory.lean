import Memcached.Items.Deltas
import Memcached.Util.Exactness

/-!
# What `do_add_delta` reads (`memcached.c`, `util.c`)

The value of an item has no terminating NUL. `safe_strtoull` is given a pointer to its first
byte and reads on: `strtoull` skips white space, the final `\r\n` of the item included, and
`strchr` looks for a minus sign up to the next zero byte, which may be far behind the item.

Results:
* `delta_looks_at_item_iff`: for which values nothing behind the item is read
* `delta_reads_on`: values for which it is
-/

namespace Memcached.Items

open Lib Assoc Util

/-! ## Strings that go on behind the value -/

theorem scanDigits_append_cr (str rest : Bytes) (n : ℕ) :
    scanDigits (str ++ 13 :: rest) n =
      ((scanDigits str n).1, (scanDigits str n).2 ++ 13 :: rest) := by
  induction str generalizing n with
  | nil => rfl
  | cons c str ih =>
    show scanDigits (c :: (str ++ 13 :: rest)) n = _
    rw [scanDigits, scanDigits]
    by_cases hc : isDigit c = true
    · rw [if_pos hc, if_pos hc]
      exact ih _
    · rw [if_neg hc, if_neg hc]
      rfl

theorem scanNumber_append {value : Bytes} (h : ¬∀ c ∈ value, isSpace c = true) (rest : Bytes) :
    scanNumber (value ++ 13 :: rest) =
      (scanNumber value).map fun r => (r.1, r.2.1, r.2.2 ++ 13 :: rest) := by
  have hne : value.dropWhile isSpace ≠ [] := by
    intro hni
    exact h (List.dropWhile_eq_nil_iff.mp hni)
  have hd : (value ++ 13 :: rest).dropWhile isSpace = value.dropWhile isSpace ++ 13 :: rest := by
    rw [List.dropWhile_append, if_neg (by simpa using hne)]
  have hs : scanSign (value.dropWhile isSpace ++ 13 :: rest) =
      ((scanSign (value.dropWhile isSpace)).1,
        (scanSign (value.dropWhile isSpace)).2 ++ 13 :: rest) := by
    obtain ⟨c, s, hcs⟩ := List.exists_cons_of_ne_nil hne
    rw [hcs]
    show scanSign (c :: (s ++ 13 :: rest)) = _
    by_cases hm : c = 45
    · rw [hm]
      rfl
    by_cases hp : c = 43
    · rw [hp]
      rfl
    have hn : ∀ t, scanSign (c :: t) = (false, c :: t) := by
      intro t
      unfold scanSign
      split
      · rename_i he
        exact absurd (List.cons.inj he).1 hm
      · rename_i he
        exact absurd (List.cons.inj he).1 hp
      · rfl
    rw [hn, hn]
    rfl
  rw [scanNumber_eq, scanNumber_eq, hd, hs]
  obtain _ | ⟨c, s⟩ := (scanSign (value.dropWhile isSpace)).2
  · rfl
  by_cases hc : isDigit c = true
  · simp only [List.cons_append, hc, if_true, Option.map_some]
    rw [← List.cons_append, scanDigits_append_cr]
  · simp only [List.cons_append, hc, Bool.false_eq_true, if_false, Option.map_none]

theorem endsNumber_append_cr (str rest : Bytes) :
    endsNumber (str ++ 13 :: rest) = endsNumber str := by
  cases str with
  | nil => rfl
  | cons c str => rfl

theorem numeral_append {value : Bytes} (h : ¬∀ c ∈ value, isSpace c = true) (rest : Bytes)
    (z : ℤ) : Numeral (value ++ 13 :: rest) z ↔ Numeral value z := by
  rw [numeral_iff, numeral_iff, scanNumber_append h]
  constructor
  · rintro ⟨negative, n, r, hs, he, hz⟩
    obtain ⟨⟨negative', n', r'⟩, hs', heq⟩ := Option.map_eq_some_iff.mp hs
    obtain ⟨rfl, rfl, rfl⟩ := Prod.mk.injEq .. ▸ heq
    rw [endsNumber_append_cr] at he
    exact ⟨negative', n', r', hs', he, hz⟩
  · rintro ⟨negative, n, r, hs, he, hz⟩
    refine ⟨negative, n, r ++ 13 :: rest, by rw [hs]; rfl, ?_, hz⟩
    rw [endsNumber_append_cr]
    exact he

theorem hasMinus_append (value rest : Bytes) :
    hasMinus (value ++ 13 :: rest) = (hasMinus value || (!value.contains 0 && hasMinus rest)) := by
  induction value with
  | nil => simp [hasMinus]
  | cons c value ih =>
    unfold hasMinus at ih ⊢
    by_cases hc : c = 0
    · simp [hc]
    simp only [List.cons_append, List.takeWhile_cons, bne_iff_ne, ne_eq, hc, not_false_eq_true,
      if_true, List.contains_cons, ih]
    have hz : (0 == c) = false := by
      rw [beq_eq_false_iff_ne]
      exact fun h => hc h.symm
    rw [hz, Bool.false_or, Bool.or_assoc]

/-! ## Values -/

/-- Digits and padding spaces, for a number of 64 bits. -/
def PaddedNumber (value : Bytes) (n : ℕ) : Prop :=
  n < 2 ^ 64 ∧ ∃ digits k, value = digits ++ List.replicate k 32 ∧ digits ≠ [] ∧
    (∀ c ∈ digits, isDigit c = true) ∧ n = decValue digits

/-- The numbers that `safe_strtoull` takes, when nothing but the value is looked at. -/
def TakenAs (value : Bytes) (z : ℤ) : Prop :=
  (0 ≤ z ∧ z < 2 ^ 63) ∨ (2 ^ 63 ≤ z ∧ z < 2 ^ 64 ∧ hasMinus value = false) ∨ WrapsAround z

section

variable {value : Bytes} {n : ℕ} (h : PaddedNumber value n)
include h

theorem PaddedNumber.numeral : Numeral value n := by
  obtain ⟨-, digits, k, rfl, hn, hd, rfl⟩ := h
  refine ⟨[], [], digits, List.replicate k 32, rfl, by simp, .inl rfl, hn, hd, ?_, rfl⟩
  cases k with
  | zero => rfl
  | succ k => rfl

theorem PaddedNumber.not_space : ¬∀ c ∈ value, isSpace c = true := by
  obtain ⟨-, digits, k, rfl, hn, hd, -⟩ := h
  obtain ⟨c, ds, rfl⟩ := List.exists_cons_of_ne_nil hn
  intro ha
  have hc := isDigit_not_space (hd c (.head _))
  rw [ha c (by simp)] at hc
  cases hc

theorem PaddedNumber.not_mem {c : UInt8}
    (hd : isDigit c = false) (hs : c ≠ 32) : c ∉ value := by
  obtain ⟨-, digits, k, rfl, -, hdi, -⟩ := h
  intro hm
  obtain hm | hm := List.mem_append.mp hm
  · rw [hdi c hm] at hd
    cases hd
  · exact hs (List.eq_of_mem_replicate hm)

end

section

variable {value : Bytes} (h : ¬∀ c ∈ value, isSpace c = true)
include h

theorem safeStrtoull_append {z : ℤ} (hz : Numeral value z) (rest : Bytes) (out : ℕ) :
    safeStrtoull (value ++ 13 :: rest) = some out ↔
      (out = z ∧ z < 2 ^ 64 ∧ (z < 2 ^ 63 ∨ hasMinus (value ++ 13 :: rest) = false)) ∨
        (WrapsAround z ∧ (out : ℤ) = z + 2 ^ 64) := by
  obtain ⟨negative, n, r, hs, he, rfl⟩ :=
    (numeral_iff _ _).mp ((numeral_append h rest z).mpr hz)
  rw [safeStrtoull_eq_some hs he]
  unfold WrapsAround
  cases negative with
  | false =>
    simp only [Bool.false_eq_true, if_false]
    constructor
    · rintro ⟨hlt, hm | hm, rfl⟩
      · exact .inl ⟨rfl, by omega, .inl (by omega)⟩
      · exact .inl ⟨rfl, by omega, .inr hm⟩
    · rintro (⟨heq, hlt, hm | hm⟩ | hw)
      · exact ⟨by omega, .inl (by omega), by omega⟩
      · exact ⟨by omega, .inr hm, by omega⟩
      · omega
  | true =>
    simp only [if_true]
    constructor
    · rintro ⟨hlt, hze | hl, rfl⟩
      · exact .inl ⟨by omega, by omega, .inl (by omega)⟩
      · exact .inr ⟨by omega, by omega⟩
    · rintro (⟨heq, hlt, -⟩ | ⟨hw, heq⟩)
      · exact ⟨by omega, .inl (by omega), by omega⟩
      · exact ⟨by omega, .inr (by omega), by omega⟩

theorem safeStrtoull_append_none (hnot : ∀ z, Numeral value z → ¬TakenAs value z) (rest : Bytes) :
    safeStrtoull (value ++ 13 :: rest) = none := by
  by_contra hso
  obtain ⟨out, ho⟩ := Option.ne_none_iff_exists'.mp hso
  by_cases hn : ∀ z, ¬Numeral (value ++ 13 :: rest) z
  · rw [(safeStrtoull_of_not hn).1] at ho
    cases ho
  obtain ⟨z, hz⟩ := not_forall_not.mp hn
  have hz := (numeral_append h rest z).mp hz
  apply hnot z hz
  obtain ⟨he, hlt, hm⟩ | ⟨hw, -⟩ := (safeStrtoull_append h hz rest out).mp ho
  · obtain hs | hl := lt_or_ge z (2 ^ 63)
    · exact .inl ⟨by omega, hs⟩
    have hm := hm.resolve_left (by omega)
    rw [hasMinus_append, Bool.or_eq_false_iff] at hm
    exact .inr (.inl ⟨hl, hlt, hm.1⟩)
  · exact .inr (.inr hw)

theorem safeStrtoull_append_some {z : ℤ} (hz : Numeral value z) (ht : TakenAs value z) :
    ∃ out, safeStrtoull (value ++ ascii "\r\n") = some out := by
  have hn : hasMinus (value ++ 13 :: [10]) = hasMinus value := by
    rw [hasMinus_append]
    show (hasMinus value || (!value.contains 0 && false)) = hasMinus value
    rw [Bool.and_false, Bool.or_false]
  obtain ⟨hp, hl⟩ | ⟨hg, hl, hm⟩ | hwr := ht
  · exact ⟨z.toNat, (safeStrtoull_append h hz [10] _).mpr
      (.inl ⟨by omega, by omega, .inl hl⟩)⟩
  · exact ⟨z.toNat, (safeStrtoull_append h hz [10] _).mpr
      (.inl ⟨by omega, hl, .inr (hn.trans hm)⟩)⟩
  have hw := hwr
  unfold WrapsAround at hw
  exact ⟨(z + 2 ^ 64).toNat, (safeStrtoull_append h hz [10] _).mpr
    (.inr ⟨hwr, by omega⟩)⟩

end

/-- A number in a padded value is read for certain below `2 ^ 63`, and from there on if no
minus sign follows before the next zero byte. -/
theorem safeStrtoull_padded {value : Bytes} {n : ℕ} (h : PaddedNumber value n) (beyond : Bytes)
    (out : ℕ) : safeStrtoull (value ++ ascii "\r\n" ++ beyond) = some out ↔
      out = n ∧ (n < 2 ^ 63 ∨ hasMinus beyond = false) := by
  have hlt := h.1
  have hm : hasMinus (value ++ 13 :: 10 :: beyond) = hasMinus beyond := by
    have hv : hasMinus value = false := by
      rw [hasMinus, List.contains_eq_mem, decide_eq_false_iff_not]
      exact fun hme => h.not_mem (by decide) (by decide) (List.takeWhile_subset _ hme)
    have hz : value.contains 0 = false := by
      rw [List.contains_eq_mem, decide_eq_false_iff_not]
      exact h.not_mem (by decide) (by decide)
    have hl : hasMinus (10 :: beyond) = hasMinus beyond := by
      simp [hasMinus]
    rw [hasMinus_append, hv, hz, hl]
    rfl
  rw [List.append_assoc]
  show safeStrtoull (value ++ 13 :: 10 :: beyond) = some out ↔ _
  rw [safeStrtoull_append h.not_space h.numeral, hm]
  unfold WrapsAround
  constructor
  · rintro (⟨he, -, hr⟩ | hw)
    · refine ⟨by omega, ?_⟩
      obtain hs | hn := hr
      · exact .inl (by omega)
      · exact .inr hn
    · omega
  · rintro ⟨rfl, hr⟩
    refine .inl ⟨rfl, by omega, ?_⟩
    obtain hs | hn := hr
    · exact .inl (by omega)
    · exact .inr hn

/-! ## `do_add_delta` -/

variable {Addr : Type*} [DecidableEq Addr] [Fintype Addr] {S : Settings}
  {s s' s1 : Store Addr} {a b new : Addr} {key : Bytes} {value : ℕ}

/-- An item in memory with a value in one piece. An empty one is refused by its length, before
any byte is read. -/
structure Item.Flat (it : Item) (value : Bytes) : Prop where
  data : it.data = value ++ ascii "\r\n"
  ne_nil : value ≠ []
  chunked : it.flags.chunked = false
  hdr : it.flags.hdr = false

instance (it : Item) (value : Bytes) : Decidable (it.Flat value) :=
  decidable_of_iff (it.data = value ++ ascii "\r\n" ∧ value ≠ [] ∧ it.flags.chunked = false ∧
      it.flags.hdr = false)
    ⟨fun ⟨h1, h2, h3, h4⟩ => ⟨h1, h2, h3, h4⟩, fun ⟨h1, h2, h3, h4⟩ => ⟨h1, h2, h3, h4⟩⟩

theorem Item.Flat.nbytes {it : Item} {v : Bytes} (h : it.Flat v) :
    it.nbytes = v.length + 2 ∧ 2 < it.nbytes := by
  have hl : it.nbytes = v.length + 2 := by
    rw [Item.nbytes, h.data, List.length_append]
    rfl
  have hp : 0 < v.length := List.length_pos_iff.mpr h.ne_nil
  omega

/-- What follows the parsing of the value `n`. -/
def deltaWith (S : Settings) (s : Store Addr) (a : Addr) (n : ℕ) (keep : Bool)
    (rounds : ℕ → Round Addr) : Store Addr × DeltaReply Addr :=
  if FitsInPlace (s.items a) (itoaU64 n) then
    deltaDone (deltaInPlace S (takeRef s a) a (itoaU64 n)) a (itoaU64 n) keep
  else
    match deltaReplace S (takeRef s a) a (itoaU64 n) rounds with
    | (s, false) => (s, { result := .eom })
    | (s, true) => deltaDone s a (itoaU64 n) keep

/-- `do_add_delta` of an item in memory: the CAS value does not match, the value is not
taken, or it is taken for a number. -/
theorem doAddDeltaIn_of_hit (h : Inv S s) (hl : CountsLow s) (hh : s.Hit key a) {v : Bytes}
    (hf : (s.items a).Flat v) (beyond : Addr → Bytes) (incr : Bool) (delta cas : ℕ)
    (keep : Bool) (rounds : ℕ → Round Addr) :
    doAddDeltaIn S beyond s key incr delta cas keep rounds =
      if cas ≠ 0 ∧ (s.items a).getCas ≠ cas then
        (releaseRef (takeRef s a) a, { result := .casMismatch })
      else
        match safeStrtoull (v ++ ascii "\r\n" ++ beyond a) with
        | none => (releaseRef (takeRef s a) a, { result := .nonNumeric })
        | some value => deltaWith S s a (applyDelta value incr delta) keep rounds := by
  have hg := doItemGet_peek h hl hh
  obtain ⟨hc, hpo⟩ := takeRef_linked h hl hh.linked
  have hp : ¬((s.items a).nbytes ≤ 2 ∨ (s.items a).flags.chunked = true ∨
      (s.items a).flags.hdr = true) := by
    have := hf.nbytes.2
    simp only [hf.chunked, hf.hdr, Bool.false_eq_true, or_false]
    omega
  simp only [doAddDeltaIn, hg, takeRef_proj Item.nbytes rfl, takeRef_proj Item.flags rfl,
    takeRef_proj Item.getCas rfl, takeRef_proj Item.data rfl, hc]
  rw [if_neg hp, ← hf.data]
  by_cases hca : cas ≠ 0 ∧ (s.items a).getCas ≠ cas
  · rw [if_pos hca, if_pos hca]
  rw [if_neg hca, if_neg hca]
  obtain _ | value := safeStrtoull ((s.items a).data ++ beyond a)
  · rfl
  · exact ite_fitsInPlace hpo

theorem deltaWith_result (S : Settings) (s : Store Addr) (a : Addr) (n : ℕ) (keep : Bool)
    (rounds : ℕ → Round Addr) :
    (deltaWith S s a n keep rounds).2.result = .ok ∨
      (deltaWith S s a n keep rounds).2.result = .eom := by
  have hd : ∀ t, (deltaDone t a (itoaU64 n) keep).2.result = .ok := by
    intro t
    cases keep <;> rfl
  unfold deltaWith
  split_ifs
  · exact .inl (hd _)
  obtain ⟨t, _ | _⟩ := deltaReplace S (takeRef s a) a (itoaU64 n) rounds
  · exact .inr rfl
  · exact .inl (hd t)

/-! ## Looking at the item only -/

/-- Whatever follows the items in memory, an increment or decrement of the key does the same,
and it takes the value for a number only if it is one. An increment for which there is
no memory has taken the value, too. -/
def LooksAtItem (S : Settings) (s : Store Addr) (key v : Bytes) : Prop :=
  ∀ incr delta cas keep rounds,
    (∀ beyond beyond' : Addr → Bytes,
      doAddDeltaIn S beyond s key incr delta cas keep rounds =
        doAddDeltaIn S beyond' s key incr delta cas keep rounds) ∧
    ∀ beyond : Addr → Bytes,
      (doAddDeltaIn S beyond s key incr delta cas keep rounds).2.result = .ok ∨
        (doAddDeltaIn S beyond s key incr delta cas keep rounds).2.result = .eom →
      ∃ n, PaddedNumber v n

/-- For every value of an item in memory: `do_add_delta` looks at the item only and takes
numbers only, if and only if the value is a number below `2 ^ 63` with padding, or it is
not white space only and has no numeral in front that `safe_strtoull` would take. -/
theorem delta_looks_at_item_iff (h : Inv S s) (hlt : CountsLow s) (hhit : s.Hit key a) {v : Bytes}
    (hflat : (s.items a).Flat v) :
    LooksAtItem S s key v ↔ (∃ n, PaddedNumber v n ∧ n < 2 ^ 63) ∨
      (¬∀ c ∈ v, isSpace c = true) ∧ ∀ z, Numeral v z → ¬TakenAs v z := by
  have he := fun beyond incr delta cas keep rounds =>
    doAddDeltaIn_of_hit h hlt hhit hflat beyond incr delta cas keep rounds
  constructor
  · intro hl
    -- with CAS value 0 the value is read, and what it is read as can be told from the result
    let rounds : ℕ → Round Addr := fun _ => ⟨none, fun _ _ => false⟩
    have hnon : ∀ beyond : Bytes, safeStrtoull (v ++ ascii "\r\n" ++ beyond) = none →
        (doAddDeltaIn S (fun _ => beyond) s key true 0 0 false rounds).2.result = .nonNumeric := by
      intro beyond hp
      rw [he, if_neg (by simp), hp]
    have hso : ∀ (beyond : Bytes) (n : ℕ), safeStrtoull (v ++ ascii "\r\n" ++ beyond) = some n →
        (doAddDeltaIn S (fun _ => beyond) s key true 0 0 false rounds).2.result = .ok ∨
          (doAddDeltaIn S (fun _ => beyond) s key true 0 0 false rounds).2.result = .eom := by
      intro beyond n hp
      rw [he, if_neg (by simp), hp]
      exact deltaWith_result ..
    obtain ⟨hsa, ht⟩ := hl true 0 0 false rounds
    have ha : ∀ beyond beyond' n, safeStrtoull (v ++ ascii "\r\n" ++ beyond) = some n →
        safeStrtoull (v ++ ascii "\r\n" ++ beyond') ≠ none := by
      intro beyond beyond' n hn hno
      have hre := hso beyond n hn
      rw [hsa (fun _ => beyond) (fun _ => beyond'), hnon beyond' hno] at hre
      obtain hre | hre := hre <;> cases hre
    have hs : ¬∀ c ∈ v, isSpace c = true := by
      intro hal
      have ha' : ∀ c ∈ v ++ ascii "\r\n", isSpace c = true := by
        intro c hc
        obtain hc | hc := List.mem_append.mp hc
        · exact hal c hc
        · exact List.all_eq_true.mp (show (ascii "\r\n").all isSpace = true by decide) c hc
      have hf : safeStrtoull (v ++ ascii "\r\n" ++ ascii "5") = some 5 := by
        have hsc : scanNumber (v ++ ascii "\r\n" ++ ascii "5") = some (false, 5, []) := by
          rw [scanNumber_eq, List.dropWhile_append_of_pos ha']
          decide
        exact (safeStrtoull_eq_some hsc rfl 5).mpr ⟨by omega, .inl (by omega), rfl⟩
      refine ha _ [] 5 hf ?_
      have hsc : scanNumber (v ++ ascii "\r\n" ++ []) = none := by
        rw [scanNumber_eq, List.dropWhile_append_of_pos ha']
        rfl
      rw [safeStrtoull, hsc]
    by_cases hno : ∀ z, Numeral v z → ¬TakenAs v z
    · exact .inr ⟨hs, hno⟩
    push Not at hno
    obtain ⟨z, hz, has⟩ := hno
    obtain ⟨out, ho⟩ := safeStrtoull_append_some hs hz has
    rw [← List.append_nil (v ++ ascii "\r\n")] at ho
    obtain ⟨n, hn⟩ := ht _ (hso [] out ho)
    refine .inl ⟨n, hn, ?_⟩
    by_contra hlarge
    -- a minus sign behind the item would be found
    refine ha [] (ascii "-") out ho ?_
    by_contra hr
    obtain ⟨out', ho'⟩ := Option.ne_none_iff_exists'.mp hr
    obtain hsm | hm := ((safeStrtoull_padded hn _ _).mp ho').2
    · exact hlarge hsm
    · exact absurd hm (by decide)
  · intro hco incr delta cas keep rounds
    obtain ⟨n, hn, hsm⟩ | ⟨hs, hnot⟩ := hco
    · refine ⟨?_, fun _ _ => ⟨n, hn⟩⟩
      intro beyond beyond'
      have hp : ∀ b, safeStrtoull (v ++ ascii "\r\n" ++ b) = some n := fun b =>
        (safeStrtoull_padded hn b n).mpr ⟨rfl, .inl hsm⟩
      rw [he, he, hp, hp]
    have hp : ∀ b, safeStrtoull (v ++ ascii "\r\n" ++ b) = none := by
      intro b
      rw [List.append_assoc]
      exact safeStrtoull_append_none hs hnot _
    constructor
    · intro beyond beyond'
      rw [he, he, hp, hp]
    intro beyond hre
    rw [he, hp] at hre
    split_ifs at hre
    · obtain hre | hre := hre <;> cases hre
    · obtain hre | hre := hre <;> cases hre

/-- `incr n 1` of the value `9`, whatever follows the item. -/
theorem delta_looks_at_item_iff_nine : ∃ s : Store (Fin 2), s.Hit (ascii "n") 0 ∧
    (s.items 0).Flat (ascii "9") ∧ LooksAtItem smallSettings s (ascii "n") (ascii "9") := by
  have hi := emptyStore_reachable 2 smallSettings fun s _ => CountsLow s
  obtain ⟨s, hs, hl, hh, hf⟩ := hi.exists_of_exec numberOps
    (p := fun s => CountsLow s ∧ s.Hit (ascii "n") 0 ∧ (s.items 0).Flat (ascii "9"))
    (by decide +kernel)
  have hin := reachable_inv (fun _ _ ho => ho) hs
  refine ⟨s, hh, hf,
    (delta_looks_at_item_iff hin hl hh hf).mpr (.inl ⟨9, ?_, by decide⟩)⟩
  exact ⟨by decide, ascii "9", 0, rfl, by decide, List.all_eq_true.mp (by decide), by decide⟩

/-- `incr n 1` with these bytes behind the items. -/
def incrN (beyond : Bytes) (s : Store (Fin 2)) : Store (Fin 2) × DeltaReply (Fin 2) :=
  doAddDeltaIn smallSettings (fun _ => beyond) s (ascii "n") true 1 0 false (slabAt 1)

/-- A value of one space is a number if one follows the item in memory; the value
`9223372036854775808` is none if a minus sign follows; and `5 x` is taken for 5. -/
theorem delta_reads_on :
    (∃ s : Store (Fin 2), (system (Fin 2) smallSettings).Reachable (fun s _ => CountsLow s) s ∧
      s.Hit (ascii "n") 0 ∧ (s.items 0).Flat (ascii " ") ∧
      (incrN [] s).2.result = .nonNumeric ∧
      (incrN (ascii "5") s).2.result = .ok) ∧
    (∃ s : Store (Fin 2), (system (Fin 2) smallSettings).Reachable (fun s _ => CountsLow s) s ∧
      s.Hit (ascii "n") 0 ∧ (s.items 0).Flat (ascii "9223372036854775808") ∧
      (incrN [] s).2.result = .ok ∧
      (incrN (ascii "-") s).2.result = .nonNumeric) ∧
    ∃ s : Store (Fin 2), (system (Fin 2) smallSettings).Reachable (fun s _ => CountsLow s) s ∧
      s.Hit (ascii "n") 0 ∧ (s.items 0).Flat (ascii "5 x") ∧
      (incrN [] s).2.result = .ok ∧ ∀ n, ¬PaddedNumber (ascii "5 x") n := by
  have hi := emptyStore_reachable 2 smallSettings fun s _ => CountsLow s
  refine ⟨hi.exists_of_exec (storeOps 0 (ascii "n") (ascii " \r\n") 0 .set 0)
      (by decide +kernel),
    hi.exists_of_exec (storeOps 0 (ascii "n") (ascii "9223372036854775808\r\n") 0 .set 0)
      (by decide +kernel), ?_⟩
  obtain ⟨s, hs, hh, hf, ho⟩ := hi.exists_of_exec
    (storeOps 0 (ascii "n") (ascii "5 x\r\n") 0 .set 0)
    (p := fun s => s.Hit (ascii "n") 0 ∧ (s.items 0).Flat (ascii "5 x") ∧
      (incrN [] s).2.result = .ok) (by decide +kernel)
  refine ⟨s, hs, hh, hf, ho, ?_⟩
  intro n hn
  exact hn.not_mem (c := 120) (by decide) (by decide) (by decide)

end Memcached.Items
