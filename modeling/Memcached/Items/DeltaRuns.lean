import Memcached.Items.DeltaMemory

/-!
# Sequences of increments and decrements (`memcached.c`)

An increment prints the new number with `itoa_u64`, into the old item or a new one, and the
next one reads it again with `safe_strtoull`. A number from `2 ^ 63` on is read only if no
minus sign follows the item in memory.

Results:
* `deltas_compute`: a sequence of increments computes with the numbers
* `large_number_lost`: unless a minus sign follows a large one
-/

namespace Memcached.Items

open Lib Assoc Util

variable {Addr : Type*} [DecidableEq Addr] [Fintype Addr] {S : Settings}
  {s s' s1 : Store Addr} {a b new : Addr} {key : Bytes} {n : ℕ}

/-! ## Specification -/

/-- Addition in 64 bits, and subtraction that stops at 0. -/
def deltaSpec (n : ℕ) (incr : Bool) (delta : ℕ) : ℕ :=
  if incr then (n + delta) % 2 ^ 64 else n - delta

/-- The value is the decimal form of the number, padding spaces and `\r\n`. -/
def Item.Holds (it : Item) (n : ℕ) : Prop :=
  ∃ k, it.data = itoaU64 n ++ List.replicate k 32 ++ ascii "\r\n"

/-- The item at `a` was changed to hold the number, or the one at `b` was put in its place:
what is stored, what is answered, and when the value is read again. -/
structure DeltaStored (s s' : Store Addr) (a b : Addr) (n : ℕ) (reply : DeltaReply Addr) :
    Prop where
  linked : s'.Linked b
  key : s'.key b = s.key a
  holds : (s'.items b).Holds n
  buf : reply.value = itoaU64 n
  inPlace : FitsInPlace (s.items a) (itoaU64 n) → (s'.items b).nbytes = (s.items a).nbytes
  replaced : ¬FitsInPlace (s.items a) (itoaU64 n) →
    (s'.items b).nbytes = (itoaU64 n).length + 2
  reads : ∀ beyond, safeStrtoull ((s'.items b).data ++ beyond) = some n ↔
    n < 2 ^ 63 ∨ hasMinus beyond = false

/-- An increment or decrement, with the memory that it meets behind the items. -/
structure DeltaOp (Addr : Type*) where
  incr : Bool
  delta : ℕ
  cas : ℕ
  keep : Bool
  rounds : ℕ → Round Addr
  beyond : Addr → Bytes

def DeltaOp.run (S : Settings) (key : Bytes) (op : DeltaOp Addr) (s : Store Addr) :
    Store Addr × DeltaReply Addr :=
  doAddDeltaIn S op.beyond s key op.incr op.delta op.cas op.keep op.rounds

/-- From the number `n` on, the operations compute the numbers one after the other, until one
of them fails for another reason than the number. -/
def Computes (S : Settings) (key : Bytes) : Store Addr → ℕ → List (DeltaOp Addr) → Prop
  | _, _, [] => True
  | s, n, op :: ops =>
    (op.run S key s).2.result ≠ .nonNumeric ∧
      ((op.run S key s).2.result = .ok →
        (∃ a b, s.Linked a ∧ s.key a = key ∧
          DeltaStored s (op.run S key s).1 a b (deltaSpec n op.incr op.delta)
            (op.run S key s).2) ∧
        Computes S key (op.run S key s).1 (deltaSpec n op.incr op.delta) ops)

/-- What the operations meet: the item of the key is in memory in one piece, and no minus sign
follows it when its number is `2 ^ 63` or more. -/
def MeetsNoMinus (S : Settings) (key : Bytes) : Store Addr → ℕ → List (DeltaOp Addr) → Prop
  | _, _, [] => True
  | s, n, op :: ops =>
    CountsLow s ∧
      (∀ a, s.Linked a → s.key a = key →
        (s.items a).flags.chunked = false ∧ (s.items a).flags.hdr = false ∧
          (n < 2 ^ 63 ∨ hasMinus (op.beyond a) = false)) ∧
      ((op.run S key s).2.result = .ok →
        MeetsNoMinus S key (op.run S key s).1 (deltaSpec n op.incr op.delta) ops)

instance decidableMeetsNoMinus (S : Settings) (key : Bytes) :
    (s : Store Addr) → (n : ℕ) → (ops : List (DeltaOp Addr)) →
      Decidable (MeetsNoMinus S key s n ops)
  | _, _, [] => .isTrue trivial
  | s, n, op :: ops =>
    have := decidableMeetsNoMinus S key (op.run S key s).1 (deltaSpec n op.incr op.delta) ops
    inferInstanceAs (Decidable (_ ∧ (∀ _, _ → _ → _ ∧ _ ∧ (_ ∨ _)) ∧ (_ → _)))

/-! ## One operation -/

theorem applyDelta_eq_spec (n : ℕ) (incr : Bool) (delta : ℕ) :
    applyDelta n incr delta = deltaSpec n incr delta := by
  unfold applyDelta deltaSpec
  split_ifs
  · rfl
  · omega
  · rfl

theorem deltaSpec_lt (h : n < 2 ^ 64) (incr : Bool) (delta : ℕ) :
    deltaSpec n incr delta < 2 ^ 64 := by
  rw [← applyDelta_eq_spec]
  exact applyDelta_lt h incr delta

theorem decValue_itoaU64 (n : ℕ) : decValue (itoaU64 n) = n := by
  have hs : scanDigits (itoaU64 n ++ []) 0 = (decValue (itoaU64 n), []) :=
    scanDigits_digits (itoaU64_digits n) rfl 0
  have hb : scanNumber (itoaU64 n ++ []) = some (false, n, []) := scanNumber_itoaU64 n rfl
  obtain ⟨c, str, hst⟩ := List.exists_cons_of_ne_nil (itoaU64_ne_nil n)
  have hd : isDigit c = true := itoaU64_digits n c (by rw [hst]; exact .head _)
  rw [List.append_nil] at hs hb
  rw [hst, scanNumber_of_digit hd, ← hst, hs] at hb
  exact (Prod.mk.inj (Prod.mk.inj (Option.some.inj hb)).2).1

theorem paddedNumber_itoaU64 (h : n < 2 ^ 64) (k : ℕ) :
    PaddedNumber (itoaU64 n ++ List.replicate k 32) n :=
  ⟨h, itoaU64 n, k, rfl, itoaU64_ne_nil n, itoaU64_digits n, (decValue_itoaU64 n).symm⟩

section

variable {it : Item} (h : it.Holds n)
include h

theorem Item.Holds.reads (hn : n < 2 ^ 64) (beyond : Bytes) :
    safeStrtoull (it.data ++ beyond) = some n ↔ n < 2 ^ 63 ∨ hasMinus beyond = false := by
  obtain ⟨k, hk⟩ := h
  rw [hk, safeStrtoull_padded (paddedNumber_itoaU64 hn k)]
  exact and_iff_right rfl

theorem Item.Holds.drop : it.data.drop (it.nbytes - 2) = ascii "\r\n" := by
  obtain ⟨k, hk⟩ := h
  have hl : it.nbytes - 2 = (itoaU64 n ++ List.replicate k 32).length := by
    rw [Item.nbytes, hk, List.length_append]
    exact Nat.add_sub_cancel ..
  rw [hl, hk]
  exact List.drop_left

theorem Item.Holds.flat (hc : it.flags.chunked = false) (hh : it.flags.hdr = false) :
    ∃ k, it.Flat (itoaU64 n ++ List.replicate k 32) := by
  obtain ⟨k, hk⟩ := h
  exact ⟨k, hk, by simp [itoaU64_ne_nil n], hc, hh⟩

end

theorem deltaWith_ok (h : Inv S s) (hlt : CountsLow s) (hl : s.Linked a)
    (hen : (s.items a).data.drop ((s.items a).nbytes - 2) = ascii "\r\n") (hn : n < 2 ^ 64)
    (keep : Bool) (rounds : ℕ → Round Addr) (ho : (deltaWith S s a n keep rounds).2.result = .ok) :
    Inv S (deltaWith S s a n keep rounds).1 ∧
      ∃ b, DeltaStored s (deltaWith S s a n keep rounds).1 a b n
        (deltaWith S s a n keep rounds).2 := by
  have hh := holding_takeRef h hlt hl
  have hb : ∀ t : Store Addr, (deltaDone t a (itoaU64 n) keep).2.value = itoaU64 n := by
    intro t
    cases keep <;> rfl
  by_cases hf : FitsInPlace (s.items a) (itoaU64 n)
  · -- the number is written over the old one
    have heq : deltaWith S s a n keep rounds =
        deltaDone (deltaInPlace S (takeRef s a) a (itoaU64 n)) a (itoaU64 n) keep := if_pos hf
    rw [heq]
    obtain ⟨he, hre⟩ := deltaInPlace_edits hh (itoaU64 n) hf.1
    obtain ⟨-, hd⟩ := deltaDone_quiet (a := a) he.inv (by rw [hre]; exact hh.refs_pos)
      (itoaU64 n) keep
    have hl' := (hd.lost a ((he.linked a).mpr he.self)).resolve_right id
    have hc : ((deltaDone (deltaInPlace S (takeRef s a) a (itoaU64 n)) a (itoaU64 n)
        keep).1.items a).content = Item.content { s.items a with
          data := paddedData (s.items a) (itoaU64 n), casUnique := freshCas S s a } :=
      (hd.content a (hd.inv.not_slabbed_of_linked hl')).trans he.item
    have hda : ((deltaDone (deltaInPlace S (takeRef s a) a (itoaU64 n)) a (itoaU64 n)
        keep).1.items a).data = paddedData (s.items a) (itoaU64 n) :=
      (Item.proj_eq Item.data hc :)
    have hho : Item.Holds ((deltaDone (deltaInPlace S (takeRef s a) a (itoaU64 n)) a
        (itoaU64 n) keep).1.items a) n := by
      refine ⟨(s.items a).nbytes - (itoaU64 n).length - 2, ?_⟩
      rw [hda, paddedData, hen]
    refine ⟨hd.inv, a, hl', (Item.key_eq hc :), hho, hb _, ?_, ?_, hho.reads hn⟩
    · intro _
      rw [Item.nbytes, hda]
      exact length_paddedData hf.1
    · intro hno
      exact absurd hf hno
  · obtain ⟨s', hrep, -⟩ | ⟨s', new, it', hrep, hr, -⟩ := deltaReplace_spec hh (itoaU64 n) rounds
    · have heq : deltaWith S s a n keep rounds = (s', { result := .eom }) := by
        rw [deltaWith, if_neg hf, hrep]
      rw [heq] at ho
      cases ho
    -- a new item takes the place of the old one
    have heq : deltaWith S s a n keep rounds = deltaDone s' a (itoaU64 n) keep := by
      rw [deltaWith, if_neg hf, hrep]
    rw [heq]
    obtain ⟨-, hd⟩ := deltaDone_quiet hr.stores.inv hr.held (itoaU64 n) keep
    have hs := hr.stores.then_published hd.published
    have hda := hs.data_eq.trans hr.made.data
    have hho : Item.Holds ((deltaDone s' a (itoaU64 n) keep).1.items new) n := by
      refine ⟨0, ?_⟩
      rw [hda]
      simp
    refine ⟨hs.inv, new, hs.linked, hs.key_eq.trans hr.made.key, hho, hb _, ?_, ?_,
      hho.reads hn⟩
    · intro hi
      exact absurd hi hf
    · intro _
      rw [Item.nbytes, hda, List.length_append]
      rfl

/-- One operation on the item that holds a number: it does not fail for the number, and if it
does not fail, the next number is stored. -/
theorem DeltaOp.run_holds (h : Inv S s) (hlt : CountsLow s) (hl : s.Linked a)
    (hk : s.key a = key) (hh : (s.items a).Holds n) (hn : n < 2 ^ 64)
    (hc : (s.items a).flags.chunked = false) (hhd : (s.items a).flags.hdr = false)
    (op : DeltaOp Addr) (hre : n < 2 ^ 63 ∨ hasMinus (op.beyond a) = false) :
    (op.run S key s).2.result ≠ .nonNumeric ∧
      ((op.run S key s).2.result = .ok →
        Inv S (op.run S key s).1 ∧
          ∃ b, DeltaStored s (op.run S key s).1 a b (deltaSpec n op.incr op.delta)
            (op.run S key s).2) := by
  unfold DeltaOp.run
  by_cases hd : s.Dead a
  · -- an item that is over is not found
    have hm : s.Missing key := by
      intro b hb hkb
      rw [h.eq_of_key hb hl (hkb.trans hk.symm)]
      exact hd
    obtain ⟨s', hg, -⟩ := doItemGet_of_missing h hlt hm false false
    have he : doAddDeltaIn S op.beyond s key op.incr op.delta op.cas op.keep op.rounds =
        (s', { result := .itemNotFound }) := by
      simp only [doAddDeltaIn, hg]
    rw [he]
    exact ⟨by simp, by simp⟩
  · obtain ⟨k, hf⟩ := hh.flat hc hhd
    have hp : safeStrtoull (itoaU64 n ++ List.replicate k 32 ++ ascii "\r\n" ++ op.beyond a) =
        some n := (safeStrtoull_padded (paddedNumber_itoaU64 hn k) _ _).mpr ⟨rfl, hre⟩
    rw [doAddDeltaIn_of_hit h hlt ⟨hl, hk, hd⟩ hf, hp]
    simp only [applyDelta_eq_spec]
    split_ifs with hca
    · exact ⟨by simp, by simp⟩
    refine ⟨?_, fun ho => deltaWith_ok h hlt hl hh.drop (deltaSpec_lt hn _ _) _ _ ho⟩
    intro hba
    obtain hr | hr := deltaWith_result S s a (deltaSpec n op.incr op.delta) op.keep op.rounds
    · rw [hr] at hba
      cases hba
    · rw [hr] at hba
      cases hba

/-! ## Sequences -/

/-- From an item that holds the decimal form of a number with padding, every sequence of
increments and decrements that meets no minus sign behind a number of `2 ^ 63` or more
computes the numbers: each is stored and answered in decimal form, in an item of the same
length or of its own length, and can be read again. -/
theorem deltas_compute (h : Inv S s) (hl : s.Linked a) (hkey : s.key a = key)
    (hholds : (s.items a).Holds n) (hn : n < 2 ^ 64) (ops : List (DeltaOp Addr))
    (hmeets : MeetsNoMinus S key s n ops) : Computes S key s n ops := by
  induction ops generalizing s a n with
  | nil => trivial
  | cons op ops ih =>
    obtain ⟨hlt, hi, hne⟩ := hmeets
    obtain ⟨hc, hh, hr⟩ := hi a hl hkey
    obtain ⟨hnu, hs⟩ := op.run_holds h hlt hl hkey hholds hn hc hh hr
    refine ⟨hnu, fun ho => ?_⟩
    obtain ⟨hin, b, hb⟩ := hs ho
    exact ⟨⟨a, b, hl, hkey, hb⟩, ih hin hb.linked (hb.key.trans hkey) hb.holds
      (deltaSpec_lt hn _ _) (hne ho)⟩

/-- `incr n 1` and `decr n 20`, with nothing behind the items. -/
def upAndDown : List (DeltaOp (Fin 2)) :=
  [⟨true, 1, 0, false, slabAt 1, fun _ => []⟩, ⟨false, 20, 0, false, slabAt 0, fun _ => []⟩]

/-- The value 9 is incremented to 10, in a new item, and decremented to 0, in place. -/
theorem deltas_compute_up_and_down : ∃ s : Store (Fin 2), (s.items 0).Holds 9 ∧
    Computes smallSettings (ascii "n") s 9 upAndDown := by
  have hi := emptyStore_reachable 2 smallSettings fun s _ => CountsLow s
  obtain ⟨s, hs, hl, hk, hd, hm⟩ := hi.exists_of_exec numberOps
    (p := fun s => s.Linked 0 ∧ s.key 0 = ascii "n" ∧ (s.items 0).data = ascii "9\r\n" ∧
      MeetsNoMinus smallSettings (ascii "n") s 9 upAndDown) (by decide +kernel)
  have hin := reachable_inv (fun _ _ ho => ho) hs
  have hh : (s.items 0).Holds 9 := ⟨0, hd⟩
  exact ⟨s, hh, deltas_compute hin hl hk hh (by decide) upAndDown hm⟩

/-- `incr n 1`, with nothing behind the items and then with a minus sign behind them. -/
def upTwice : List (DeltaOp (Fin 2)) :=
  [⟨true, 1, 0, false, slabAt 1, fun _ => []⟩, ⟨true, 1, 0, false, slabAt 1, fun _ => ascii "-"⟩]

/-- The value `9223372036854775807` is incremented; with a minus sign behind the item the new
value is not read again, and a second increment fails. -/
theorem large_number_lost : ∃ s : Store (Fin 2),
    (system (Fin 2) smallSettings).Reachable (fun s _ => CountsLow s) s ∧ CountsLow s ∧
    s.Linked 0 ∧ s.key 0 = ascii "n" ∧ (s.items 0).Holds 9223372036854775807 ∧
    (incrN [] s).2.result = .ok ∧
    (incrN [] s).1.Linked 0 ∧
    safeStrtoull (((incrN [] s).1.items 0).data ++ ascii "-") = none ∧
    ¬Computes smallSettings (ascii "n") s 9223372036854775807 upTwice := by
  have hi := emptyStore_reachable 2 smallSettings fun s _ => CountsLow s
  obtain ⟨s, hs, hlow, hl, hk, hd, ho, hl', hlo, hf⟩ := hi.exists_of_exec
    (storeOps 0 (ascii "n") (ascii "9223372036854775807\r\n") 0 .set 0)
    (p := fun s => CountsLow s ∧ s.Linked 0 ∧ s.key 0 = ascii "n" ∧
      (s.items 0).data = itoaU64 9223372036854775807 ++ List.replicate 0 32 ++ ascii "\r\n" ∧
      (incrN [] s).2.result = .ok ∧
      (incrN [] s).1.Linked 0 ∧
      safeStrtoull (((incrN [] s).1.items 0).data ++ ascii "-") = none ∧
      (incrN (ascii "-") (incrN [] s).1).2.result = .nonNumeric) (by decide +kernel)
  refine ⟨s, hs, hlow, hl, hk, ⟨0, hd⟩, ho, hl', hlo, ?_⟩
  rintro ⟨-, hn⟩
  exact (hn ho).2.1 hf

end Memcached.Items
