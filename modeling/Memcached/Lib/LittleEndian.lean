import Mathlib.Tactic.Ring

/-!
# Numbers as bytes

Numbers of a fixed width, the lowest byte first.

Results:
* `ofLe_leBytes`: a number in range is read back.
-/

namespace Lib

/-- The number `v` in `width` bytes. -/
def leBytes : (width v : ℕ) → List UInt8
  | 0, _ => []
  | width + 1, v => UInt8.ofNat (v % 256) :: leBytes width (v / 256)

def ofLe : List UInt8 → ℕ
  | [] => 0
  | b :: bytes => b.toNat + 256 * ofLe bytes

@[simp] theorem length_leBytes (width v : ℕ) : (leBytes width v).length = width := by
  induction width generalizing v with
  | zero => rfl
  | succ width ih => rw [leBytes, List.length_cons, ih]

theorem ofLe_leBytes {width v : ℕ} (h : v < 256 ^ width) : ofLe (leBytes width v) = v := by
  induction width generalizing v with
  | zero =>
    rw [Nat.pow_zero] at h
    exact (Nat.lt_one_iff.mp h).symm
  | succ width ih =>
    have hd : v / 256 < 256 ^ width := by
      rw [Nat.div_lt_iff_lt_mul (by decide)]
      rwa [Nat.pow_succ] at h
    have hb : (UInt8.ofNat (v % 256)).toNat = v % 256 :=
      UInt8.toNat_ofNat_of_lt (Nat.mod_lt v (by decide))
    rw [leBytes, ofLe, ih hd, hb]
    exact Nat.mod_add_div v 256

end Lib
