/-
Multiplicative generators modulo a prime: each state is the one before times a
fixed multiplier.  With a multiplier of full order the states run through all
residues but zero, and return only after all of them.  Folding the high bits
onto the low ones reduces modulo `2 ^ k - 1`.
-/
import Mathlib.FieldTheory.Finite.Basic
import Mathlib.GroupTheory.OrderOfElement

namespace Lehmer

/-- Bits above `k` folded onto those below. -/
theorem fold_mod (k x : ℕ) :
    (x / 2 ^ k + x % 2 ^ k) % (2 ^ k - 1) = x % (2 ^ k - 1) := by
  have hone : 2 ^ k ≡ 1 [MOD 2 ^ k - 1] := by
    apply Nat.ModEq.symm
    apply (Nat.modEq_iff_dvd' Nat.one_le_two_pow).mpr
    exact dvd_refl _
  have hfold : 2 ^ k * (x / 2 ^ k) + x % 2 ^ k ≡
      1 * (x / 2 ^ k) + x % 2 ^ k [MOD 2 ^ k - 1] :=
    (hone.mul_right _).add_right _
  rw [Nat.div_add_mod, one_mul] at hfold
  exact hfold.symm

variable {p : ℕ} [Fact p.Prime] {a s : ZMod p}

/-- The states return after `p - 1` steps and no earlier. -/
theorem state_eq_iff (ha : orderOf a = p - 1) (hs : s ≠ 0) (m n : ℕ) :
    a ^ m * s = a ^ n * s ↔ m ≡ n [MOD p - 1] := by
  have hpos : 0 < p - 1 := Nat.sub_pos_of_lt (Fact.out : p.Prime).one_lt
  have hunit : a ≠ 0 := by
    rintro rfl
    have hzero : orderOf (0 : ZMod p) = 0 := by
      apply orderOf_eq_zero
      intro hfinite
      obtain ⟨k, hk, hone⟩ := isOfFinOrder_iff_pow_eq_one.mp hfinite
      rw [zero_pow hk.ne'] at hone
      exact zero_ne_one hone
    omega
  rw [mul_left_inj' hs, ← ha]
  have horder : orderOf (Units.mk0 a hunit) = orderOf a := by
    rw [← orderOf_units, Units.val_mk0]
  rw [← horder, ← pow_eq_pow_iff_modEq, Units.ext_iff]
  simp only [Units.val_pow_eq_pow_val, Units.val_mk0]

/-- Every residue but zero is a state. -/
theorem exists_state (ha : orderOf a = p - 1) (hs : s ≠ 0) {x : ZMod p}
    (hx : x ≠ 0) : ∃ n < p - 1, a ^ n * s = x := by
  have hcard : (Finset.univ.erase (0 : ZMod p)).card = p - 1 := by
    rw [Finset.card_erase_of_mem (Finset.mem_univ _), Finset.card_univ,
      ZMod.card]
  have hpos : 0 < p - 1 := Nat.sub_pos_of_lt (Fact.out : p.Prime).one_lt
  have hpow (n : ℕ) : a ^ n * s ≠ 0 := by
    apply mul_ne_zero _ hs
    apply pow_ne_zero
    rintro rfl
    have hback := (state_eq_iff ha hs 0 (p - 1)).mpr (by simp [Nat.ModEq])
    rw [pow_zero, one_mul, zero_pow hpos.ne', zero_mul] at hback
    exact hs hback
  -- As many states as residues, and no two of them equal.
  have hinj : Set.InjOn (fun n => a ^ n * s) (Finset.range (p - 1)) := by
    intro m hm n hn heq
    have hmod := (state_eq_iff ha hs m n).mp heq
    rw [Nat.ModEq, Nat.mod_eq_of_lt (Finset.mem_range.mp hm),
      Nat.mod_eq_of_lt (Finset.mem_range.mp hn)] at hmod
    exact hmod
  have hsurj := Finset.surj_on_of_inj_on_of_card_le
    (s := Finset.range (p - 1)) (t := Finset.univ.erase (0 : ZMod p))
    (fun n _ => a ^ n * s) (fun n _ => by simp [hpow n])
    (fun m n hm hn heq => hinj hm hn heq) (by simp [hcard]) x (by simp [hx])
  obtain ⟨n, hn, heq⟩ := hsurj
  exact ⟨n, Finset.mem_range.mp hn, heq.symm⟩

end Lehmer
