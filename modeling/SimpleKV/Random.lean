/-
`Random` of `structure/random.h` and `RandomHeight` of the skip list.  A product
is reduced modulo the prime 2^31 - 1 by adding its high bits to its low ones.
The generator goes through all values from 1 to 2^31 - 2 before it repeats, and
heights stay between 1 and `kMaxHeight`.
-/
import Mathlib.NumberTheory.LucasPrimality
import Mathlib.Tactic.ReduceModChar
import Mathlib.Tactic.NormNum
import Mathlib.Tactic.Simproc.Factors
import SimpleKV.Lib.Lehmer
import SimpleKV.SkipListNodes

namespace SimpleKV

/-- `seed_`. -/
structure Random where
  seed : UInt32
deriving DecidableEq

namespace Random

/-- `M`. -/
def modulus : UInt32 := 2147483647

/-- `A`. -/
def multiplier : UInt64 := 16807

/-- `Random::Random`. -/
def new (s : UInt32) : Random :=
  let seed := s &&& 0x7fffffff
  ⟨if seed = 0 ∨ seed = 2147483647 then 1 else seed⟩

/-- `Next`; the value returned is the new seed. -/
def next (random : Random) : Random :=
  let product := random.seed.toUInt64 * multiplier
  let seed := ((product >>> 31) + (product &&& modulus.toUInt64)).toUInt32
  ⟨if modulus < seed then seed - modulus else seed⟩

/-- The loop of `RandomHeight`, which `rounds` more heights end. -/
def randomHeightLoop : Nat → Nat → Random → Nat × Random
  | 0, height, random => (height, random)
  | rounds + 1, height, random =>
      let random := random.next
      if random.seed % 4 = 0 then randomHeightLoop rounds (height + 1) random
      else (height, random)

/-- `RandomHeight`. -/
def randomHeight (random : Random) : Nat × Random :=
  randomHeightLoop (kMaxHeight - 1) 1 random

/-- The seeds of a generator. -/
def Valid (random : Random) : Prop :=
  0 < random.seed.toNat ∧ random.seed.toNat < 2 ^ 31 - 1

theorem valid_new (s : UInt32) : (new s).Valid := by
  have hlt : (s &&& 0x7fffffff).toNat < 2 ^ 31 := by
    rw [UInt32.toNat_and]
    exact Nat.and_lt_two_pow _ (by decide)
  rw [Valid, new]
  dsimp only
  split_ifs with hbad
  · decide
  · rw [not_or, ← UInt32.toNat_inj, ← UInt32.toNat_inj] at hbad
    have hzero : (0 : UInt32).toNat = 0 := rfl
    have htop : (2147483647 : UInt32).toNat = 2 ^ 31 - 1 := rfl
    omega

theorem multiplier_pow :
    (16807 : ZMod 2147483647) ^ (2147483647 - 1) = 1 := by
  reduce_mod_char

theorem multiplier_pow_div {q : ℕ} (hq : q.Prime) (hdvd : q ∣ 2147483647 - 1) :
    (16807 : ZMod 2147483647) ^ ((2147483647 - 1) / q) ≠ 1 := by
  have hmem : q ∈ Nat.primeFactorsList 2147483646 :=
    (Nat.mem_primeFactorsList (by decide)).mpr ⟨hq, hdvd⟩
  have hfactors : Nat.primeFactorsList 2147483646 =
      [2, 3, 3, 7, 11, 31, 151, 331] := by simp
  rw [hfactors] at hmem
  simp only [List.mem_cons, List.not_mem_nil, or_false] at hmem
  rcases hmem with rfl | rfl | rfl | rfl | rfl | rfl | rfl | rfl <;>
    norm_num only <;> reduce_mod_char <;> decide

theorem prime_modulus : Nat.Prime 2147483647 :=
  lucas_primality _ 16807 multiplier_pow fun _ => multiplier_pow_div

theorem orderOf_multiplier :
    orderOf (16807 : ZMod 2147483647) = 2147483647 - 1 :=
  orderOf_eq_of_pow_and_pow_div_prime (by decide) multiplier_pow
    fun _ => multiplier_pow_div

instance : Fact (Nat.Prime 2147483647) := ⟨prime_modulus⟩

theorem folded_lt {x : ℕ} (hx : x < 2 ^ 31) :
    x * 16807 / 2 ^ 31 + x * 16807 % 2 ^ 31 < 2147483647 + 2147483647 := by
  omega

/-- The reduced product before the last subtraction. -/
theorem toNat_folded {seed : UInt32} (hseed : seed.toNat < 2 ^ 31) :
    (((seed.toUInt64 * multiplier) >>> 31) +
      ((seed.toUInt64 * multiplier) &&& modulus.toUInt64)).toUInt32.toNat =
    seed.toNat * 16807 / 2 ^ 31 + seed.toNat * 16807 % 2 ^ 31 := by
  have hproduct : (seed.toUInt64 * multiplier).toNat = seed.toNat * 16807 := by
    have hmultiplier : multiplier.toNat = 16807 := rfl
    rw [UInt64.toNat_mul, UInt32.toNat_toUInt64, hmultiplier]
    exact Nat.mod_eq_of_lt (by omega)
  have hhigh : ((seed.toUInt64 * multiplier) >>> 31).toNat =
      seed.toNat * 16807 / 2 ^ 31 := by
    rw [UInt64.toNat_shiftRight, hproduct, Nat.shiftRight_eq_div_pow]
    rfl
  have hlow : ((seed.toUInt64 * multiplier) &&& modulus.toUInt64).toNat =
      seed.toNat * 16807 % 2 ^ 31 := by
    rw [UInt64.toNat_and, hproduct]
    exact Nat.and_two_pow_sub_one_eq_mod _ 31
  have hsum : seed.toNat * 16807 / 2 ^ 31 + seed.toNat * 16807 % 2 ^ 31 <
      2 ^ 32 := (folded_lt hseed).trans (by decide)
  rw [UInt64.toNat_toUInt32, UInt64.toNat_add, hhigh, hlow,
    Nat.mod_eq_of_lt (hsum.trans (by decide)), Nat.mod_eq_of_lt hsum]

theorem Valid.not_dvd {random : Random} (h : random.Valid) (k : ℕ) :
    ¬ 2147483647 ∣ random.seed.toNat * 16807 ^ k := by
  intro hdvd
  rcases prime_modulus.dvd_mul.mp hdvd with hseed | hpow
  · exact absurd (Nat.le_of_dvd h.1 hseed) (not_le.mpr h.2)
  · have hbase := prime_modulus.dvd_of_dvd_pow hpow
    exact absurd hbase (by decide)

/-- `Next` multiplies modulo the prime. -/
theorem Valid.toNat_next {random : Random} (h : random.Valid) :
    random.next.seed.toNat = random.seed.toNat * 16807 % 2147483647 := by
  have hlt : random.seed.toNat < 2 ^ 31 := h.2.trans (by decide)
  have hfolded := toNat_folded hlt
  have hmod : (random.seed.toNat * 16807 / 2 ^ 31 +
      random.seed.toNat * 16807 % 2 ^ 31) % 2147483647 =
        random.seed.toNat * 16807 % 2147483647 :=
    Lehmer.fold_mod 31 (random.seed.toNat * 16807)
  have hnot := h.not_dvd 1
  rw [pow_one, Nat.dvd_iff_mod_eq_zero] at hnot
  rw [next]
  dsimp only
  have htop : modulus.toNat = 2147483647 := rfl
  generalize hseed : (((random.seed.toUInt64 * multiplier) >>> 31) +
    ((random.seed.toUInt64 * multiplier) &&& modulus.toUInt64)).toUInt32 = seed
    at hfolded ⊢
  -- The sum is below twice the modulus and no multiple of it.
  rw [← hfolded] at hmod
  have hsmall : seed.toNat < 2147483647 + 2147483647 :=
    hfolded ▸ folded_lt hlt
  split_ifs with hover
  · rw [UInt32.lt_iff_toNat_lt, htop] at hover
    rw [UInt32.toNat_sub_of_le _ _ (UInt32.le_iff_toNat_le.mpr
      (htop.le.trans hover.le)), htop, ← hmod, Nat.mod_eq_sub_mod hover.le]
    exact (Nat.mod_eq_of_lt (Nat.sub_lt_left_of_lt_add hover.le hsmall)).symm
  · rw [UInt32.lt_iff_toNat_lt, htop] at hover
    have hne : seed.toNat ≠ 2147483647 := by
      intro heq
      rw [heq, Nat.mod_self] at hmod
      exact hnot hmod.symm
    rw [← hmod]
    exact (Nat.mod_eq_of_lt (lt_of_le_of_ne (not_lt.mp hover) hne)).symm

theorem Valid.next {random : Random} (h : random.Valid) : random.next.Valid := by
  have hnot := h.not_dvd 1
  rw [pow_one, Nat.dvd_iff_mod_eq_zero] at hnot
  rw [Valid, h.toNat_next]
  exact ⟨Nat.pos_of_ne_zero hnot, Nat.mod_lt _ (by decide)⟩

theorem Valid.iterate {random : Random} (h : random.Valid) (n : ℕ) :
    (Random.next^[n] random).Valid ∧
      ((Random.next^[n] random).seed.toNat : ZMod 2147483647) =
        16807 ^ n * random.seed.toNat := by
  induction n with
  | zero => exact ⟨h, by simp⟩
  | succ n ih =>
      obtain ⟨hvalid, hseed⟩ := ih
      rw [Function.iterate_succ_apply']
      refine ⟨hvalid.next, ?_⟩
      rw [hvalid.toNat_next, ZMod.natCast_mod, Nat.cast_mul, hseed, pow_succ]
      push_cast
      ring

theorem Valid.seed_ne_zero {random : Random} (h : random.Valid) :
    (random.seed.toNat : ZMod 2147483647) ≠ 0 := by
  intro hzero
  have hdvd := (ZMod.natCast_eq_zero_iff _ _).mp hzero
  exact h.not_dvd 0 (by simpa using hdvd)

/-- Seeds are told apart modulo the prime. -/
theorem Valid.ext_iff {left right : Random} (hleft : left.Valid)
    (hright : right.Valid) :
    left = right ↔ (left.seed.toNat : ZMod 2147483647) = right.seed.toNat := by
  constructor
  · rintro rfl
    rfl
  · intro heq
    have hmod := (ZMod.natCast_eq_natCast_iff' _ _ _).mp heq
    rw [Nat.mod_eq_of_lt (by have := hleft.2; omega),
      Nat.mod_eq_of_lt (by have := hright.2; omega)] at hmod
    cases left
    cases right
    exact congrArg Random.mk (UInt32.toNat_inj.mp hmod)

/-- From every seed the generator goes through all values from 1 to 2^31 - 2
before it comes back: the state after `n` calls is `16807 ^ n` times the first
one, and two states are equal only 2^31 - 2 calls apart. -/
theorem random_full_period (s : UInt32) :
    (∀ n, (Random.next^[n] (new s)).seed.toNat =
      16807 ^ n * (new s).seed.toNat % 2147483647) ∧
    (∀ m n, Random.next^[m] (new s) = Random.next^[n] (new s) ↔
      m ≡ n [MOD 2147483646]) ∧
    ∀ value : UInt32, 0 < value.toNat → value.toNat < 2147483647 →
      ∃ n < 2147483646, (Random.next^[n] (new s)).seed = value := by
  have hvalid := valid_new s
  refine ⟨fun n => ?_, fun m n => ?_, fun value hpos hlt => ?_⟩
  · obtain ⟨hstate, hseed⟩ := hvalid.iterate n
    have hcast : ((Random.next^[n] (new s)).seed.toNat : ZMod 2147483647) =
        ((16807 ^ n * (new s).seed.toNat : ℕ) : ZMod 2147483647) := by
      rw [hseed]
      push_cast
      rfl
    have hmod := (ZMod.natCast_eq_natCast_iff' _ _ _).mp hcast
    rwa [Nat.mod_eq_of_lt (by have := hstate.2; omega)] at hmod
  · obtain ⟨hm, hmseed⟩ := hvalid.iterate m
    obtain ⟨hn, hnseed⟩ := hvalid.iterate n
    rw [hm.ext_iff hn, hmseed, hnseed]
    exact Lehmer.state_eq_iff orderOf_multiplier hvalid.seed_ne_zero m n
  · have hother : (Random.mk value).Valid := ⟨hpos, hlt⟩
    obtain ⟨n, hn, hstate⟩ := Lehmer.exists_state orderOf_multiplier
      hvalid.seed_ne_zero hother.seed_ne_zero
    obtain ⟨hnext, hseed⟩ := hvalid.iterate n
    refine ⟨n, hn, congrArg Random.seed ((hnext.ext_iff hother).mpr ?_)⟩
    rw [hseed, hstate]

theorem randomHeightLoop_spec (rounds height : ℕ) {random : Random}
    (h : random.Valid) :
    height ≤ (randomHeightLoop rounds height random).1 ∧
      (randomHeightLoop rounds height random).1 ≤ height + rounds ∧
      (randomHeightLoop rounds height random).2.Valid := by
  induction rounds generalizing height random with
  | zero => exact ⟨le_refl _, le_refl _, h⟩
  | succ rounds ih =>
      rw [randomHeightLoop]
      split_ifs
      · obtain ⟨hle, hbound, hvalid⟩ := ih (height + 1) h.next
        exact ⟨by omega, by omega, hvalid⟩
      · exact ⟨le_refl _, Nat.le_add_right _ _, h.next⟩

/-- `RandomHeight` passes its assertions. -/
theorem randomHeight_spec {random : Random} (h : random.Valid) :
    1 ≤ random.randomHeight.1 ∧ random.randomHeight.1 ≤ kMaxHeight ∧
      random.randomHeight.2.Valid :=
  randomHeightLoop_spec (kMaxHeight - 1) 1 h

end Random

end SimpleKV
