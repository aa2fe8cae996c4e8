/-
Numbers as bytes of seven bits each, low bits first, every byte but the last
with its high bit set, and loops that read them into a machine word.
-/
import Mathlib.Data.List.Basic
import Mathlib.Tactic.Ring

namespace Leb128

/-- The bytes of a number. -/
def groups (n : ℕ) : List UInt8 :=
  if n < 128 then [UInt8.ofNat n]
  else UInt8.ofNat (n % 128 + 128) :: groups (n / 128)

/-- The number that bytes stand for. -/
def value : List UInt8 → ℕ
  | [] => 0
  | byte :: bytes => byte.toNat % 128 + 128 * value bytes

/-- The bytes up to the first one with its high bit clear, which has to come
among the first `n`. -/
def cut : ℕ → List UInt8 → Option (List UInt8)
  | n + 1, byte :: bytes =>
      if 128 ≤ byte.toNat then (cut n bytes).map (byte :: ·) else some [byte]
  | _, _ => none

theorem toNat_ofNat {n : ℕ} (hn : n < 256) : (UInt8.ofNat n).toNat = n := by
  rw [UInt8.toNat_ofNat', Nat.mod_eq_of_lt hn]

/-- Bit 7 of a byte is its continuation flag. -/
theorem and_128_ne_zero_iff (byte : UInt8) :
    byte &&& 128 ≠ 0 ↔ 128 ≤ byte.toNat := by
  have hall : ∀ i : Fin 256, (i.val &&& 128 ≠ 0) ↔ 128 ≤ i.val := by
    decide +kernel
  have hbyte := hall ⟨byte.toNat, byte.toNat_lt⟩
  rw [← hbyte, ne_eq, ne_eq, ← UInt8.toNat_inj, UInt8.toNat_and]
  rfl

theorem toNat_and_127 (byte : UInt8) :
    (byte &&& 127).toNat = byte.toNat % 128 := by
  rw [UInt8.toNat_and]
  exact Nat.and_two_pow_sub_one_eq_mod byte.toNat 7

theorem groups_of_lt {n : ℕ} (hn : n < 128) : groups n = [UInt8.ofNat n] := by
  rw [groups, if_pos hn]

theorem groups_of_le {n : ℕ} (hn : 128 ≤ n) :
    groups n = UInt8.ofNat (n % 128 + 128) :: groups (n / 128) := by
  rw [groups, if_neg (not_lt.mpr hn)]

theorem value_groups (n : ℕ) : value (groups n) = n := by
  induction n using groups.induct with
  | case1 n hn =>
      rw [groups_of_lt hn, value, value, toNat_ofNat (by omega)]
      omega
  | case2 n hn ih =>
      rw [groups_of_le (not_lt.mp hn), value, ih, toNat_ofNat (by omega)]
      omega

theorem length_groups_pos (n : ℕ) : 1 ≤ (groups n).length := by
  rw [groups]
  split_ifs <;> simp

theorem length_groups_le {k n : ℕ} (hn : n < 128 ^ (k + 1)) :
    (groups n).length ≤ k + 1 := by
  induction k generalizing n with
  | zero =>
      rw [groups_of_lt (by simpa using hn)]
      simp
  | succ k ih =>
      by_cases hlt : n < 128
      · rw [groups_of_lt hlt]
        simp
      · have hrest : n / 128 < 128 ^ (k + 1) := by
          rw [Nat.div_lt_iff_lt_mul (by decide), ← Nat.pow_succ]
          exact hn
        have hlength := ih hrest
        rw [groups_of_le (not_lt.mp hlt), List.length_cons]
        omega

theorem value_lt (bytes : List UInt8) : value bytes < 2 ^ (7 * bytes.length) := by
  induction bytes with
  | nil => simp [value]
  | cons byte bytes ih =>
      have hbyte := Nat.mod_lt byte.toNat (show 0 < 128 by decide)
      simp only [value, List.length_cons, Nat.mul_add, Nat.pow_add]
      omega

theorem cut_groups (n : ℕ) {k : ℕ} (rest : List UInt8)
    (hk : (groups n).length ≤ k) : cut k (groups n ++ rest) = some (groups n) := by
  induction n using groups.induct generalizing k with
  | case1 n hn =>
      rw [groups_of_lt hn] at hk ⊢
      obtain ⟨k, rfl⟩ := Nat.exists_eq_add_of_le' hk
      rw [List.length_singleton, List.singleton_append, cut, if_neg]
      rw [toNat_ofNat (by omega)]
      omega
  | case2 n hn ih =>
      rw [groups_of_le (not_lt.mp hn)] at hk ⊢
      obtain ⟨k, rfl⟩ := Nat.exists_eq_add_of_le' hk
      rw [List.length_cons, ← Nat.add_assoc, List.cons_append, cut, if_pos,
        ih (by omega), Option.map_some]
      rw [toNat_ofNat (by omega)]
      omega

theorem cut_groups_eq_none (n : ℕ) {k : ℕ} (rest : List UInt8)
    (hk : k < (groups n).length) : cut k (groups n ++ rest) = none := by
  induction n using groups.induct generalizing k with
  | case1 n hn =>
      rw [groups_of_lt hn, List.length_singleton] at hk
      obtain rfl : k = 0 := by omega
      rfl
  | case2 n hn ih =>
      rw [groups_of_le (not_lt.mp hn)] at hk ⊢
      cases k with
      | zero => rfl
      | succ k =>
          rw [List.length_cons] at hk
          rw [List.cons_append, cut, if_pos, ih (by omega), Option.map_none]
          rw [toNat_ofNat (by omega)]
          omega

/-- A cut fails exactly when the high bit is set as far as it looks. -/
theorem cut_eq_none_iff {k : ℕ} {bytes : List UInt8} :
    cut k bytes = none ↔ ∀ byte ∈ bytes.take k, 128 ≤ byte.toNat := by
  induction bytes generalizing k with
  | nil => simp [cut]
  | cons head bytes ih =>
      cases k with
      | zero => simp [cut]
      | succ k =>
          rw [cut, List.take_succ_cons]
          by_cases hhead : 128 ≤ head.toNat
          · simp [hhead, ih]
          · simp [hhead]

theorem cut_eq_some_iff {k : ℕ} {data bytes : List UInt8} :
    cut k data = some bytes ↔
      ∃ front last rest, data = bytes ++ rest ∧ bytes = front ++ [last] ∧
        (∀ byte ∈ front, 128 ≤ byte.toNat) ∧ last.toNat < 128 ∧
        bytes.length ≤ k := by
  induction data generalizing k bytes with
  | nil =>
      simp only [cut, reduceCtorEq, false_iff]
      rintro ⟨front, last, rest, hdata, rfl, _⟩
      simp at hdata
  | cons head data ih =>
      cases k with
      | zero =>
          simp only [cut, reduceCtorEq, false_iff]
          rintro ⟨front, last, rest, _, rfl, _, _, hlength⟩
          simp at hlength
      | succ k =>
          rw [cut]
          by_cases hhead : 128 ≤ head.toNat
          · rw [if_pos hhead, Option.map_eq_some_iff]
            constructor
            · rintro ⟨tail, htail, rfl⟩
              obtain ⟨front, last, rest, rfl, rfl, hfront, hlast, hlength⟩ :=
                ih.mp htail
              refine ⟨head :: front, last, rest, rfl, rfl, ?_, hlast, ?_⟩
              · simpa using ⟨hhead, hfront⟩
              · simpa using hlength
            · rintro ⟨front, last, rest, hdata, rfl, hfront, hlast, hlength⟩
              cases front with
              | nil =>
                  simp only [List.nil_append, List.cons_append,
                    List.cons.injEq] at hdata
                  rw [← hdata.1] at hlast
                  omega
              | cons first front =>
                  simp only [List.cons_append, List.cons.injEq] at hdata
                  obtain ⟨rfl, rfl⟩ := hdata
                  refine ⟨front ++ [last], ih.mpr ⟨front, last, rest, rfl, rfl,
                    fun byte hbyte => hfront byte (List.mem_cons_of_mem _ hbyte),
                    hlast, ?_⟩, rfl⟩
                  simpa using hlength
          · rw [if_neg hhead, Option.some.injEq]
            constructor
            · rintro rfl
              exact ⟨[], head, data, rfl, rfl, by simp, by omega, by simp⟩
            · rintro ⟨front, last, rest, hdata, rfl, hfront, hlast, hlength⟩
              cases front with
              | nil =>
                  simp only [List.nil_append, List.cons_append,
                    List.cons.injEq] at hdata
                  rw [hdata.1]
                  rfl
              | cons first front =>
                  simp only [List.cons_append, List.cons.injEq] at hdata
                  have hfirst := hfront first List.mem_cons_self
                  rw [← hdata.1] at hfirst
                  exact absurd hfirst hhead

/-- Or-ing a group in above the bits read so far, with the bits that fall off
the top lost. -/
theorem or_shiftLeft_mod {result shift w : ℕ} (group : ℕ) (hshift : shift ≤ w)
    (hresult : result < 2 ^ shift) :
    result ||| (group <<< shift % 2 ^ w) =
      (result + group * 2 ^ shift) % 2 ^ w := by
  have hsplit : (2 : ℕ) ^ w = 2 ^ shift * 2 ^ (w - shift) := by
    rw [← Nat.pow_add, Nat.add_sub_cancel' hshift]
  have hgroup : group * 2 ^ shift % 2 ^ w =
      2 ^ shift * (group % 2 ^ (w - shift)) := by
    rw [hsplit, Nat.mul_comm group, Nat.mul_mod_mul_left]
  have hlow : (result + group * 2 ^ shift) % 2 ^ w =
      2 ^ shift * (group % 2 ^ (w - shift)) + result := by
    rw [hsplit, Nat.mod_mul, Nat.add_mul_mod_self_right,
      Nat.mod_eq_of_lt hresult, Nat.add_mul_div_right _ _ (Nat.two_pow_pos _),
      Nat.div_eq_of_lt hresult, Nat.zero_add, Nat.add_comm]
  rw [Nat.shiftLeft_eq, hgroup, hlow, Nat.or_comm,
    ← Nat.two_pow_add_eq_or_of_lt hresult]

theorem add_group_lt {result group shift : ℕ} (hresult : result < 2 ^ shift)
    (hgroup : group < 128) : result + group * 2 ^ shift < 2 ^ (shift + 7) := by
  have hle : (group + 1) * 2 ^ shift ≤ 128 * 2 ^ shift :=
    Nat.mul_le_mul_right _ hgroup
  rw [Nat.pow_add, Nat.mul_comm (2 ^ shift)]
  rw [Nat.add_mul] at hle
  omega

/-- One more group on top of a partial sum. -/
theorem add_group (result group tail shift w : ℕ) :
    ((result + group * 2 ^ shift) % 2 ^ w + tail * 2 ^ (shift + 7)) % 2 ^ w =
      (result + (group + 128 * tail) * 2 ^ shift) % 2 ^ w := by
  rw [Nat.mod_add_mod, Nat.pow_add]
  congr 1
  ring

/-- A reader that collects groups in a register: `read k` has taken `k` of them
and looks at no more than `limit` bytes and no group past `most`. -/
structure Collects {V : Type} (toNat : V → ℕ) (w most : ℕ)
    (read : ℕ → List UInt8 → ℕ → V → Option (ℕ × V))
    (push : ℕ → V → UInt8 → V) : Prop where
  nil : ∀ k limit v, read k [] limit v = none
  zero : ∀ k bytes v, read k bytes 0 v = none
  last : ∀ bytes limit v, read most bytes limit v = none
  push_eq : ∀ k < most, ∀ v byte, toNat v < 2 ^ (7 * k) →
    toNat (push k v byte) =
      (toNat v + byte.toNat % 128 * 2 ^ (7 * k)) % 2 ^ w
  cons : ∀ k < most, ∀ byte bytes limit v,
    read k (byte :: bytes) (limit + 1) v =
      if 128 ≤ byte.toNat then
        (read (k + 1) bytes limit (push k v byte)).map fun r => (r.1 + 1, r.2)
      else some (1, push k v byte)

/-- Such a reader cuts a number off and keeps its low `w` bits. -/
theorem Collects.read_eq_cut {V : Type} {toNat : V → ℕ} {w most : ℕ}
    {read : ℕ → List UInt8 → ℕ → V → Option (ℕ × V)}
    {push : ℕ → V → UInt8 → V} (h : Collects toNat w most read push)
    (hinj : Function.Injective toNat) {ofNat : ℕ → V}
    (hofNat : ∀ n, toNat (ofNat n) = n % 2 ^ w) (bytes : List UInt8) {k : ℕ}
    (hk : k ≤ most) (limit : ℕ) {v : V} (hv : toNat v < 2 ^ (7 * k)) :
    read k bytes limit v =
      (cut (min limit (most - k)) bytes).map fun front =>
        (front.length, ofNat (toNat v + value front * 2 ^ (7 * k))) := by
  induction bytes generalizing k limit v with
  | nil => simp [h.nil, cut]
  | cons byte bytes ih =>
      cases limit with
      | zero => simp [h.zero, cut]
      | succ limit =>
          rcases Nat.eq_or_lt_of_le hk with rfl | hlt
          · simp [h.last, cut]
          · have hpush := h.push_eq k hlt v byte hv
            have hmin : min (limit + 1) (most - k) =
                min limit (most - (k + 1)) + 1 := by
              omega
            rw [h.cons k hlt, hmin, cut]
            by_cases hflag : 128 ≤ byte.toNat
            · have hbound : toNat (push k v byte) < 2 ^ (7 * (k + 1)) := by
                rw [hpush, Nat.mul_add]
                exact lt_of_le_of_lt (Nat.mod_le _ _)
                  (add_group_lt hv (Nat.mod_lt _ (by decide)))
              have hsum (tail : ℕ) : ofNat (toNat (push k v byte) +
                  tail * 2 ^ (7 * (k + 1))) = ofNat (toNat v +
                    (byte.toNat % 128 + 128 * tail) * 2 ^ (7 * k)) := by
                apply hinj
                rw [hofNat, hofNat, hpush, Nat.mul_add]
                exact add_group _ _ _ _ _
              rw [if_pos hflag, if_pos hflag, ih hlt limit hbound,
                Option.map_map, Option.map_map]
              congr 1
              funext front
              simp only [Function.comp_apply, List.length_cons, value, hsum]
            · rw [if_neg hflag, if_neg hflag, Option.map_some,
                Option.some.injEq, Prod.mk.injEq]
              refine ⟨rfl, hinj ?_⟩
              rw [hofNat, hpush, value, value, Nat.mul_zero, Nat.add_zero]

/-- A machine word of `w` bits, as far as a reader of groups uses it. -/
structure Word {V : Type} (toNat : V → ℕ) (w : ℕ) (join : V → V → V)
    (shl : V → UInt32 → V) (widen : UInt8 → V) : Prop where
  injective : Function.Injective toNat
  toNat_join : ∀ a b, toNat (join a b) = toNat a ||| toNat b
  toNat_shl : ∀ a (shift : UInt32), shift.toNat < w →
    toNat (shl a shift) = toNat a <<< shift.toNat % 2 ^ w
  toNat_widen : ∀ byte, toNat (widen byte) = byte.toNat

/-- The loop that reads groups into a word, up to a shift of `top`. -/
structure ReadLoop {V : Type} (join : V → V → V) (shl : V → UInt32 → V)
    (widen : UInt8 → V) (top : UInt32)
    (read : List UInt8 → ℕ → UInt32 → V → Option (ℕ × V)) : Prop where
  nil : ∀ limit shift v, read [] limit shift v = none
  zero : ∀ bytes shift v, read bytes 0 shift v = none
  cons : ∀ byte bytes limit shift v, read (byte :: bytes) (limit + 1) shift v =
    if shift ≤ top then
      if byte &&& 128 ≠ 0 then
        (read bytes limit (shift + 7)
          (join v (shl (widen (byte &&& 127)) shift))).map
          fun r => (r.1 + 1, r.2)
      else some (1, join v (shl (widen byte) shift))
    else none

section Word

variable {V : Type} {toNat : V → ℕ} {w : ℕ} {join : V → V → V}
  {shl : V → UInt32 → V} {widen : UInt8 → V}

/-- Or-ing a group in above the bits read so far, with the bits that fall off
the top lost. -/
theorem Word.toNat_push (h : Word toNat w join shl widen) (v group : V)
    {shift : UInt32} (hshift : shift.toNat < w)
    (hv : toNat v < 2 ^ shift.toNat) :
    toNat (join v (shl group shift)) =
      (toNat v + toNat group * 2 ^ shift.toNat) % 2 ^ w := by
  rw [h.toNat_join, h.toNat_shl _ _ hshift]
  exact or_shiftLeft_mod (toNat group) hshift.le hv

/-- The loop collects as many groups as `top` leaves shifts. -/
theorem ReadLoop.collects {top : UInt32}
    {read : List UInt8 → ℕ → UInt32 → V → Option (ℕ × V)}
    (h : ReadLoop join shl widen top read)
    (hword : Word toNat w join shl widen) (htop : top.toNat < w)
    (hw : w + 7 ≤ 2 ^ 32) {most : ℕ} (hmost : top.toNat < 7 * most)
    (hleast : 7 * most ≤ top.toNat + 7) :
    Collects toNat w most
      (fun k bytes limit v => read bytes limit (UInt32.ofNat (7 * k)) v)
      (fun k v byte =>
        join v (shl (widen (byte &&& 127)) (UInt32.ofNat (7 * k)))) := by
  have hshift : ∀ k ≤ most, (UInt32.ofNat (7 * k)).toNat = 7 * k := by
    intro k hk
    rw [UInt32.toNat_ofNat', Nat.mod_eq_of_lt (by omega)]
  refine ⟨fun k limit v => h.nil limit _ v, fun k bytes v => h.zero bytes _ v,
    ?_, ?_, ?_⟩
  · intro bytes limit v
    cases bytes with
    | nil => exact h.nil limit _ v
    | cons byte bytes =>
        cases limit with
        | zero => exact h.zero _ _ v
        | succ limit =>
            rw [h.cons, if_neg]
            rw [UInt32.le_iff_toNat_le, hshift most le_rfl]
            omega
  · intro k hk v byte hv
    have hk' := hshift k hk.le
    rw [hword.toNat_push v _ (by omega) (by rwa [hk']), hk',
      hword.toNat_widen, toNat_and_127]
  · intro k hk byte bytes limit v
    have hgo : UInt32.ofNat (7 * k) ≤ top := by
      rw [UInt32.le_iff_toNat_le, hshift k hk.le]
      omega
    have hnext : UInt32.ofNat (7 * k) + 7 = UInt32.ofNat (7 * (k + 1)) := by
      rw [Nat.mul_add, UInt32.ofNat_add]
      rfl
    rw [h.cons, if_pos hgo, hnext]
    by_cases hflag : 128 ≤ byte.toNat
    · rw [if_pos ((and_128_ne_zero_iff byte).mpr hflag), if_pos hflag]
    · have hbyte : byte &&& 127 = byte := by
        apply UInt8.toNat_inj.mp
        rw [toNat_and_127, Nat.mod_eq_of_lt (not_le.mp hflag)]
      rw [if_neg (fun h => hflag ((and_128_ne_zero_iff byte).mp h)),
        if_neg hflag, hbyte]

/-- Started at shift 0, it cuts a number off and keeps its low `w` bits. -/
theorem ReadLoop.read_eq_cut {top : UInt32}
    {read : List UInt8 → ℕ → UInt32 → V → Option (ℕ × V)}
    (h : ReadLoop join shl widen top read)
    (hword : Word toNat w join shl widen) (htop : top.toNat < w)
    (hw : w + 7 ≤ 2 ^ 32) {most : ℕ} (hmost : top.toNat < 7 * most)
    (hleast : 7 * most ≤ top.toNat + 7) {ofNat : ℕ → V}
    (hofNat : ∀ n, toNat (ofNat n) = n % 2 ^ w) {zero : V}
    (hzero : toNat zero = 0) (bytes : List UInt8) (limit : ℕ) :
    read bytes limit 0 zero = (cut (min limit most) bytes).map fun front =>
      (front.length, ofNat (value front)) := by
  have hread := (h.collects hword htop hw hmost hleast).read_eq_cut
    hword.injective hofNat bytes (Nat.zero_le most) limit (v := zero)
    (by rw [hzero]; exact Nat.two_pow_pos _)
  simpa [hzero] using hread

end Word

end Leb128
