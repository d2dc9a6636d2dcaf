import Mathlib.Data.Nat.ModEq
import ZeroProcHot.MsrEdit.Program

/-!
# The values of the keys

The digits are at most 15, and an arrow key moves within `0..max`. A digit may exceed `max`: the two
readers differ in what they do then.
-/

namespace ZeroProcHot.MsrEdit

open Efi

/-- The distance of a character from the first of its range. -/
theorem toNat_offset {base keychar : UInt16} (low : base ≤ keychar) :
    (keychar - base).toNat = keychar.toNat - base.toNat := UInt16.toNat_sub_of_le _ _ low

/-- A digit is at most 15, by the three ranges of `hexDigit`. -/
theorem hexDigit_le {keychar : UInt16} {digit : UInt8} (h : hexDigit keychar = some digit) :
    digit.toNat ≤ 15 := by
  unfold hexDigit at h
  split at h
  · next range =>
    cases h
    have offset := toNat_offset range.1
    have high : keychar.toNat ≤ 57 := UInt16.le_iff_toNat_le.mp range.2
    have base : (chr '0').toNat = 48 := rfl
    rw [UInt16.toNat_toUInt8, offset]
    omega
  · split at h
    · next range =>
      cases h
      have offset := toNat_offset range.1
      have high : keychar.toNat ≤ 70 := UInt16.le_iff_toNat_le.mp range.2
      have base : (chr 'A').toNat = 65 := rfl
      rw [UInt16.toNat_toUInt8, UInt16.toNat_add, offset]
      have ten : (10 : UInt16).toNat = 10 := rfl
      omega
    · split at h
      · next range =>
        cases h
        have offset := toNat_offset range.1
        have high : keychar.toNat ≤ 102 := UInt16.le_iff_toNat_le.mp range.2
        have base : (chr 'a').toNat = 97 := rfl
        rw [UInt16.toNat_toUInt8, UInt16.toNat_add, offset]
        have ten : (10 : UInt16).toNat = 10 := rfl
        omega
      · cases h

/-- The key is a digit above `max`. -/
def exceeds (max : UInt64) (key : InputKey) : Prop :=
  ∃ digit, hexDigit key.unicodeChar = some digit ∧ max < digit.toUInt64

instance (max : UInt64) (key : InputKey) : Decidable (exceeds max key) :=
  match h : hexDigit key.unicodeChar with
  | some digit =>
    if above : max < digit.toUInt64 then .isTrue ⟨digit, h, above⟩
    else .isFalse fun ⟨_, is, above'⟩ => above (Option.some.inj (h.symm.trans is) ▸ above')
  | none => .isFalse fun ⟨_, is, _⟩ => nomatch h.symm.trans is

variable {max : UInt64}

/-- A byte in `0..max`, seen at the width of `max`. -/
theorem toUInt64_le {k : UInt8} (h : k.toNat ≤ max.toNat) : k.toUInt64 ≤ max := by
  rw [UInt64.le_iff_toNat_le, UInt8.toNat_toUInt64]
  exact h

/-- The converse: the bound at the width of `max` is the bound of the number. -/
theorem toNat_le {k : UInt8} (h : k.toUInt64 ≤ max) : k.toNat ≤ max.toNat := by
  rw [UInt64.le_iff_toNat_le, UInt8.toNat_toUInt64] at h
  exact h

/-- Neither the sum nor the modulus of an arrow branch overflows, and the result fits in a byte. -/
theorem step_toNat {t : UInt64} (hmax : max ≤ 255) (ht : t ≤ 255) (keyint : UInt8) :
    ((keyint.toUInt64 + t) % (max + 1)).toUInt8.toNat =
      (keyint.toNat + t.toNat) % (max.toNat + 1) := by
  have small : max.toNat ≤ 255 := UInt64.le_iff_toNat_le.mp hmax
  have short : t.toNat ≤ 255 := UInt64.le_iff_toNat_le.mp ht
  have byte := keyint.toNat_lt
  have sum : (keyint.toUInt64 + t).toNat = keyint.toNat + t.toNat := by
    rw [UInt64.toNat_add, UInt8.toNat_toUInt64]
    omega
  have modulus : (max + 1).toNat = max.toNat + 1 := by
    rw [UInt64.toNat_add]
    have one : (1 : UInt64).toNat = 1 := rfl
    omega
  have below := Nat.mod_lt (keyint.toNat + t.toNat) (by omega : 0 < max.toNat + 1)
  rw [UInt64.toNat_toUInt8, UInt64.toNat_mod, sum, modulus]
  omega

/-- Up goes `max` places on in the circle of `max + 1`, which is one back. -/
theorem stepUp_toNat (hmax : max ≤ 255) (keyint : UInt8) :
    (stepUp max keyint).toNat = (keyint.toNat + max.toNat) % (max.toNat + 1) :=
  step_toNat hmax hmax keyint

/-- Down goes one place on in the circle. -/
theorem stepDown_toNat (hmax : max ≤ 255) (keyint : UInt8) :
    (stepDown max keyint).toNat = (keyint.toNat + 1) % (max.toNat + 1) :=
  step_toNat hmax (by decide) keyint

/-- A `max` below the sentinels is a byte. -/
theorem le_byte (hmax : max < 254) : max ≤ 255 :=
  UInt64.le_trans (UInt64.le_of_lt hmax) (by decide)

/-- An arrow takes two values to one place exactly when they are the same place. -/
theorem shift_eq_iff {c m : Nat} (hc : c ≤ m) (k t : Nat) :
    (k + t) % (m + 1) = (c + t) % (m + 1) ↔ k % (m + 1) = c := by
  have own : c % (m + 1) = c := Nat.mod_eq_of_lt (Nat.lt_succ_of_le hc)
  constructor
  · intro same
    have places : k % (m + 1) = c % (m + 1) := Nat.ModEq.add_right_cancel' t same
    exact places.trans own
  · intro same
    have places : k % (m + 1) = c % (m + 1) := same.trans own.symm
    exact Nat.ModEq.add_right t places

/-- Up stays within `0..max`, also from a value above. -/
theorem stepUp_le (hmax : max < 254) (keyint : UInt8) : (stepUp max keyint).toUInt64 ≤ max := by
  apply toUInt64_le
  rw [stepUp_toNat (le_byte hmax)]
  exact Nat.le_of_lt_succ (Nat.mod_lt _ (Nat.succ_pos _))

/-- Down stays within `0..max`, also from a value above. -/
theorem stepDown_le (hmax : max < 254) (keyint : UInt8) :
    (stepDown max keyint).toUInt64 ≤ max := by
  apply toUInt64_le
  rw [stepDown_toNat (le_byte hmax)]
  exact Nat.le_of_lt_succ (Nat.mod_lt _ (Nat.succ_pos _))

/-! ## Items of the menu -/

/-- The two widths in which an item is compared with 4 agree. -/
theorem item_le {item : UInt8} : item.toUInt64 ≤ 4 ↔ item ≤ 4 := by
  rw [UInt64.le_iff_toNat_le, UInt8.le_iff_toNat_le, UInt8.toNat_toUInt64]
  rfl

/-- No digit is one of the two values that `menu` looks for. -/
theorem not_sentinel {item : UInt8} (h : item.toNat ≤ 15) : ¬ (item = 254 ∨ item = 255) := by
  rintro (rfl | rfl)
  · exact absurd h (by decide)
  · exact absurd h (by decide)

end ZeroProcHot.MsrEdit
