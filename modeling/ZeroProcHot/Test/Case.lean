import ZeroProcHot.Test.Strings

/-!
# What `uCase` makes of a string

The comment promises upper case, but the offset between the cases is added the wrong way round: each
small letter becomes a unit beyond ASCII (`uCase_returns`). `uCase_upper_iff` says when the function
keeps its promise: on the strings that have no small letter.
-/

namespace ZeroProcHot.Test

open Interact Efi

/-- The units that the loop changes. -/
def small (a : UInt16) : Prop := chr 'a' ≤ a ∧ a ≤ chr 'z'

instance (a : UInt16) : Decidable (small a) := inferInstanceAs (Decidable (_ ∧ _))

/-- What the loop makes of a unit. -/
def shifted (a : UInt16) : UInt16 := if small a then a - chr 'A' + chr 'a' else a

/-- The capital of a small letter, and any other unit as it is. -/
def upper (a : UInt16) : UInt16 := if small a then a - chr 'a' + chr 'A' else a

theorem shifted_toNat {a : UInt16} (h : small a) : (shifted a).toNat = a.toNat + 32 := by
  have low : 97 ≤ a.toNat := UInt16.le_iff_toNat_le.mp h.1
  have high : a.toNat ≤ 122 := UInt16.le_iff_toNat_le.mp h.2
  have capital : (chr 'A').toNat = 65 := rfl
  have letter : (chr 'a').toNat = 97 := rfl
  have offset : (a - chr 'A').toNat = a.toNat - 65 :=
    UInt16.toNat_sub_of_le _ _ (UInt16.le_iff_toNat_le.mpr (by omega))
  unfold shifted
  rw [if_pos h, UInt16.toNat_add, offset, letter]
  omega

theorem upper_toNat {a : UInt16} (h : small a) : (upper a).toNat = a.toNat - 32 := by
  have low : 97 ≤ a.toNat := UInt16.le_iff_toNat_le.mp h.1
  have high : a.toNat ≤ 122 := UInt16.le_iff_toNat_le.mp h.2
  have capital : (chr 'A').toNat = 65 := rfl
  have offset : (a - chr 'a').toNat = a.toNat - 97 := UInt16.toNat_sub_of_le _ _ h.1
  unfold upper
  rw [if_pos h, UInt16.toNat_add, offset, capital]
  omega

/-- A unit is given its capital exactly when it is no small letter. -/
theorem shifted_eq_upper_iff (a : UInt16) : shifted a = upper a ↔ ¬ small a := by
  constructor
  · intro same h
    have low : 97 ≤ a.toNat := UInt16.le_iff_toNat_le.mp h.1
    have values := congrArg UInt16.toNat same
    rw [shifted_toNat h, upper_toNat h] at values
    omega
  · intro h
    unfold shifted upper
    rw [if_neg h, if_neg h]

/-- No unit becomes a terminator. -/
theorem shifted_ne_zero {a : UInt16} (h : a ≠ 0) : shifted a ≠ 0 := by
  by_cases letter : small a
  · intro zero
    have value := shifted_toNat letter
    rw [zero, UInt16.toNat_zero] at value
    omega
  · unfold shifted
    rw [if_neg letter]
    exact h

/-- What the loop has changed it does not change again. -/
theorem shifted_shifted (a : UInt16) : shifted (shifted a) = shifted a := by
  have beyond : ¬ small (shifted a) := by
    by_cases letter : small a
    · intro again
      have low : 97 ≤ a.toNat := UInt16.le_iff_toNat_le.mp letter.1
      have high : (shifted a).toNat ≤ 122 := UInt16.le_iff_toNat_le.mp again.2
      rw [shifted_toNat letter] at high
      omega
    · rw [shifted, if_neg letter]
      exact letter
  rw [shifted, if_neg beyond]

/-! ## The loop -/

theorem walks_caseRound : Walks caseRound shifted fun _ => () where
  step {n i pre post a} here ha := by
    have read : session n (load i) (pre ++ a :: post) = ⟨[i], pre ++ a :: post, .returned a⟩ :=
      play_load_at here
    unfold caseRound shifted
    by_cases letter : small a
    · have range : a ≥ chr 'a' ∧ a ≤ chr 'z' := letter
      have write : session n (store i (a - chr 'A' + chr 'a')) (pre ++ a :: post) =
          ⟨[i], pre ++ (a - chr 'A' + chr 'a') :: post, .returned ()⟩ := play_store_at here _
      refine ⟨[i, i], (session_seq read).trans ?_, fun x hx => ?_⟩
      · rw [Result.andThen_returned, if_pos ha, if_pos range, session_seq write, if_pos letter]
        rfl
      · rcases List.mem_cons.mp hx with rfl | hx
        · rfl
        · exact List.mem_singleton.mp hx
    · have range : ¬ (a ≥ chr 'a' ∧ a ≤ chr 'z') := letter
      refine ⟨[i], (session_seq read).trans ?_, fun x hx => List.mem_singleton.mp hx⟩
      rw [Result.andThen_returned, if_pos ha, if_neg range, if_neg letter]
      rfl
  stop {n i pre post} here := by
    have read : session n (load i) (pre ++ 0 :: post) = ⟨[i], pre ++ 0 :: post, .returned 0⟩ :=
      play_load_at here
    unfold caseRound
    refine (session_seq read).trans ?_
    rw [Result.andThen_returned, if_neg (fun ne => ne rfl)]
    rfl

/-- The string after a call. -/
def Text.shift (t : Text) : Text where
  units := t.units.map shifted
  behind := t.behind
  noZero h := by
    obtain ⟨a, ha, zero⟩ := List.mem_map.mp h
    exact shifted_ne_zero (fun nil => t.noZero (nil ▸ ha)) zero
  fits := by
    rw [List.length_map]
    exact t.fits

/-- **What `uCase` does.** A call returns, it changes the units up to the terminator one by one, and
keeps the terminator and what is behind it. -/
theorem uCase_returns (t : Text) :
    Returns object.env t.cells (uCase .string) t.shift.cells () := by
  obtain ⟨is, walked, _⟩ := walks_caseRound.iter t (Nat.lt_succ_self _)
  unfold uCase
  rw [if_pos (by decide)]
  exact returns_of_play walked

/-- A string that a call has changed is not changed by a second one. -/
theorem Text.shift_shift (t : Text) : t.shift.shift.cells = t.shift.cells := by
  have units : (t.units.map shifted).map shifted = t.units.map shifted := by
    rw [List.map_map]
    exact List.map_congr_left fun a _ => shifted_shifted a
  exact congrArg (· ++ 0 :: t.behind) units

/-- A second call changes nothing. -/
theorem uCase_again (t : Text) :
    Returns object.env t.shift.cells (uCase .string) t.shift.cells () := by
  have call := uCase_returns t.shift
  rw [Text.shift_shift] at call
  exact call

/-! ## The promise -/

/-- What a call that makes `t'` of `t` promises: the capitals in the place of the small letters,
everything else as it was, nothing left to do for a second call, and the same number for
`StrToHex`. -/
structure Uppercased (strLen : C UInt64) (t t' : Text) : Prop where
  returns : Returns object.env t.cells (uCase .string) t'.cells ()
  units : t'.units = t.units.map upper
  behind : t'.behind = t.behind
  again : Returns object.env t'.cells (uCase .string) t'.cells ()
  number : ∀ pos numChars value,
    Returns object.env t'.cells (strToHex strLen .string pos numChars) t'.cells value ↔
      Returns object.env t.cells (strToHex strLen .string pos numChars) t.cells value

variable {strLen : C UInt64} {t t' : Text}

/-- The promise fails at the first small letter. -/
theorem Uppercased.not_small (kept : Uppercased strLen t t') : ∀ a ∈ t.units, ¬ small a := by
  intro a ha
  have same : t'.cells = t.shift.cells :=
    (kept.returns.unique object.deterministic (uCase_returns t)).1
  have cells : t.units.map upper ++ 0 :: t.behind = t.units.map shifted ++ 0 :: t.behind := by
    rw [← kept.units, ← kept.behind]
    rw [Text.cells, kept.behind] at same
    rw [kept.behind]
    exact same
  have units : t.units.map upper = t.units.map shifted := List.append_cancel_right cells
  have unit : upper a = shifted a := List.map_inj_left.mp units a ha
  exact (shifted_eq_upper_iff a).mp unit.symm

/-- Without a small letter there is nothing to change. -/
theorem Text.shift_of_not_small (none : ∀ a ∈ t.units, ¬ small a) : t.shift.cells = t.cells := by
  have units : t.units.map shifted = t.units := by
    refine (List.map_congr_left fun a ha => ?_).trans (List.map_id t.units)
    unfold shifted
    exact if_neg (none a ha)
  exact congrArg (· ++ 0 :: t.behind) units

/-- **When `uCase` keeps its promise.** Exactly when the string has no small letter, and then it
changes nothing. -/
theorem uCase_upper_iff (strLen : C UInt64) (t : Text) :
    (∃ t', Uppercased strLen t t') ↔ ∀ a ∈ t.units, ¬ small a := by
  constructor
  · rintro ⟨t', kept⟩
    exact kept.not_small
  · intro none
    have returns : Returns object.env t.cells (uCase .string) t.cells () := by
      have call := uCase_returns t
      rw [Text.shift_of_not_small none] at call
      exact call
    have units : t.units = t.units.map upper := by
      refine ((List.map_congr_left fun a ha => ?_).trans (List.map_id t.units)).symm
      unfold upper
      exact if_neg (none a ha)
    exact ⟨t, returns, units, rfl, returns, fun _ _ _ => Iff.rfl⟩

/-- "a". -/
def letterA : Text where
  units := [chr 'a']
  behind := []
  noZero := by decide
  fits := by decide

/-- "a" becomes the unit 0x81, which is no letter, and `StrToHex` reads 10 before and 0 after. -/
theorem uCase_letterA :
    Returns object.env letterA.cells (uCase .string) [0x81, 0] () ∧
      Returns object.env letterA.cells (strToHex countUnits .string 0 1) letterA.cells 10 ∧
      Returns object.env [0x81, 0] (strToHex countUnits .string 0 1) [0x81, 0] 0 ∧
      ¬ ∃ t', Uppercased countUnits letterA t' := by
  have before : session 3 (strToHex countUnits .string 0 1) letterA.cells =
      ⟨[0, 1, 0], letterA.cells, .returned 10⟩ := by decide +kernel
  have after : session 3 (strToHex countUnits .string 0 1) [0x81, 0] =
      ⟨[0, 1, 0, 1], [0x81, 0], .returned 0⟩ := by decide +kernel
  refine ⟨uCase_returns letterA, returns_of_play before, returns_of_play after, ?_⟩
  rintro ⟨t', kept⟩
  exact kept.not_small (chr 'a') (by decide) (by decide)

end ZeroProcHot.Test
