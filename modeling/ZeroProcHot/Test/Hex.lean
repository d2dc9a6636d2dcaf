import ZeroProcHot.Test.Strings
import ZeroProcHot.Words.Numeral

/-!
# The number that `StrToHex` reads

The loop stops at the terminator or with its last digit, whichever is first. `strToHex_value` says
what it returns, that it reads nothing behind the terminator, and that its accumulator does not wrap
around: what is counted to 16 is the digits, not the characters.
-/

namespace ZeroProcHot.Test

open Interact Efi Words

/-- The value of a hexadecimal digit of either case. -/
def hexValue (a : UInt16) : Option Nat :=
  if chr '0' ≤ a ∧ a ≤ chr '9' then some (a.toNat - 48)
  else if chr 'a' ≤ a ∧ a ≤ chr 'f' then some (a.toNat - 97 + 10)
  else if chr 'A' ≤ a ∧ a ≤ chr 'F' then some (a.toNat - 65 + 10)
  else none

/-- The values of the digits among some units. -/
def hexDigits (units : List UInt16) : List Nat := units.filterMap hexValue

theorem hexDigits_cons (a : UInt16) (units : List UInt16) :
    hexDigits (a :: units) = (hexValue a).toList ++ hexDigits units := by
  unfold hexDigits
  cases hv : hexValue a with
  | none =>
    rw [List.filterMap_cons_none hv]
    rfl
  | some d =>
    rw [List.filterMap_cons_some hv]
    rfl

/-! ## One unit -/

theorem hexValue_lt {a : UInt16} {d : Nat} (h : hexValue a = some d) : d < 16 := by
  have nine : (chr '9').toNat = 57 := rfl
  have small : (chr 'f').toNat = 102 := rfl
  have capital : (chr 'F').toNat = 70 := rfl
  simp only [hexValue, UInt16.le_iff_toNat_le] at h
  split at h
  · cases h
    omega
  split at h
  · cases h
    omega
  split at h
  · cases h
    omega
  · cases h

/-- The value that a branch adds, for a unit in the range that begins with `base`. -/
theorem digit_value {a base more : UInt16} (low : base ≤ a) (h : a.toNat - base.toNat + more.toNat < 16) :
    (a - base + more).toUInt64 = .ofNat (a.toNat - base.toNat + more.toNat) := by
  have offset : (a - base).toNat = a.toNat - base.toNat := UInt16.toNat_sub_of_le _ _ low
  apply UInt64.toNat_inj.mp
  rw [UInt16.toNat_toUInt64, UInt16.toNat_add, offset, UInt64.toNat_ofNat']
  omega

/-- **The three branches are one**: a unit takes the branch of its digit and no other. -/
theorem step_eq (s : Scan) (a : UInt16) :
    s.step a =
      match hexValue a with
      | some d => { s.digit (.ofNat d) with pos := s.pos + 1 }
      | none => { s with pos := s.pos + 1 } := by
  have zero : (chr '0').toNat = 48 := rfl
  have nine : (chr '9').toNat = 57 := rfl
  have smallA : (chr 'a').toNat = 97 := rfl
  have smallF : (chr 'f').toNat = 102 := rfl
  have capitalA : (chr 'A').toNat = 65 := rfl
  have capitalF : (chr 'F').toNat = 70 := rfl
  have ten : (0x0a : UInt16).toNat = 10 := rfl
  unfold Scan.step hexValue
  by_cases digit : chr '0' ≤ a ∧ a ≤ chr '9'
  · have small : ¬ (chr 'a' ≤ a ∧ a ≤ chr 'f') := by
      simp only [UInt16.le_iff_toNat_le] at digit ⊢
      omega
    have capital : ¬ (chr 'A' ≤ a ∧ a ≤ chr 'F') := by
      simp only [UInt16.le_iff_toNat_le] at digit ⊢
      omega
    have high := UInt16.le_iff_toNat_le.mp digit.2
    have value := @digit_value a (chr '0') 0 digit.1 (by rw [UInt16.toNat_zero]; omega)
    rw [UInt16.add_zero, UInt16.toNat_zero, Nat.add_zero, zero] at value
    simp only [ge_iff_le, if_pos digit, if_neg small, if_neg capital, value]
    rfl
  · by_cases small : chr 'a' ≤ a ∧ a ≤ chr 'f'
    · have capital : ¬ (chr 'A' ≤ a ∧ a ≤ chr 'F') := by
        simp only [UInt16.le_iff_toNat_le] at small ⊢
        omega
      have high := UInt16.le_iff_toNat_le.mp small.2
      have value := @digit_value a (chr 'a') 0x0a small.1 (by omega)
      rw [ten, smallA] at value
      simp only [ge_iff_le, if_neg digit, if_pos small, if_neg capital, value]
      rfl
    · by_cases capital : chr 'A' ≤ a ∧ a ≤ chr 'F'
      · have high := UInt16.le_iff_toNat_le.mp capital.2
        have value := @digit_value a (chr 'A') 0x0a capital.1 (by omega)
        rw [ten, capitalA] at value
        simp only [ge_iff_le, if_neg digit, if_neg small, if_pos capital, value]
        rfl
      · simp only [ge_iff_le, if_neg digit, if_neg small, if_neg capital]

/-! ## The loop -/

/-- The state of the loop when it has taken these digits. -/
structure Scanned (s : Scan) (taken : List Nat) : Prop where
  value : s.retval.toNat = numeral 16 taken
  count : s.numDone.toNat = taken.length
  digits : ∀ d ∈ taken, d < 16

/-- Up to 15 digits leave room for one more. -/
theorem Scanned.digit {s : Scan} {taken : List Nat} (h : Scanned s taken) {d : Nat} (hd : d < 16)
    (room : taken.length < 16) (pos : UInt64) :
    Scanned { s.digit (.ofNat d) with pos } (taken ++ [d]) := by
  have digits : ∀ x ∈ taken ++ [d], x < 16 :=
    List.forall_mem_append.mpr ⟨h.digits, List.forall_mem_singleton.mpr hd⟩
  have bound : numeral 16 (taken ++ [d]) < 2 ^ 64 := by
    refine Nat.lt_of_lt_of_le (numeral_lt (by decide) digits) ?_
    rw [List.length_append, List.length_singleton]
    exact Nat.pow_le_pow_right (by decide : 0 < 16) (by omega : taken.length + 1 ≤ 16)
  rw [numeral_concat] at bound
  have value : (UInt64.ofNat d).toNat = d := by
    rw [UInt64.toNat_ofNat']
    exact Nat.mod_eq_of_lt (by omega)
  have base : (0x10 : UInt64).toNat = 16 := rfl
  have one : (1 : UInt64).toNat = 1 := rfl
  refine ⟨?_, ?_, digits⟩
  · show (s.retval * 0x10 + UInt64.ofNat d).toNat = _
    rw [numeral_concat, UInt64.toNat_add, UInt64.toNat_mul, value, h.value, base]
    omega
  · show (s.numDone + 1).toNat = _
    rw [UInt64.toNat_add, h.count, List.length_append, List.length_singleton, one]
    omega

/-- What a unit does to the digits taken. -/
theorem Scanned.step {s : Scan} {taken : List Nat} (h : Scanned s taken) (room : taken.length < 16)
    (a : UInt16) : Scanned (s.step a) (taken ++ (hexValue a).toList) := by
  rw [step_eq]
  cases hv : hexValue a with
  | some d => exact h.digit (hexValue_lt hv) room (s.pos + 1)
  | none =>
    rw [Option.toList_none, List.append_nil]
    exact ⟨h.value, h.count, h.digits⟩

theorem step_pos (s : Scan) (a : UInt16) : (s.step a).pos = s.pos + 1 := by
  rw [step_eq]
  cases hexValue a with
  | some d => rfl
  | none => rfl

variable {n : Nat} {inputLength numChars : UInt64}

/-- A round that reads. -/
theorem session_scanRound {s : Scan} {w : List UInt16} {a : UInt16} (inside : s.pos ≤ inputLength)
    (more : s.numDone < numChars) (ha : w[s.pos.toNat]? = some a) :
    session n (scanRound inputLength numChars s) w = ⟨[s.pos], w, .returned (.inl (s.step a))⟩ := by
  have read : session n (load s.pos) w = ⟨[s.pos], w, .returned a⟩ := play_load ha
  unfold scanRound
  rw [if_pos ⟨inside, more⟩]
  exact session_seq read

/-- The last round. -/
theorem session_scanRound_last {s : Scan} {w : List UInt16}
    (h : ¬ (s.pos ≤ inputLength ∧ s.numDone < numChars)) :
    session n (scanRound inputLength numChars s) w = ⟨[], w, .returned (.inr s.retval)⟩ := by
  unfold scanRound
  rw [if_neg h]
  rfl

/-- How the loop ends on a string, when the units `ahead` are still to come. -/
structure Ends (t : Text) (r : Result UInt64 (List UInt16) UInt64) (limit : Nat)
    (taken : List Nat) (ahead : List UInt16) : Prop where
  within : ∀ i ∈ r.steps, i.toNat ≤ t.units.length
  kept : r.world = t.cells
  returned : ∃ value, r.outcome = .returned value ∧
    value.toNat = numeral 16 (taken ++ (hexDigits ahead).take (limit - taken.length))

/-- A call that ends so returns. -/
theorem Ends.returns {t : Text} {p : C UInt64} {limit : Nat} {taken : List Nat}
    {ahead : List UInt16} {value : UInt64} (h : Ends t (session n p t.cells) limit taken ahead)
    (outcome : (session n p t.cells).outcome = .returned value) :
    Returns object.env t.cells p t.cells value := by
  have whole : session n p t.cells =
      ⟨(session n p t.cells).steps, (session n p t.cells).world, (session n p t.cells).outcome⟩ := rfl
  rw [h.kept, outcome] at whole
  exact returns_of_play whole

/-- **The loop, by induction on the units ahead of it**, the terminator among them. -/
theorem rounds_scan {t : Text} (length : inputLength.toNat = t.units.length)
    (limit : numChars.toNat ≤ 16) {s : Scan} {taken : List Nat} (h : Scanned s taken)
    {ahead : List UInt16} (here : (t.units ++ [0]).drop s.pos.toNat = ahead) {m : Nat}
    (hm : ahead.length < m) :
    Ends t (rounds (fun s w => session n (scanRound inputLength numChars s) w) m s t.cells)
      numChars.toNat taken ahead := by
  have fits := t.fits
  have whole : (t.units ++ [0]).length = t.units.length + 1 := by
    rw [List.length_append, List.length_singleton]
  induction ahead generalizing s taken m with
  | nil =>
    obtain ⟨m, rfl⟩ : ∃ k, m = k + 1 := ⟨m - 1, by omega⟩
    have behind : t.units.length < s.pos.toNat := by
      have all := List.drop_eq_nil_iff.mp here
      omega
    have out : ¬ (s.pos ≤ inputLength ∧ s.numDone < numChars) := by
      rw [UInt64.le_iff_toNat_le]
      omega
    rw [rounds, session_scanRound_last out]
    refine ⟨fun _ h => absurd h List.not_mem_nil, rfl, s.retval, rfl, ?_⟩
    rw [h.value, hexDigits, List.filterMap_nil, List.take_nil, List.append_nil]
  | cons a ahead ih =>
    rw [List.length_cons] at hm
    obtain ⟨m, rfl⟩ : ∃ k, m = k + 1 := ⟨m - 1, by omega⟩
    have found : (t.units ++ [0])[s.pos.toNat]? = some a := by
      rw [← List.head?_drop, here, List.head?_cons]
    have inside : s.pos.toNat ≤ t.units.length := by
      have bound := (List.getElem?_eq_some_iff.mp found).1
      omega
    have next : (t.units ++ [0]).drop (s.pos.toNat + 1) = ahead := by
      rw [← List.tail_drop, here, List.tail_cons]
    by_cases more : s.numDone < numChars
    · have room : taken.length < numChars.toNat := by
        rw [← h.count]
        exact UInt64.lt_iff_toNat_lt.mp more
      have ha : t.cells[s.pos.toNat]? = some a := by
        have split : t.cells = (t.units ++ [0]) ++ t.behind := by
          rw [List.append_assoc]
          rfl
        rw [split, List.getElem?_append_left (by omega), found]
      have pos : (s.step a).pos.toNat = s.pos.toNat + 1 := by
        have one : (1 : UInt64).toNat = 1 := rfl
        rw [step_pos, UInt64.toNat_add, one]
        omega
      have later := @ih (s.step a) _ (h.step (by omega) a) (by rw [pos, next]) m (by omega)
      have within : s.pos ≤ inputLength := UInt64.le_iff_toNat_le.mpr (by omega)
      rw [rounds, session_scanRound within more ha, Result.andThen_returned]
      obtain ⟨value, outcome, number⟩ := later.returned
      refine ⟨List.forall_mem_cons.mpr ⟨inside, later.within⟩, later.kept, value, outcome, ?_⟩
      have one : (hexValue a).toList.length ≤ numChars.toNat - taken.length := by
        cases hexValue a with
        | none => exact Nat.zero_le _
        | some d =>
          rw [Option.toList_some, List.length_singleton]
          omega
      rw [number, hexDigits_cons, List.take_append, List.take_of_length_le one, List.length_append,
        List.append_assoc, Nat.sub_add_eq]
    · have full : numChars.toNat - taken.length = 0 := by
        rw [← h.count]
        have all := UInt64.le_iff_toNat_le.mp (UInt64.not_lt.mp more)
        omega
      rw [rounds, session_scanRound_last fun both => more both.2]
      refine ⟨fun _ h => absurd h List.not_mem_nil, rfl, s.retval, rfl, ?_⟩
      rw [h.value, full, List.take_zero, List.append_nil]

/-! ## A call -/

/-- The terminator is no digit. -/
theorem hexDigits_terminated (units : List UInt16) (pos : Nat) :
    hexDigits ((units ++ [0]).drop pos) = hexDigits (units.drop pos) := by
  have none : hexDigits ([0].drop (pos - units.length)) = [] := by
    cases pos - units.length with
    | zero => rfl
    | succ k =>
      rw [List.drop_succ_cons, List.drop_nil]
      rfl
  have split : hexDigits (units.drop pos ++ [0].drop (pos - units.length)) =
      hexDigits (units.drop pos) ++ hexDigits ([0].drop (pos - units.length)) :=
    List.filterMap_append
  rw [List.drop_append, split, none, List.append_nil]

section Call

variable {strLen : C UInt64} {numChars : UInt64}

/-- What a call does, in every budget from some budget on. -/
theorem session_strToHex (measures : Measures strLen) (t : Text) (pos : UInt64)
    (low : 1 ≤ numChars) (high : numChars ≤ 16) :
    ∃ n₀, ∀ n, n₀ ≤ n →
      Ends t (session n (strToHex strLen .string pos numChars) t.cells) numChars.toNat []
        (t.units.drop pos.toNat) := by
  obtain ⟨tr, run⟩ := measures.returns t
  obtain ⟨n₀, found⟩ := session_of_run run
  refine ⟨max n₀ (t.units.length + 2), fun n hn => ?_⟩
  have measured : session n strLen t.cells =
      ⟨(events tr).filterMap accessed, t.cells, .returned (.ofNat t.units.length)⟩ :=
    (found n (by omega)).2 _ rfl
  have limit : numChars.toNat ≤ 16 := UInt64.le_iff_toNat_le.mp high
  have some : 1 ≤ numChars.toNat := UInt64.le_iff_toNat_le.mp low
  have guard : ¬ (Pointer.string = .null ∨ numChars = 0 ∨ numChars > 16) := by
    rintro (null | zero | above)
    · cases null
    · rw [zero] at some
      exact absurd some (by decide)
    · exact absurd above (UInt64.not_lt.mpr high)
  have start : Scanned ⟨0, 0, pos⟩ [] := ⟨rfl, rfl, fun _ h => absurd h List.not_mem_nil⟩
  have short : ((t.units ++ [0]).drop pos.toNat).length < n := by
    rw [List.length_drop, List.length_append, List.length_singleton]
    omega
  have loop := @rounds_scan n _ numChars t t.length_toNat limit _ _ start _ rfl n short
  have whole : session n (strToHex strLen .string pos numChars) t.cells =
      (⟨(events tr).filterMap accessed, t.cells, .returned (.ofNat t.units.length)⟩ :
        Result UInt64 (List UInt16) UInt64).andThen fun inputLength w =>
          rounds (fun s w => session n (scanRound inputLength numChars s) w) n ⟨0, 0, pos⟩ w := by
    unfold strToHex
    rw [if_neg guard]
    refine (session_seq measured).trans ?_
    congr 1
    funext inputLength w
    exact play_iter _ _ w
  rw [whole, Result.andThen_returned]
  obtain ⟨value, outcome, number⟩ := loop.returned
  refine ⟨List.forall_mem_append.mpr ⟨fun i hi => ?_, loop.within⟩, loop.kept, value, outcome, ?_⟩
  · obtain ⟨st, hst, rfl⟩ := mem_accessed.mp hi
    exact measures.within t run st hst
  · rw [number, hexDigits_terminated]

/-- **The number that `StrToHex` reads.** A call returns, in one way only, the number whose digits are
the first `NumChars` hexadecimal digits at or after `Pos`, or all of them if there are fewer, and so
0 if there are none. No run of it reads behind the terminator. -/
theorem strToHex_value (measures : Measures strLen) (t : Text) (pos : UInt64)
    (low : 1 ≤ numChars) (high : numChars ≤ 16) :
    (∃ value, Returns object.env t.cells (strToHex strLen .string pos numChars) t.cells value ∧
      (∀ w value', Returns object.env t.cells (strToHex strLen .string pos numChars) w value' →
        w = t.cells ∧ value' = value) ∧
      value.toNat = numeral 16 ((hexDigits (t.units.drop pos.toNat)).take numChars.toNat) ∧
      ((∀ a ∈ t.units.drop pos.toNat, hexValue a = none) → value = 0)) ∧
    ∀ tr w out, Run object.env t.cells (strToHex strLen .string pos numChars) tr w out →
      ∀ st ∈ tr, st.event.call.index.toNat ≤ t.units.length := by
  obtain ⟨n₀, ends⟩ := session_strToHex measures t pos low high
  constructor
  · have call := ends n₀ (Nat.le_refl n₀)
    obtain ⟨value, outcome, number⟩ := call.returned
    have found : Returns object.env t.cells (strToHex strLen .string pos numChars) t.cells value :=
      call.returns outcome
    rw [List.nil_append, List.length_nil, Nat.sub_zero] at number
    refine ⟨value, found, fun _ _ other => other.unique object.deterministic found, number, ?_⟩
    intro none
    have empty : hexDigits (t.units.drop pos.toNat) = [] := List.filterMap_eq_nil_iff.mpr none
    rw [empty, List.take_nil] at number
    exact UInt64.toNat_inj.mp number
  · intro tr w out run st hst
    obtain ⟨n₁, found⟩ := session_of_run run
    have seen := (found (max n₀ n₁) (by omega)).1
    exact (ends (max n₀ n₁) (by omega)).within _
      (seen.subset (mem_accessed.mpr ⟨st, hst, rfl⟩))

end Call

/-- "0x1Fc". -/
def address : Text where
  units := [chr '0', chr 'x', chr '1', chr 'F', chr 'c']
  behind := []
  noZero := by decide
  fits := by decide

/-- From the second character on, three digits. -/
theorem strToHex_value_address :
    ∃ value, Returns object.env address.cells (strToHex countUnits .string 1 3) address.cells value ∧
      value.toNat = 0x1FC := by
  obtain ⟨⟨value, found, _, number, _⟩, _⟩ :=
    strToHex_value measures_countUnits address 1 (by decide : (1 : UInt64) ≤ 3) (by decide)
  exact ⟨value, found, number.trans (by decide)⟩

end ZeroProcHot.Test
