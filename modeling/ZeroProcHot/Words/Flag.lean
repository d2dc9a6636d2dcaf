import Mathlib.Data.Nat.Bitwise

/-!
# One bit of a word

`assign i b v` is `v` with bit `i` equal to `b`: an OR with the bit, or an AND with its complement.
It changes no other bit (`getLsbD_assign`), so of a run of assignments to one bit only the last
one counts (`assignAll_eq`). A word is put together again from its two halves (`join_high_low`).
-/

namespace ZeroProcHot.Words

variable {w : Nat}

/-- The word with bit `i` equal to `b`. -/
def assign (i : Nat) (b : Bool) (v : BitVec w) : BitVec w :=
  if b then v ||| BitVec.twoPow w i else v &&& ~~~BitVec.twoPow w i

/-- Assignments to bit `i`, the first of the list first. -/
def assignAll (i : Nat) (bs : List Bool) (v : BitVec w) : BitVec w :=
  bs.foldl (fun v b => assign i b v) v

theorem getLsbD_assign {i : Nat} (hi : i < w) (b : Bool) (v : BitVec w) (j : Nat) :
    (assign i b v).getLsbD j = if j = i then b else v.getLsbD j := by
  unfold assign
  by_cases hj : j = i
  · subst hj
    cases b <;> simp [hi]
  · have hij : ¬ i = j := fun h => hj h.symm
    cases b
    · simp only [Bool.false_eq_true, ↓reduceIte, BitVec.getLsbD_and, BitVec.getLsbD_not,
        BitVec.getLsbD_twoPow, hij, decide_false, Bool.and_false, Bool.not_false, Bool.and_true, hj]
      by_cases hw : j < w
      · simp [hw]
      · simp [BitVec.getLsbD_of_ge v j (by omega)]
    · simp [BitVec.getLsbD_twoPow, hij, hj]

theorem assign_assign {i : Nat} (hi : i < w) (b b' : Bool) (v : BitVec w) :
    assign i b (assign i b' v) = assign i b v := by
  apply BitVec.eq_of_getLsbD_eq
  intro j _
  rw [getLsbD_assign hi, getLsbD_assign hi, getLsbD_assign hi]
  by_cases hj : j = i <;> simp only [hj, ↓reduceIte]

/-- An assignment of the bit's own value changes nothing. -/
theorem assign_self {i : Nat} (hi : i < w) (v : BitVec w) : assign i (v.getLsbD i) v = v := by
  apply BitVec.eq_of_getLsbD_eq
  intro j _
  rw [getLsbD_assign hi]
  by_cases hj : j = i <;> simp only [hj, ↓reduceIte]

/-- **The last assignment counts.** -/
theorem assignAll_eq {i : Nat} (hi : i < w) (bs : List Bool) (v : BitVec w) :
    assignAll i bs v = assign i (bs.getLast?.getD (v.getLsbD i)) v := by
  induction bs generalizing v with
  | nil => exact (assign_self hi v).symm
  | cons b bs ih =>
    show assignAll i bs (assign i b v) = _
    rw [ih, assign_assign hi, getLsbD_assign hi]
    cases bs with
    | nil => simp only [List.getLast?_nil, Option.getD_none, ↓reduceIte, List.getLast?_singleton,
        Option.getD_some]
    | cons b' bs =>
      rw [List.getLast?_cons_cons, List.getLast?_eq_some_getLast (List.cons_ne_nil _ _)]
      rfl

/-! ## Halves -/

variable {m n : Nat}

/-- The low `n` bits of a word. -/
def low (n : Nat) (v : BitVec w) : BitVec n := v.setWidth n

/-- The word above its low `m` bits, cut to `n` bits. -/
def high (m n : Nat) (v : BitVec w) : BitVec n := (v >>> m).setWidth n

/-- A high half put above a low half of `m` bits. -/
def join (hi : BitVec n) (lo : BitVec m) : BitVec (m + n) :=
  (hi.setWidth (m + n) <<< m) ||| lo.setWidth (m + n)

theorem getLsbD_join (hi : BitVec n) (lo : BitVec m) (j : Nat) :
    (join hi lo).getLsbD j = if j < m then lo.getLsbD j else hi.getLsbD (j - m) := by
  unfold join
  simp only [BitVec.getLsbD_or, BitVec.getLsbD_shiftLeft, BitVec.getLsbD_setWidth]
  by_cases hj : j < m
  · simp [hj, show j < m + n by omega]
  · by_cases hn : j < m + n
    · simp [hj, hn, BitVec.getLsbD_of_ge lo j (by omega), show j - m < m + n by omega]
    · simp [hj, hn, BitVec.getLsbD_of_ge hi (j - m) (by omega)]

/-- **The halves of a word make the word.** -/
theorem join_high_low (v : BitVec (m + n)) : join (high m n v) (low m v) = v := by
  apply BitVec.eq_of_getLsbD_eq
  intro j hj
  rw [getLsbD_join]
  by_cases hm : j < m
  · simp [low, hm]
  · simp [high, hm, show j - m < n by omega, show m + (j - m) = j by omega]

end ZeroProcHot.Words
