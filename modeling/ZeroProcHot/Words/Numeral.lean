import Mathlib.Data.Nat.Bitwise
import Mathlib.Data.Nat.Digits.Lemmas
import Mathlib.Tactic.Ring

/-!
# Numerals, most significant digit first

`ofDigits` reads a row of binary digits the way it is written down; `digits n v` writes the low
`n` bits of `v`. Reading what was written gives the number back, cut to `n` bits. `numeral` is the
number of such a row to any base.
-/

namespace ZeroProcHot.Words

/-- The number a row of digits stands for, the most significant digit first. -/
def ofDigits (ds : List Bool) : Nat := ds.foldl (fun n d => 2 * n + d.toNat) 0

/-- The low `n` bits of a number, the most significant first. -/
def digits (n v : Nat) : List Bool := (List.range n).reverse.map v.testBit

/-- The highest bit is the first digit. -/
theorem digits_succ (n v : Nat) : digits (n + 1) v = v.testBit n :: digits n v := by
  simp only [digits, List.range_succ, List.reverse_append, List.reverse_singleton,
    List.singleton_append, List.map_cons]

/-- As many digits as places. -/
theorem digits_length (n v : Nat) : (digits n v).length = n := by
  simp only [digits, List.length_map, List.length_reverse, List.length_range]

private theorem foldl_digits (n v : Nat) : ∀ acc,
    (digits n v).foldl (fun n d => 2 * n + d.toNat) acc = acc * 2 ^ n + v % 2 ^ n := by
  induction n with
  | zero => simp [digits, Nat.mod_one]
  | succ n ih =>
    intro acc
    have split : v % 2 ^ (n + 1) = v % 2 ^ n + 2 ^ n * (v.testBit n).toNat := by
      rw [Nat.pow_succ, Nat.mod_mul, Nat.toNat_testBit]
    rw [digits_succ, List.foldl_cons, ih, split, Nat.pow_succ]
    ring

/-- **Reading inverts writing.** -/
theorem ofDigits_digits (n v : Nat) : ofDigits (digits n v) = v % 2 ^ n := by
  simp only [ofDigits, foldl_digits, Nat.zero_mul, Nat.zero_add]

/-- The number whose digits to the base `b` are these, the most significant first. -/
def numeral (b : Nat) (ds : List Nat) : Nat := Nat.ofDigits b ds.reverse

/-- One more digit. -/
theorem numeral_concat (b : Nat) (ds : List Nat) (d : Nat) :
    numeral b (ds ++ [d]) = numeral b ds * b + d := by
  unfold numeral
  rw [List.reverse_concat, Nat.ofDigits_cons]
  ring

/-- A row of digits after another. -/
theorem numeral_append (b : Nat) (ds es : List Nat) :
    numeral b (ds ++ es) = numeral b ds * b ^ es.length + numeral b es := by
  unfold numeral
  rw [List.reverse_append, Nat.ofDigits_append, List.length_reverse]
  ring

/-- A numeral is less than the power of its length. -/
theorem numeral_lt {b : Nat} (hb : 1 < b) {ds : List Nat} (h : ∀ d ∈ ds, d < b) :
    numeral b ds < b ^ ds.length := by
  unfold numeral
  rw [← List.length_reverse]
  exact Nat.ofDigits_lt_base_pow_length hb fun d hd => h d (List.mem_reverse.mp hd)

end ZeroProcHot.Words
