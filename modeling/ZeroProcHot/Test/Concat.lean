import ZeroProcHot.Interact.Memory
import ZeroProcHot.Test.Hex

/-!
# What `cat` puts together

`cat` makes a new string of a string of `CHAR16` and one of `char`. It asks for exactly the cells that
it fills, and fills each of them once and in order (`cat_concatenates`); a `char` above ASCII comes
out with its sign. What `StrToHex` reads of the new string are the digits of the first and then those
of the second (`strToHex_cat`).
-/

namespace ZeroProcHot.Test

open Interact Efi Words

/-! ## `cat` -/

/-- The objects: the strings that `cat` is given, and the one that it asks for. -/
inductive Part where
  | str1
  | str2
  | result
  deriving DecidableEq, Repr

namespace Part

/-- The cells of an object. A `char` has a sign. -/
abbrev Cell : Part → Type
  | .str1 | .result => UInt16
  | .str2 => Int8

/-- The terminator. -/
def nul : (k : Part) → k.Cell
  | .str1 | .result => (0 : UInt16)
  | .str2 => (0 : Int8)

instance (k : Part) : DecidableEq k.Cell :=
  match k with
  | .str1 | .result => inferInstanceAs (DecidableEq UInt16)
  | .str2 => inferInstanceAs (DecidableEq Int8)

/-- The cast to `CHAR16`. -/
def cast : (k : Part) → k.Cell → UInt16
  | .str1 | .result => fun unit => unit
  | .str2 => fun char => (Int8.toInt16 char).toUInt16

end Part

/-- A program over the three objects. -/
abbrev CatC (α : Type) := Prog (objects Part.Cell Empty) α

/-- One round of a loop that counts the cells before the terminator. -/
def lenRound (k : Part) (len : Int32) : CatC (Int32 ⊕ Int32) := do
  let cell ← loadFrom k len.toInt
  if cell ≠ k.nul then return .inl (len + 1) else return .inr len

/-- One round of a loop that copies the first `len` cells behind the first `start` of the result. -/
def copyRound (k : Part) (start len i : Int32) : CatC (Int32 ⊕ Unit) :=
  if i < len then do
    let cell ← loadFrom k i.toInt
    storeTo .result (start + i).toInt (k.cast cell)
    return .inl (i + 1)
  else return .inr ()

def sizeofCHAR16 : UInt64 := 2

/-- The string that it returns is the start of the result. -/
def cat : CatC Pointer := do
  let len1 ← Prog.iter (lenRound .str1) 0
  let len2 ← Prog.iter (lenRound .str2) 0
  let bytes := (len1 + len2 + 1).toInt64.toUInt64 * sizeofCHAR16
  let granted ← allocate .result (bytes / sizeofCHAR16).toNat
  if granted = false then return .null
  else do
    Prog.iter (copyRound .str1 0 len1) 0
    Prog.iter (copyRound .str2 len1 len2) 0
    storeTo .result (len1 + len2).toInt (0 : UInt16)
    return .string

/-! ## Counting and copying -/

/-- An object that holds a string: the cells up to its first terminator. -/
structure Holds (m : Memory Part.Cell) (k : Part) (s : List k.Cell) : Prop where
  cells : ∃ behind, m k = s ++ k.nul :: behind
  noNul : k.nul ∉ s

/-- The characters of a string are the cells before its terminator. -/
theorem Holds.cell {m : Memory Part.Cell} {k : Part} {s : List k.Cell} (holds : Holds m k s) {j : Nat}
    (hj : j < s.length) : (m k)[j]? = some s[j] := by
  obtain ⟨behind, cells⟩ := holds.cells
  rw [cells, List.getElem?_append_left hj, List.getElem?_eq_getElem hj]

/-- The terminator follows the last character. -/
theorem Holds.terminator {m : Memory Part.Cell} {k : Part} {s : List k.Cell} (holds : Holds m k s) :
    (m k)[s.length]? = some k.nul := by
  obtain ⟨behind, cells⟩ := holds.cells
  rw [cells, List.getElem?_append_right (Nat.le_refl _), Nat.sub_self]
  rfl

/-- A small natural number is itself as an `int`. -/
theorem toInt_natural {n : Nat} (small : n < 2 ^ 31) : (Int32.ofNat n).toInt = n :=
  Int32.toInt_ofNat_of_lt small

section Loops

variable {al : Allocator Part.Cell} {n : Nat} {m : Memory Part.Cell} {k : Part} {s : List k.Cell}

/-- The length of a string. -/
theorem play_length (holds : Holds m k s) (small : s.length < 2 ^ 31) (hn : s.length < n) :
    play (memory al) n stored (Prog.iter (lenRound k) 0) m =
      ⟨[], m, .returned (.ofNat s.length)⟩ := by
  have step (j : Nat) (w : Memory Part.Cell) (hj : j < s.length) (here : w = m) :
      ∃ w', play (memory al) n stored (lenRound k (.ofNat j)) w =
        ⟨[], w', .returned (.inl (.ofNat (j + 1)))⟩ ∧ w' = m := by
    subst here
    have some : s[j] ≠ k.nul := fun nul => holds.noNul (nul ▸ List.getElem_mem hj)
    refine ⟨w, ?_, rfl⟩
    rw [lenRound, play_seq (play_loadFrom (toInt_natural (by omega)) (holds.cell hj)),
      Result.andThen_nil, if_pos some, Int32.ofNat_add]
    rfl
  have last (w : Memory Part.Cell) (here : w = m) :
      play (memory al) n stored (lenRound k (.ofNat s.length)) w =
        ⟨[], w, .returned (.inr (.ofNat s.length))⟩ := by
    subst here
    rw [lenRound, play_seq (play_loadFrom (toInt_natural small) holds.terminator),
      Result.andThen_nil, if_neg (fun ne => ne rfl)]
    rfl
  obtain ⟨w, counted, rfl⟩ := play_counted step last hn rfl
  rw [List.flatMap_eq_nil_iff.mpr fun _ _ => rfl] at counted
  exact counted

/-- The stores to the result from a cell on. -/
def storesFrom (start count : Nat) : List (Part × Int) :=
  (List.range count).map fun i => (.result, ((start + i : Nat) : Int))

theorem storesFrom_add (start count more : Nat) :
    storesFrom start (count + more) = storesFrom start count ++ storesFrom (start + count) more := by
  unfold storesFrom
  rw [List.range_add, List.map_append, List.map_map]
  simp only [Function.comp_def, Nat.add_assoc]

/-- What the result holds when `done` is there and `j` cells of a string have been copied behind it. -/
def copied (done cells : List UInt16) (s : List k.Cell) (j : Nat) : List UInt16 :=
  overwrite (done ++ (s.take j).map k.cast) cells

/-- With every character copied, the string lies in the cells. -/
theorem copied_all (done cells : List UInt16) (s : List k.Cell) :
    copied done cells s s.length = overwrite (done ++ s.map k.cast) cells := by
  rw [copied, List.take_length]

variable {done cells : List UInt16}

/-- One more store copies one more character. -/
theorem copied_succ {j : Nat} (hj : j < s.length) (room : done.length + s.length < cells.length) :
    (copied done cells s j).set (done.length + j) (k.cast s[j]) = copied done cells s (j + 1) := by
  have length : (done ++ (s.take j).map k.cast).length = done.length + j := by
    rw [List.length_append, List.length_map, List.length_take, Nat.min_eq_left (by omega)]
  unfold copied
  rw [← length, set_overwrite (by omega), List.append_assoc, ← List.map_singleton, ← List.map_append,
    List.take_append_getElem]

/-- Stores do not change the length. -/
theorem length_copied {j : Nat} (hj : j ≤ s.length) (room : done.length + s.length < cells.length) :
    (copied done cells s j).length = cells.length := by
  refine length_overwrite ?_
  rw [List.length_append, List.length_map, List.length_take]
  omega

/-- A round that copies. -/
theorem play_copyRound (other : k ≠ .result) (holds : Holds m k s)
    (room : done.length + s.length < cells.length) (small : cells.length < 2 ^ 31) {j : Nat}
    (hj : j < s.length) :
    play (memory al) n stored (copyRound k (.ofNat done.length) (.ofNat s.length) (.ofNat j))
        (m.put .result (copied done cells s j)) =
      ⟨[(.result, ((done.length + j : Nat) : Int))], m.put .result (copied done cells s (j + 1)),
        .returned (.inl (.ofNat (j + 1)))⟩ := by
  have more : Int32.ofNat j < .ofNat s.length :=
    (Int32.ofNat_lt_iff_lt (by omega) (by omega)).mpr hj
  have cell : (m.put .result (copied done cells s j) k)[j]? = some s[j] := by
    rw [Memory.put_of_ne m other]
    exact holds.cell hj
  have index : (Int32.ofNat done.length + .ofNat j).toInt = ((done.length + j : Nat) : Int) := by
    rw [← Int32.ofNat_add, toInt_natural (by omega)]
  have inside : done.length + j < (m.put .result (copied done cells s j) Part.result).length := by
    rw [Memory.put_self, length_copied (by omega) room]
    omega
  rw [copyRound, if_pos more, play_seq (play_loadFrom (toInt_natural (by omega)) cell),
    Result.andThen_nil, play_seq (play_storeTo index inside _), Result.andThen_returned,
    Memory.put_self, Memory.put_put, copied_succ hj room, index, Int32.ofNat_add]
  rfl

/-- The copy of a string, behind what is in the result already. -/
theorem play_copy (other : k ≠ .result) (holds : Holds m k s)
    (room : done.length + s.length < cells.length) (small : cells.length < 2 ^ 31)
    (hn : s.length < n) :
    play (memory al) n stored (Prog.iter (copyRound k (.ofNat done.length) (.ofNat s.length)) 0)
        (m.put .result (overwrite done cells)) =
      ⟨storesFrom done.length s.length, m.put .result (overwrite (done ++ s.map k.cast) cells),
        .returned ()⟩ := by
  have last (w : Memory Part.Cell) (_ : w = m.put .result (copied done cells s s.length)) :
      play (memory al) n stored
          (copyRound k (.ofNat done.length) (.ofNat s.length) (.ofNat s.length)) w =
        ⟨[], w, .returned (.inr ())⟩ := by
    rw [copyRound, if_neg fun less => Int.lt_irrefl _ (Int32.lt_iff_toInt_lt.mp less)]
    rfl
  have start : m.put .result (overwrite done cells) = m.put .result (copied done cells s 0) := by
    rw [copied, List.take_zero, List.map_nil, List.append_nil]
  have step (j : Nat) (w : Memory Part.Cell) (hj : j < s.length)
      (here : w = m.put .result (copied done cells s j)) :
      ∃ w', play (memory al) n stored
          (copyRound k (.ofNat done.length) (.ofNat s.length) (.ofNat j)) w =
        ⟨[(.result, ((done.length + j : Nat) : Int))], w', .returned (.inl (.ofNat (j + 1)))⟩ ∧
        w' = m.put .result (copied done cells s (j + 1)) := by
    subst here
    exact ⟨_, play_copyRound other holds room small hj, rfl⟩
  obtain ⟨w, loop, rfl⟩ := play_counted step last hn start
  rw [← List.map_eq_flatMap, copied_all] at loop
  exact loop

end Loops

/-! ## A call -/

/-- The string that is put together. -/
def concat (s1 : List UInt16) (s2 : List Int8) : List UInt16 := s1 ++ s2.map (Part.cast .str2)

/-- Only the terminator becomes a zero. -/
theorem cast_eq_zero {c : Int8} (zero : Part.cast .str2 c = 0) : c = 0 := by
  have wide : c.toInt16.toUInt16.toInt16 = 0 := congrArg UInt16.toInt16 zero
  rw [Int16.toInt16_toUInt16] at wide
  have value : c.toInt16.toInt = 0 := congrArg Int16.toInt wide
  rw [Int8.toInt_toInt16] at value
  exact Int8.toInt_inj.mp value

theorem length_concat (s1 : List UInt16) (s2 : List Int8) :
    (concat s1 s2).length = s1.length + s2.length := by
  rw [concat, List.length_append, List.length_map]

/-- The number of cells that is asked for. -/
theorem request {len1 len2 : Nat} (small : len1 + len2 + 1 < 2 ^ 31) :
    ((Int32.ofNat len1 + .ofNat len2 + 1).toInt64.toUInt64 * sizeofCHAR16 / sizeofCHAR16).toNat =
      len1 + len2 + 1 := by
  have sum : Int32.ofNat len1 + .ofNat len2 + 1 = .ofNat (len1 + len2 + 1) := by
    rw [Int32.ofNat_add, Int32.ofNat_add]
    rfl
  have two : sizeofCHAR16.toNat = 2 := rfl
  have max : Int32.maxValue.toInt = 2147483647 := rfl
  rw [sum, Int32.toInt64_ofNat' (by omega), Int64.toUInt64_ofNat', UInt64.toNat_div, UInt64.toNat_mul,
    two, UInt64.toNat_ofNat']
  omega

section Call

variable {al : Allocator Part.Cell} {n : Nat} {m : Memory Part.Cell} {s1 : List UInt16}
  {s2 : List Int8}

/-- A call, up to the copying. -/
theorem play_cat_lengths (str1 : Holds m .str1 s1) (str2 : Holds m .str2 s2)
    (small : s1.length + s2.length + 1 < 2 ^ 31) (hn : s1.length + s2.length < n) :
    play (memory al) n stored cat m =
      play (memory al) n stored
        (do
          let granted ← allocate .result (s1.length + s2.length + 1)
          if granted = false then return .null
          else do
            Prog.iter (copyRound .str1 0 (.ofNat s1.length)) 0
            Prog.iter (copyRound .str2 (.ofNat s1.length) (.ofNat s2.length)) 0
            storeTo .result (Int32.ofNat s1.length + .ofNat s2.length).toInt (0 : UInt16)
            return .string) m := by
  unfold cat
  rw [play_seq (play_length str1 (by omega) (by omega)), Result.andThen_nil,
    play_seq (play_length str2 (by omega) (by omega)), Result.andThen_nil]
  dsimp only
  rw [request small]

/-- A call that is refused the memory. -/
theorem play_cat_refused (str1 : Holds m .str1 s1) (str2 : Holds m .str2 s2)
    (small : s1.length + s2.length + 1 < 2 ^ 31) (hn : s1.length + s2.length < n)
    (refused : al.grant .result (s1.length + s2.length + 1) = none) :
    play (memory al) n stored cat m = ⟨[], m, .returned .null⟩ := by
  rw [play_cat_lengths str1 str2 small hn, play_seq (play_allocate_refused refused),
    Result.andThen_nil, if_pos rfl]
  rfl

/-- A call that is granted the memory. -/
theorem play_cat (str1 : Holds m .str1 s1) (str2 : Holds m .str2 s2)
    (small : s1.length + s2.length + 1 < 2 ^ 31) (hn : s1.length + s2.length < n)
    {cells : List UInt16} (granted : al.grant .result (s1.length + s2.length + 1) = some cells) :
    play (memory al) n stored cat m =
      ⟨storesFrom 0 (s1.length + s2.length + 1), m.put .result (concat s1 s2 ++ [0]),
        .returned .string⟩ := by
  have size : cells.length = s1.length + s2.length + 1 := al.sized granted
  have length := length_concat s1 s2
  have copy1 : play (memory al) n stored (Prog.iter (copyRound .str1 0 (.ofNat s1.length)) 0)
      (m.put .result cells) =
        ⟨storesFrom 0 s1.length, m.put .result (overwrite s1 cells), .returned ()⟩ := by
    have loop := @play_copy al n m .str1 s1 [] cells (by decide) str1
      (by rw [List.length_nil]; omega) (by omega) (by omega)
    have same : s1.map (Part.cast .str1) = s1 := List.map_id' s1
    rw [overwrite_nil, List.nil_append, same] at loop
    exact loop
  have copy2 : play (memory al) n stored
      (Prog.iter (copyRound .str2 (.ofNat s1.length) (.ofNat s2.length)) 0)
      (m.put .result (overwrite s1 cells)) =
        ⟨storesFrom s1.length s2.length, m.put .result (overwrite (concat s1 s2) cells),
          .returned ()⟩ :=
    play_copy (by decide) str2 (by omega) (by omega) (by omega)
  have store : play (memory al) n stored
      (storeTo .result (Int32.ofNat s1.length + .ofNat s2.length).toInt (0 : UInt16) : CatC Unit)
      (m.put .result (overwrite (concat s1 s2) cells)) =
        ⟨[(.result, ((s1.length + s2.length : Nat) : Int))], m.put .result (concat s1 s2 ++ [0]),
          .returned ()⟩ := by
    have index : (Int32.ofNat s1.length + .ofNat s2.length).toInt = ((concat s1 s2).length : Int) := by
      rw [← Int32.ofNat_add, ← length, toInt_natural (by omega)]
    have inside : (concat s1 s2).length <
        (m.put .result (overwrite (concat s1 s2) cells) Part.result).length := by
      rw [Memory.put_self, length_overwrite (by omega)]
      omega
    have full : overwrite (concat s1 s2 ++ [0]) cells = concat s1 s2 ++ [0] := by
      refine overwrite_all ?_
      rw [List.length_append, List.length_singleton]
      omega
    rw [play_storeTo index inside, Memory.put_self, Memory.put_put, set_overwrite (by omega), full,
      index, length]
  have steps : storesFrom 0 (s1.length + s2.length + 1) = storesFrom 0 s1.length ++
      (storesFrom s1.length s2.length ++ [(.result, ((s1.length + s2.length : Nat) : Int))]) := by
    rw [storesFrom_add, storesFrom_add, Nat.zero_add, Nat.zero_add, List.append_assoc]
    rfl
  rw [play_cat_lengths str1 str2 small hn, play_seq (play_allocate granted), Result.andThen_nil,
    if_neg (by decide), play_seq copy1, Result.andThen_returned, play_seq copy2,
    Result.andThen_returned, play_seq store, Result.andThen_returned, steps]
  show Result.mk (_ ++ (_ ++ ([_] ++ []))) _ _ = _
  rw [List.append_nil]
  rfl

/-- **What `cat` does.** A call returns, in one way only: `NULL` exactly if the memory is refused,
and then nothing has changed; otherwise the new object holds the first string, the second behind it
and the terminator, and every other object is as it was. No run of it stores to anything but the
cells of the new object, each once and in order. -/
theorem cat_concatenates (str1 : Holds m .str1 s1) (str2 : Holds m .str2 s2)
    (small : s1.length + s2.length + 1 < 2 ^ 31) :
    (∃ m' p, Returns (memory al).env m cat m' p ∧
      (∀ m'' p', Returns (memory al).env m cat m'' p' → m'' = m' ∧ p' = p) ∧
      (p = .null ↔ al.grant .result (s1.length + s2.length + 1) = none) ∧
      m' = match p with
        | .null => m
        | .string => m.put .result (concat s1 s2 ++ [0])) ∧
    ∀ tr w out, Run (memory al).env m cat tr w out →
      (events tr).filterMap stored <+: storesFrom 0 (s1.length + s2.length + 1) := by
  have unique {m' p} (found : Returns (memory al).env m cat m' p) {m'' p'}
      (other : Returns (memory al).env m cat m'' p') : m'' = m' ∧ p' = p :=
    other.unique (memory al).deterministic found
  cases answer : al.grant .result (s1.length + s2.length + 1) with
  | none =>
    have call (n : Nat) (hn : s1.length + s2.length < n) := play_cat_refused str1 str2 small hn answer
    constructor
    · have found := returns_of_play (call _ (Nat.lt_succ_self _))
      exact ⟨m, .null, found, fun _ _ => unique found, ⟨fun _ => rfl, fun _ => rfl⟩, rfl⟩
    · intro tr w out run
      obtain ⟨n₀, seen⟩ := play_of_run run
      have steps := (seen (max n₀ (s1.length + s2.length + 1)) (by omega)).1
      rw [call _ (by omega)] at steps
      exact steps.trans List.nil_prefix
  | some cells =>
    have call (n : Nat) (hn : s1.length + s2.length < n) := play_cat str1 str2 small hn answer
    constructor
    · have found := returns_of_play (call _ (Nat.lt_succ_self _))
      exact ⟨_, .string, found, fun _ _ => unique found, ⟨nofun, nofun⟩, rfl⟩
    · intro tr w out run
      obtain ⟨n₀, seen⟩ := play_of_run run
      have steps := (seen (max n₀ (s1.length + s2.length + 1)) (by omega)).1
      rw [call _ (by omega)] at steps
      exact steps

end Call

/-! ## Reading the new string -/

/-- The value of a `char` that is a hexadecimal digit. -/
def charValue (c : Int8) : Option Nat := if 0 ≤ c then hexValue (.ofNat c.toInt.toNat) else none

/-- A `char` is a digit after the cast exactly if it was one before: with a sign it becomes a unit
above every digit. -/
theorem hexValue_cast (c : Int8) : hexValue (Part.cast .str2 c) = charValue c := by
  have all : ∀ n < 256, hexValue (Part.cast .str2 (Int8.ofNat n)) = charValue (Int8.ofNat n) := by
    decide +kernel
  have same : c = Int8.ofNat c.toBitVec.toNat := (Int8.ofNat_bitVecToNat c.toBitVec).symm
  rw [same]
  exact all _ c.toBitVec.isLt

/-- The digits of a concatenation are those of its parts, one after the other. -/
theorem hexDigits_concat (s1 : List UInt16) (s2 : List Int8) :
    hexDigits (concat s1 s2) = hexDigits s1 ++ s2.filterMap charValue := by
  have chars : hexDigits (s2.map (Part.cast .str2)) = s2.filterMap charValue := by
    unfold hexDigits
    rw [List.filterMap_map]
    exact List.filterMap_congr fun c _ => hexValue_cast c
  rw [← chars]
  exact List.filterMap_append

/-- The new string. -/
def catText {m : Memory Part.Cell} {s1 : List UInt16} {s2 : List Int8} (str1 : Holds m .str1 s1)
    (str2 : Holds m .str2 s2) (small : s1.length + s2.length + 1 < 2 ^ 31) : Text where
  units := concat s1 s2
  behind := []
  noZero zero := by
    rcases List.mem_append.mp zero with unit | char
    · exact str1.noNul unit
    · obtain ⟨c, mem, nul⟩ := List.mem_map.mp char
      obtain rfl := cast_eq_zero nul
      exact str2.noNul mem
  fits := by
    rw [length_concat, List.length_nil]
    omega

/-- **`StrToHex` on the string that `cat` returns**: the digits of the first string are read, and then
those of the second, `NumChars` at most. When these are all, the number of the first string is moved up
by the digits of the second. -/
theorem strToHex_cat {al : Allocator Part.Cell} {m : Memory Part.Cell} {s1 : List UInt16}
    {s2 : List Int8} (str1 : Holds m .str1 s1) (str2 : Holds m .str2 s2)
    (small : s1.length + s2.length + 1 < 2 ^ 31) {cells : List UInt16}
    (granted : al.grant .result (s1.length + s2.length + 1) = some cells) {strLen : C UInt64}
    (measures : Measures strLen) {numChars : UInt64} (low : 1 ≤ numChars) (high : numChars ≤ 16) :
    ∃ m' value, Returns (memory al).env m cat m' .string ∧
      Returns object.env (m' .result) (strToHex strLen .string 0 numChars) (m' .result) value ∧
      value.toNat =
        numeral 16 ((hexDigits s1 ++ s2.filterMap charValue).take numChars.toNat) ∧
      ((hexDigits s1).length + (s2.filterMap charValue).length ≤ numChars.toNat →
        value.toNat = numeral 16 (hexDigits s1) * 16 ^ (s2.filterMap charValue).length +
          numeral 16 (s2.filterMap charValue)) := by
  have call := returns_of_play (play_cat str1 str2 small (Nat.lt_succ_self _) granted)
  obtain ⟨⟨value, found, _, number, _⟩, _⟩ :=
    strToHex_value measures (catText str1 str2 small) 0 low high
  have units : (catText str1 str2 small).units.drop (0 : UInt64).toNat = concat s1 s2 := rfl
  rw [units, hexDigits_concat] at number
  refine ⟨_, value, call, ?_, number, fun all => ?_⟩
  · rw [Memory.put_self]
    exact found
  · rw [number, List.take_of_length_le (by rw [List.length_append]; exact all), numeral_append]

/-- "1F" and "c". -/
def parts : Memory Part.Cell
  | .str1 => [chr '1', chr 'F', 0]
  | .str2 => [99, 0]
  | .result => []

/-- An allocator that always has memory, and clears it. -/
def clearing : Allocator Part.Cell where
  grant k size := some (List.replicate size k.nul)
  sized h := by
    cases h
    exact List.length_replicate

theorem parts_str1 : Holds parts .str1 [chr '1', chr 'F'] := ⟨⟨[], rfl⟩, by decide⟩

theorem parts_str2 : Holds parts .str2 [99] := ⟨⟨[], rfl⟩, by decide⟩

theorem cat_concatenates_parts :
    ∃ m' p, Returns (memory clearing).env parts cat m' p ∧
      (p = .null ↔ clearing.grant .result 4 = none) := by
  obtain ⟨⟨m', p, returns, _, null, _⟩, _⟩ :=
    @cat_concatenates clearing _ _ _ parts_str1 parts_str2 (by decide)
  exact ⟨m', p, returns, null⟩

/-- The address of the register. -/
theorem strToHex_cat_parts :
    ∃ m' value, Returns (memory clearing).env parts cat m' .string ∧
      Returns object.env (m' .result) (strToHex countUnits .string 0 4) (m' .result) value ∧
      value.toNat = 0x1FC := by
  obtain ⟨m', value, call, read, number, _⟩ := strToHex_cat parts_str1 parts_str2 (by decide)
    (rfl : clearing.grant .result 4 = some _) measures_countUnits (by decide : (1 : UInt64) ≤ 4)
    (by decide)
  exact ⟨m', value, call, read, number.trans (by decide)⟩

end ZeroProcHot.Test
