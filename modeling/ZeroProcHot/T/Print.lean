import Mathlib.Algebra.Ring.Nat
import Mathlib.Data.Nat.Find
import ZeroProcHot.Interact.Memory

/-!
# What `print` prints

`print` looks for the terminator at every second cell only, since the size of a character is added to
an `int` that counts them, and prints the cells before it with a counter of 16 bits. So an object is
printed, or printed for ever, or left by a load outside it, which is undefined in C: `print_returns`
says which objects are of which kind. Of 2-byte characters the strings of even length alone are
printed, and of 4-byte characters each with a `NUL` behind it (`print_string`).
-/

namespace ZeroProcHot.T

open Interact

/-! ## `print` -/

/-- The cells of the object that `print` is given. -/
abbrev Cell (_ : Unit) : Type := UInt16

/-- A program that reads the string and puts out characters. -/
abbrev PrintC (α : Type) := Prog (objects Cell UInt8) α

/-- `sizeof(string[len])`. -/
def sizeofUnit : UInt64 := 2

/-- What `%c` makes of a unit. -/
def char (unit : UInt16) : UInt8 := unit.toUInt8

/-- The line feed that ends what is printed. -/
def newline : UInt8 := 10

/-- One round of the loop that looks for the terminator. The sum is a `size_t`. -/
def lenRound (len : Int32) : PrintC (Int32 ⊕ Int32) := do
  let unit ← loadFrom () len.toInt
  if unit ≠ (0 : UInt16) then return .inl (len.toInt64.toUInt64 + sizeofUnit).toInt64.toInt32
  else return .inr len

/-- One round of the loop that prints. `i` is promoted to `int`. -/
def printRound (len : Int32) (i : UInt16) : PrintC (UInt16 ⊕ Unit) :=
  if Int32.ofNat i.toNat < len then do
    let unit ← loadFrom () i.toNat
    putOut (char unit)
    return .inl (i + 1)
  else return .inr ()

/-- The length first, in steps of two bytes, then every second cell up to it. -/
def print : PrintC Unit := do
  let len ← Prog.iter lenRound 0
  Prog.iter (printRound len) 0
  putOut newline

/-! ## Looking for the terminator -/

/-- No cell at an even offset below `2 * k` is 0, and all are inside. -/
def NoneBelow (cells : List UInt16) (k : Nat) : Prop := ∀ j < k, ∃ u, cells[2 * j]? = some u ∧ u ≠ 0

/-- The first 0 at an even offset, which an `int` can count to. -/
structure Stops (cells : List UInt16) (k : Nat) : Prop where
  below : NoneBelow cells k
  zero : cells[2 * k]? = some 0
  small : k < 2 ^ 30

/-- There is no such 0: the object ends before one, or the counter does. -/
structure Passes (cells : List UInt16) (k : Nat) : Prop where
  below : NoneBelow cells k
  outside : k = 2 ^ 30 ∨ k < 2 ^ 30 ∧ cells.length ≤ 2 * k

/-- The loop over the length ends at a cell of the object. -/
theorem Stops.inside {cells : List UInt16} {k : Nat} (stops : Stops cells k) : 2 * k < cells.length :=
  (List.getElem?_eq_some_iff.mp stops.zero).1

/-- Every object is of one of the two kinds. -/
theorem stops_or_passes (cells : List UInt16) : ∃ k, Stops cells k ∨ Passes cells k := by
  have some : ∃ k, k = 2 ^ 30 ∨ ∀ u, cells[2 * k]? = some u → u = 0 := ⟨2 ^ 30, .inl rfl⟩
  have bound : Nat.find some ≤ 2 ^ 30 := Nat.find_min' some (.inl rfl)
  have below : NoneBelow cells (Nat.find some) := by
    intro j less
    have here := Nat.find_min some less
    push Not at here
    exact here.2
  refine ⟨Nat.find some, ?_⟩
  rcases Nat.find_spec some with last | zero
  · exact .inr ⟨below, .inl last⟩
  · by_cases last : Nat.find some = 2 ^ 30
    · exact .inr ⟨below, .inl last⟩
    · cases cell : cells[2 * Nat.find some]? with
      | none => exact .inr ⟨below, .inr ⟨by omega, List.getElem?_eq_none_iff.mp cell⟩⟩
      | some u => exact .inl ⟨below, zero u cell ▸ cell, by omega⟩

/-- The counter of the first loop after some rounds. -/
def lenAt (j : Nat) : Int32 := .ofNat (2 * j)

/-- The counter as a number, as long as it has not wrapped. -/
theorem toInt_lenAt {j : Nat} (small : j < 2 ^ 30) : (lenAt j).toInt = (2 * j : Nat) :=
  Int32.toInt_ofNat_of_lt (by omega)

/-- A round adds two bytes. -/
theorem lenAt_succ {j : Nat} (small : j < 2 ^ 30) :
    ((lenAt j).toInt64.toUInt64 + sizeofUnit).toInt64.toInt32 = lenAt (j + 1) := by
  have max : Int32.maxValue.toInt = 2147483647 := rfl
  unfold lenAt
  rw [Int32.toInt64_ofNat' (by omega), Int64.toUInt64_ofNat', UInt64.toInt64_add, Int64.toInt32_add,
    UInt64.toInt64_ofNat', Int64.toInt32_ofNat', Nat.mul_add, Int32.ofNat_add]
  rfl

section Loops

variable {al : Allocator Cell} {n : Nat} {m : Memory Cell} {k : Nat}

/-- A round that goes on. -/
theorem play_lenRound (below : NoneBelow (m ()) k) (small : k ≤ 2 ^ 30) (j : Nat) (w : Memory Cell)
    (hj : j < k) (here : w = m) :
    ∃ w', play (memory al) n written (lenRound (lenAt j)) w =
      ⟨[], w', .returned (.inl (lenAt (j + 1)))⟩ ∧ w' = m := by
  subst here
  obtain ⟨u, cell, some⟩ := below j hj
  refine ⟨w, ?_, rfl⟩
  rw [lenRound, play_seq (play_loadFrom (toInt_lenAt (by omega)) cell), Result.andThen_nil,
    if_pos some, lenAt_succ (by omega)]
  rfl

/-- The first loop, when there is a terminator to find. -/
theorem play_len_stops (stops : Stops (m ()) k) (hn : k < n) :
    play (memory al) n written (Prog.iter lenRound 0) m = ⟨[], m, .returned (lenAt k)⟩ := by
  have small := stops.small
  have last (w : Memory Cell) (here : w = m) :
      play (memory al) n written (lenRound (lenAt k)) w = ⟨[], w, .returned (.inr (lenAt k))⟩ := by
    subst here
    rw [lenRound, play_seq (play_loadFrom (toInt_lenAt small) stops.zero), Result.andThen_nil,
      if_neg (fun ne => ne rfl)]
    rfl
  obtain ⟨w, counted, rfl⟩ := play_counted (play_lenRound stops.below (by omega)) last hn rfl
  rw [List.flatMap_eq_nil_iff.mpr fun _ _ => rfl] at counted
  exact counted

/-- The first loop, when there is none: it reads outside the object. -/
theorem play_len_passes (passes : Passes (m ()) k) (hn : k < n) :
    play (memory al) n written (Prog.iter lenRound 0) m = ⟨[], m, .blocked⟩ := by
  have small : k ≤ 2 ^ 30 := by
    rcases passes.outside with last | inside <;> omega
  have last (w : Memory Cell) (here : w = m) :
      play (memory al) n written (lenRound (lenAt k)) w = ⟨[], w, .blocked⟩ := by
    subst here
    have outside : (lenAt k).toInt < 0 ∨ (w ()).length ≤ (lenAt k).toInt.toNat := by
      rcases passes.outside with rfl | ⟨small, behind⟩
      · exact .inl (by decide)
      · rw [toInt_lenAt small]
        exact .inr behind
    rw [lenRound, play_bind, play_loadFrom_outside outside]
    rfl
  obtain ⟨w, counted, rfl⟩ := play_counted_blocked (play_lenRound passes.below small) last hn rfl
  rw [List.flatMap_eq_nil_iff.mpr fun _ _ => rfl] at counted
  exact counted

/-! ## Printing -/

theorem flatMap_cells {α β : Type} (f : α → β) (l : List α) (n : Nat) :
    (List.range n).flatMap (fun j => (l[j]?.map f).toList) = (l.take n).map f := by
  induction n with
  | zero => rfl
  | succ n ih =>
    rw [List.range_succ, List.flatMap_append, ih, List.take_add_one, List.map_append,
      List.flatMap_singleton, Option.toList_map]

/-- A round that prints a cell. -/
theorem play_printRound {i : UInt16} {u : UInt16} (small : k < 2 ^ 30) (more : i.toNat < 2 * k)
    (cell : (m ())[i.toNat]? = some u) :
    play (memory al) n written (printRound (lenAt k) i) m =
      ⟨[char u], m, .returned (.inl (i + 1))⟩ := by
  have less : Int32.ofNat i.toNat < lenAt k :=
    (Int32.ofNat_lt_iff_lt (by omega) (by omega)).mpr more
  rw [printRound, if_pos less, play_seq (play_loadFrom rfl cell), Result.andThen_nil,
    play_seq (play_putOut _), Result.andThen_returned]
  rfl

/-- The second loop, when its counter can count the cells. -/
theorem play_cells (stops : Stops (m ()) k) (short : k < 32768) (hn : 2 * k < n) :
    play (memory al) n written (Prog.iter (printRound (lenAt k)) 0) m =
      ⟨((m ()).take (2 * k)).map char, m, .returned ()⟩ := by
  have inside := stops.inside
  have index {j : Nat} (hj : j ≤ 2 * k) : (UInt16.ofNat j).toNat = j := by
    rw [UInt16.toNat_ofNat']
    exact Nat.mod_eq_of_lt (by omega)
  have step (j : Nat) (w : Memory Cell) (hj : j < 2 * k) (here : w = m) :
      ∃ w', play (memory al) n written (printRound (lenAt k) (.ofNat j)) w =
        ⟨((m ())[j]?.map char).toList, w', .returned (.inl (.ofNat (j + 1)))⟩ ∧ w' = m := by
    subst here
    have cell : (w ())[j]? = some (w ())[j] := List.getElem?_eq_getElem (by omega)
    have round := @play_printRound al n w k (.ofNat j) (w ())[j] stops.small
      (by rw [index (by omega)]; exact hj) (by rw [index (by omega)]; exact cell)
    refine ⟨w, ?_, rfl⟩
    rw [round, cell, UInt16.ofNat_add]
    rfl
  have last (w : Memory Cell) (_ : w = m) :
      play (memory al) n written (printRound (lenAt k) (.ofNat (2 * k))) w =
        ⟨[], w, .returned (.inr ())⟩ := by
    have none : ¬Int32.ofNat (UInt16.ofNat (2 * k)).toNat < lenAt k := by
      rw [index (Nat.le_refl _)]
      exact fun less => Int.lt_irrefl _ (Int32.lt_iff_toInt_lt.mp less)
    rw [printRound, if_neg none]
    rfl
  obtain ⟨w, counted, rfl⟩ := play_counted step last hn rfl
  rw [flatMap_cells] at counted
  exact counted

/-- The second loop, when its counter cannot. -/
theorem play_cells_endless (stops : Stops (m ()) k) (long : 32768 ≤ k) :
    ∃ os w, play (memory al) n written (Prog.iter (printRound (lenAt k)) 0) m = ⟨os, w, .unfinished⟩ ∧
      os.length = n := by
  have inside := stops.inside
  have step (i : UInt16) (w : Memory Cell) (here : w = m) :
      ∃ o i' w', play (memory al) n written (printRound (lenAt k) i) w =
        ⟨[o], w', .returned (.inl i')⟩ ∧ w' = m := by
    subst here
    have bound : i.toNat < 65536 := i.toNat_lt
    exact ⟨_, _, w, play_printRound stops.small (by omega) (List.getElem?_eq_getElem (by omega)), rfl⟩
  exact play_endless step rfl

/-! ## A call -/

/-- What a call prints that looks at the first `k` pairs of cells. -/
def line (cells : List UInt16) (k : Nat) : List UInt8 := (cells.take (2 * k)).map char ++ [newline]

/-- A string that ends within the first 65536 cells is printed with its end of line. -/
theorem play_print (stops : Stops (m ()) k) (short : k < 32768) (hn : 2 * k < n) :
    play (memory al) n written print m = ⟨line (m ()) k, m, .returned ()⟩ := by
  rw [print, play_seq (play_len_stops stops (by omega)), Result.andThen_nil,
    play_seq (play_cells stops short hn), Result.andThen_returned, play_putOut]
  rfl

/-- Beyond, the index wraps before it reaches the length, and the printing has no end. -/
theorem play_print_endless (stops : Stops (m ()) k) (long : 32768 ≤ k) (hn : k < n) :
    ∃ os w, play (memory al) n written print m = ⟨os, w, .unfinished⟩ ∧ os.length = n := by
  obtain ⟨os, w, loop, length⟩ := @play_cells_endless al n m k stops long
  refine ⟨os, w, ?_, length⟩
  rw [print, play_seq (play_len_stops stops hn), Result.andThen_nil, play_bind, loop]
  rfl

/-- Without such a cell the loads leave the object. -/
theorem play_print_passes (passes : Passes (m ()) k) (hn : k < n) :
    play (memory al) n written print m = ⟨[], m, .blocked⟩ := by
  rw [print, play_bind, play_len_passes passes hn]
  rfl

end Loops

section Call

variable {al : Allocator Cell} {m : Memory Cell} {s : List UInt8}

/-- What some steps have printed. -/
def printed (tr : List (Step (objects Cell UInt8) (Memory Cell))) : List UInt8 :=
  (events tr).filterMap written

/-- The call prints `s` and returns, having changed nothing: every run is a beginning of one that does. -/
def Prints (al : Allocator Cell) (m : Memory Cell) (s : List UInt8) : Prop :=
  ∃ whole, Whole (memory al).env m print whole ∧ Run (memory al).env m print whole m (some ()) ∧
    printed whole = s

/-- The call never comes to an end: it prints more than any number of characters. -/
def PrintsOn (al : Allocator Cell) (m : Memory Cell) : Prop :=
  ∀ n, ∃ tr w, Run (memory al).env m print tr w none ∧ n ≤ (printed tr).length

/-- The call comes to a load outside the object and has printed nothing before. -/
def Misses (al : Allocator Cell) (m : Memory Cell) : Prop :=
  ∃ whole, Whole (memory al).env m print whole ∧ Strays al m print whole ∧ printed whole = []

/-- The first kind on the machine: given rounds enough the program has returned. -/
theorem prints_outcome (prints : Prints al m s) :
    ∃ n₀, ∀ n, n₀ ≤ n → play (memory al) n written print m = ⟨s, m, .returned ()⟩ := by
  obtain ⟨whole, _, run, rfl⟩ := prints
  obtain ⟨n₀, found⟩ := play_of_run run
  exact ⟨n₀, fun n hn => (found n hn).2 () rfl⟩

/-- The third kind on the machine: given rounds enough a load is out of bounds. -/
theorem misses_outcome (misses : Misses al m) :
    ∃ n₀, ∀ n, n₀ ≤ n → (play (memory al) n written print m).outcome = .blocked := by
  obtain ⟨whole, _, strays, _⟩ := misses
  obtain ⟨n₀, blocked⟩ := strays.outcome
  exact ⟨n₀, blocked⟩

/-- A call that settles prints so much and no more. -/
theorem printsOn_outcome (on : PrintsOn al m) (n : Nat) :
    (play (memory al) n written print m).outcome = .unfinished := by
  by_contra settled
  obtain ⟨tr, w, run, more⟩ := on ((printed (exec (memory al) n print m).steps).length + 1)
  have begins : printed tr <+: printed (exec (memory al) n print m).steps :=
    (exec_whole settled run).filterMap written
  have less := begins.length_le
  omega

/-- Printing a line: the first 0 at an even offset is close enough for the counter of 16 bits. -/
theorem prints_of_stops {k : Nat} (stops : Stops (m ()) k) (short : k < 32768) :
    Prints al m (line (m ()) k) := by
  have call := @play_print al (2 * k + 1) m k stops short (Nat.lt_succ_self _)
  obtain ⟨shown, same, outcome⟩ := Result.mk.inj call
  have run := exec_run (memory al) (2 * k + 1) print m
  rw [same, outcome] at run
  exact ⟨_, exec_whole (by rw [outcome]; nofun), run, shown⟩

/-- The second kind, by a run longer than any bound. -/
theorem printsOn_of_stops {k : Nat} (stops : Stops (m ()) k) (long : 32768 ≤ k) : PrintsOn al m := by
  intro n
  obtain ⟨os, w, call, length⟩ :=
    @play_print_endless al (max n (k + 1)) m k stops long (by omega)
  obtain ⟨shown, _, outcome⟩ := Result.mk.inj call
  have run := exec_run (memory al) (max n (k + 1)) print m
  rw [outcome] at run
  refine ⟨_, _, run, ?_⟩
  rw [printed, shown, length]
  exact Nat.le_max_left _ _

theorem misses_of_passes {k : Nat} (passes : Passes (m ()) k) : Misses al m := by
  have call := @play_print_passes al (k + 1) m k passes (Nat.lt_succ_self k)
  obtain ⟨shown, _, outcome⟩ := Result.mk.inj call
  refine ⟨_, exec_whole (by rw [outcome]; nofun), strays_of_blocked outcome, shown⟩

/-- What the three kinds of objects lead to excludes one another. -/
theorem prints_iff : Prints al m s ↔ ∃ k < 32768, Stops (m ()) k ∧ s = line (m ()) k := by
  constructor
  · intro prints
    obtain ⟨n₀, found⟩ := prints_outcome prints
    obtain ⟨k, stops | passes⟩ := stops_or_passes (m ())
    · by_cases short : k < 32768
      · have call := @play_print al (max n₀ (2 * k + 1)) m k stops short (by omega)
        rw [found _ (by omega)] at call
        exact ⟨k, short, stops, (Result.mk.inj call).1⟩
      · have on := printsOn_outcome (@printsOn_of_stops al m k stops (by omega)) n₀
        rw [found n₀ (Nat.le_refl _)] at on
        cases on
    · obtain ⟨n₁, blocked⟩ := misses_outcome (@misses_of_passes al m k passes)
      have stuck := blocked (max n₀ n₁) (by omega)
      rw [found _ (by omega)] at stuck
      cases stuck
  · rintro ⟨k, short, stops, rfl⟩
    exact prints_of_stops stops short

/-- The second kind, of the object alone. -/
theorem printsOn_iff : PrintsOn al m ↔ ∃ k, 32768 ≤ k ∧ Stops (m ()) k := by
  constructor
  · intro on
    obtain ⟨k, stops | passes⟩ := stops_or_passes (m ())
    · by_cases short : k < 32768
      · obtain ⟨n₀, found⟩ := prints_outcome (@prints_of_stops al m k stops short)
        have unfinished := printsOn_outcome on n₀
        rw [found n₀ (Nat.le_refl _)] at unfinished
        cases unfinished
      · exact ⟨k, by omega, stops⟩
    · obtain ⟨n₁, blocked⟩ := misses_outcome (@misses_of_passes al m k passes)
      have stuck := blocked n₁ (Nat.le_refl _)
      rw [printsOn_outcome on] at stuck
      cases stuck
  · rintro ⟨k, long, stops⟩
    exact printsOn_of_stops stops long

/-- The third kind, of the object alone. -/
theorem misses_iff : Misses al m ↔ ∀ k, ¬Stops (m ()) k := by
  constructor
  · intro misses k stops
    obtain ⟨n₁, blocked⟩ := misses_outcome misses
    by_cases short : k < 32768
    · obtain ⟨n₀, found⟩ := prints_outcome (@prints_of_stops al m k stops short)
      have stuck := blocked (max n₀ n₁) (by omega)
      rw [found _ (by omega)] at stuck
      cases stuck
    · have stuck := blocked n₁ (Nat.le_refl _)
      rw [printsOn_outcome (printsOn_of_stops stops (by omega))] at stuck
      cases stuck
  · intro none
    obtain ⟨k, stops | passes⟩ := stops_or_passes (m ())
    · exact absurd stops (none k)
    · exact misses_of_passes passes

/-- **What `print` does** with an object: one of three things. If the first 0 at an even offset is
inside the object and at an offset below 65536, it prints the cells before that offset and a new line,
and returns. With such a 0 further on it prints for ever. Without one that an `int` can count to, it
comes to a load outside the object before it prints anything. -/
theorem print_returns :
    (∀ s, Prints al m s ↔ ∃ k < 32768, Stops (m ()) k ∧ s = line (m ()) k) ∧
    (PrintsOn al m ↔ ∃ k, 32768 ≤ k ∧ Stops (m ()) k) ∧
    (Misses al m ↔ ∀ k, ¬Stops (m ()) k) :=
  ⟨fun _ => prints_iff, printsOn_iff, misses_iff⟩

end Call

/-! ## Strings -/

/-- The cells of a string of 4-byte characters that are units: the upper halves are 0. -/
def wide (s : List UInt16) : List UInt16 := s.flatMap fun u => [u, 0]

theorem wide_get? (s : List UInt16) (j : Nat) : (wide s)[2 * j]? = s[j]? := by
  induction s generalizing j with
  | nil => rfl
  | cons u s ih =>
    cases j with
    | zero => rfl
    | succ j => exact ih j

/-- Two cells for each unit. -/
theorem length_wide (s : List UInt16) : (wide s).length = 2 * s.length := by
  induction s with
  | nil => rfl
  | cons u s ih =>
    show (wide s).length + 2 = 2 * (s.length + 1)
    omega

/-- In a string the terminator is the only 0. -/
theorem eq_length_of_zero {s : List UInt16} (noNul : 0 ∉ s) {i : Nat}
    (zero : (s ++ [0])[i]? = some 0) : i = s.length := by
  by_contra ne
  obtain ⟨inside, cell⟩ := List.getElem?_eq_some_iff.mp zero
  rw [List.length_append, List.length_singleton] at inside
  rw [List.getElem_append_left (by omega)] at cell
  exact noNul (cell ▸ List.getElem_mem _)

theorem some_of_lt {s : List UInt16} (noNul : 0 ∉ s) {i : Nat} (inside : i < s.length) :
    ∃ u, (s ++ [0])[i]? = some u ∧ u ≠ 0 := by
  refine ⟨s[i], ?_, fun zero => noNul (zero ▸ List.getElem_mem inside)⟩
  rw [List.getElem?_append_left inside, List.getElem?_eq_getElem inside]

/-- Of 2-byte characters the terminator is found behind an even number of them. -/
theorem stops_string {s : List UInt16} (noNul : 0 ∉ s) (k : Nat) :
    Stops (s ++ [0]) k ↔ s.length = 2 * k ∧ k < 2 ^ 30 := by
  constructor
  · intro stops
    exact ⟨(eq_length_of_zero noNul stops.zero).symm, stops.small⟩
  · rintro ⟨length, small⟩
    refine ⟨fun j below => some_of_lt noNul (by omega), ?_, small⟩
    rw [← length, List.getElem?_append_right (Nat.le_refl _), Nat.sub_self]
    rfl

/-- Of 4-byte characters it is found behind any number. -/
theorem stops_wide {s : List UInt16} (noNul : 0 ∉ s) (k : Nat) :
    Stops (wide (s ++ [0])) k ↔ s.length = k ∧ k < 2 ^ 30 := by
  constructor
  · intro stops
    have zero := stops.zero
    rw [wide_get?] at zero
    exact ⟨(eq_length_of_zero noNul zero).symm, stops.small⟩
  · rintro ⟨rfl, small⟩
    refine ⟨fun j below => ?_, ?_, small⟩
    · rw [wide_get?]
      exact some_of_lt noNul below
    · rw [wide_get?, List.getElem?_append_right (Nat.le_refl _), Nat.sub_self]
      rfl

/-- A string and a new line. -/
def shown (s : List UInt16) : List UInt8 := s.map char ++ [newline]

/-- What is printed of a string of even length is every second cell. -/
theorem line_string {s : List UInt16} {k : Nat} (length : s.length = 2 * k) :
    line (s ++ [0]) k = shown s := by
  rw [line, List.take_left' length, shown]

theorem line_wide (s : List UInt16) : line (wide (s ++ [0])) s.length = shown (wide s) := by
  have split : wide (s ++ [0]) = wide s ++ wide [0] := List.flatMap_append
  rw [line, split, List.take_left' (length_wide s), shown]

/-- **Strings.** A string of 2-byte characters is printed exactly if it has an even number of them,
below 65536; an even number from there on is printed for ever, as far as an `int` can count, and with
an odd number the call comes to a load outside the string's object before it prints anything. Of 4-byte
characters any number below 32768 is printed, with a `NUL` behind each. -/
theorem print_string {al : Allocator Cell} {s : List UInt16} (noNul : 0 ∉ s) :
    (Prints al (fun _ => s ++ [0]) (shown s) ↔ s.length % 2 = 0 ∧ s.length < 65536) ∧
    (PrintsOn al (fun _ => s ++ [0]) ↔
      s.length % 2 = 0 ∧ 65536 ≤ s.length ∧ s.length < 2 ^ 31) ∧
    (Misses al (fun _ => s ++ [0]) ↔ s.length % 2 = 1 ∨ 2 ^ 31 ≤ s.length) ∧
    (Prints al (fun _ => wide (s ++ [0])) (shown (wide s)) ↔ s.length < 32768) ∧
    (PrintsOn al (fun _ => wide (s ++ [0])) ↔ 32768 ≤ s.length ∧ s.length < 2 ^ 30) ∧
    (Misses al (fun _ => wide (s ++ [0])) ↔ 2 ^ 30 ≤ s.length) := by
  simp only [prints_iff, printsOn_iff, misses_iff, stops_string noNul, stops_wide noNul]
  refine ⟨⟨?_, ?_⟩, ⟨?_, ?_⟩, ⟨?_, ?_⟩, ⟨?_, ?_⟩, ⟨?_, ?_⟩, ⟨?_, ?_⟩⟩
  · rintro ⟨k, short, ⟨length, _⟩, _⟩
    omega
  · rintro ⟨even, short⟩
    obtain ⟨k, length⟩ : ∃ k, s.length = 2 * k := ⟨s.length / 2, by omega⟩
    exact ⟨k, by omega, ⟨length, by omega⟩, (line_string length).symm⟩
  · rintro ⟨k, long, length, small⟩
    omega
  · rintro ⟨even, long, small⟩
    exact ⟨s.length / 2, by omega, by omega, by omega⟩
  · intro none
    have half := none (s.length / 2)
    omega
  · rintro outside k ⟨length, small⟩
    omega
  · rintro ⟨k, short, ⟨length, _⟩, _⟩
    omega
  · intro short
    exact ⟨s.length, short, ⟨rfl, by omega⟩, (line_wide s).symm⟩
  · rintro ⟨k, long, length, small⟩
    omega
  · rintro ⟨long, small⟩
    exact ⟨s.length, long, rfl, small⟩
  · intro none
    have all := none s.length
    omega
  · rintro outside k ⟨length, small⟩
    omega

/-- The string of the source, `test_string`, has 11 characters. -/
def testString : List UInt16 := [116, 101, 115, 116, 95, 115, 116, 114, 105, 110, 103]

/-- `test_string` is of odd length. -/
theorem print_string_testString :
    Misses .none (fun _ => testString ++ [0]) ∧
      Prints .none (fun _ => wide (testString ++ [0])) (shown (wide testString)) := by
  obtain ⟨_, _, odd, long, _⟩ := @print_string .none testString (by decide)
  exact ⟨odd.mpr (.inl (by decide)), long.mpr (by decide)⟩

end ZeroProcHot.T
