import ZeroProcHot.Interact.Memory
import ZeroProcHot.MsrEdit.Program

/-!
# The tables of `Charset`

`Charset` fills two tables: `CHARSETZERO` with characters, each before a word that it leaves alone,
and `CHARSET` with pointers to them. Where these words are 0, the pointer of an index leads to the
string that the editor prints for it (`charset_tables`). Among the first 95 of these are the
printable characters of ASCII, each of them once, and the others are empty
(`charsetZero_bijective`).
-/

namespace ZeroProcHot.MsrEdit

open Interact Efi

/-! ## The characters -/

theorem charsetZero_printable : ∀ i < 95, 32 ≤ charsetZero i ∧ charsetZero i ≤ 126 := by decide

theorem charsetZero_beyond {i : Nat} (beyond : 95 ≤ i) : charsetZero i = 0 := by
  have none {a b : Nat} (below : b < 95) : decide (a ≤ i ∧ i ≤ b) = false :=
    decide_eq_false (by omega)
  have first : decide (i ≤ 9) = false := decide_eq_false (by omega)
  unfold charsetZero
  simp only [first, none (by decide : 35 < 95), none (by decide : 61 < 95), none (by decide : 77 < 95),
    none (by decide : 83 < 95), none (by decide : 87 < 95), none (by decide : 94 < 95),
    Bool.toNat_false, Nat.zero_mul, Nat.add_zero]

/-- **Every printable character once.** -/
theorem charsetZero_bijective {c : Nat} (low : 32 ≤ c) (high : c ≤ 126) :
    ∃ i, charsetZero i = c ∧ ∀ j, charsetZero j = c → j = i := by
  have some : ∀ c < 127, 32 ≤ c → ∃ i < 95, charsetZero i = c := by decide +kernel
  have once : ∀ i < 95, ∀ j < 95, charsetZero i = charsetZero j → i = j := by decide +kernel
  obtain ⟨i, inside, rfl⟩ := some c (by omega) low
  refine ⟨i, rfl, fun j same => ?_⟩
  have inside' : j < 95 := by
    by_contra beyond
    rw [charsetZero_beyond (by omega)] at same
    omega
  exact once j inside' i inside same

theorem charset_beyond {i : Nat} (beyond : 95 ≤ i) : charset i = "" :=
  if_pos (charsetZero_beyond beyond)

/-! ## The tables -/

/-- The globals that `Charset` fills. -/
inductive Table where
  | charsetZero
  | charset
  deriving DecidableEq, Repr

/-- The cells: of `CHARSETZERO` units, of `CHARSET` `NULL` or a pointer, by the unit of
`CHARSETZERO` that it points to. -/
abbrev Table.Cell : Table → Type
  | .charsetZero => UInt16
  | .charset => Option Nat

/-- A program over the tables. -/
abbrev TableC (α : Type) := Prog (objects Table.Cell Empty) α

/-- One round of the loop of `Charset`. -/
def charsetRound (i : UInt16) : TableC (UInt16 ⊕ Unit) :=
  if i < 128 then do
    storeTo .charsetZero (i.toNat * 2 : Nat) (UInt16.ofNat (charsetZero i.toNat))
    storeTo .charset i.toNat (some (i.toNat * 2))
    return .inl (i + 1)
  else return .inr ()

/-- The function `Charset`. -/
def fillCharset : TableC Unit := Prog.iter charsetRound 0

/-- The tables have their sizes. -/
structure Sized (m : Memory Table.Cell) : Prop where
  zero : (m .charsetZero).length = 256
  pointers : (m .charset).length = 128

/-- What the rounds before `j` leave: their characters and pointers, and the words between. -/
structure Filled (m : Memory Table.Cell) (j : Nat) (w : Memory Table.Cell) : Prop where
  sized : Sized w
  unit : ∀ i < j, (w .charsetZero)[i * 2]? = some (.ofNat (charsetZero i))
  pointer : ∀ i < j, (w .charset)[i]? = some (some (i * 2))
  between : ∀ i : Nat, (w .charsetZero)[i * 2 + 1]? = (m .charsetZero)[i * 2 + 1]?

/-- The tables after one more round. -/
def fill (w : Memory Table.Cell) (j : Nat) : Memory Table.Cell :=
  (w.put .charsetZero ((w .charsetZero).set (j * 2) (.ofNat (charsetZero j)))).put .charset
    ((w .charset).set j (some (j * 2)))

@[simp] theorem fill_charsetZero (w : Memory Table.Cell) (j : Nat) :
    fill w j .charsetZero = (w .charsetZero).set (j * 2) (.ofNat (charsetZero j)) := by
  rw [fill, Memory.put_of_ne _ (by decide), Memory.put_self]

@[simp] theorem fill_charset (w : Memory Table.Cell) (j : Nat) :
    fill w j .charset = (w .charset).set j (some (j * 2)) := by
  rw [fill, Memory.put_self]

theorem Filled.fill {m w : Memory Table.Cell} {j : Nat} (filled : Filled m j w) (hj : j < 128) :
    Filled m (j + 1) (fill w j) where
  sized := by
    constructor
    · rw [fill_charsetZero, List.length_set, filled.sized.zero]
    · rw [fill_charset, List.length_set, filled.sized.pointers]
  unit i hi := by
    have size := filled.sized.zero
    rw [fill_charsetZero, List.getElem?_set]
    by_cases here : i = j
    · rw [if_pos (by omega), if_pos (by omega), here]
    · rw [if_neg (by omega)]
      exact filled.unit i (by omega)
  pointer i hi := by
    have size := filled.sized.pointers
    rw [fill_charset, List.getElem?_set]
    by_cases here : i = j
    · rw [if_pos here.symm, if_pos (by omega), here]
    · rw [if_neg (Ne.symm here)]
      exact filled.pointer i (by omega)
  between i := by
    rw [fill_charsetZero, List.getElem?_set_ne (by omega)]
    exact filled.between i

/-- The stores of a round. -/
def stores (j : Nat) : List (Table × Int) :=
  [(.charsetZero, ((j * 2 : Nat) : Int)), (.charset, (j : Int))]

section Loop

variable {al : Allocator Table.Cell} {n : Nat} {m w : Memory Table.Cell}

theorem toNat_index {j : Nat} (small : j ≤ 128) : (UInt16.ofNat j).toNat = j := by
  rw [UInt16.toNat_ofNat']
  exact Nat.mod_eq_of_lt (by omega)

/-- A round fills one more cell of each table. -/
theorem play_charsetRound (sized : Sized w) {j : Nat} (hj : j < 128) :
    play (memory al) n stored (charsetRound (.ofNat j)) w =
      ⟨stores j, fill w j, .returned (.inl (.ofNat (j + 1)))⟩ := by
  have index := toNat_index (by omega : j ≤ 128)
  have more : UInt16.ofNat j < 128 := UInt16.lt_iff_toNat_lt.mpr (by rw [index]; exact hj)
  have unit : j * 2 < (w .charsetZero).length := by
    rw [sized.zero]
    omega
  have pointer : j < (w.put .charsetZero
      ((w .charsetZero).set (j * 2) (.ofNat (charsetZero j))) Table.charset).length := by
    rw [Memory.put_of_ne _ (by decide), sized.pointers]
    exact hj
  rw [charsetRound, if_pos more, index, play_seq (play_storeTo rfl unit _), Result.andThen_returned,
    play_seq (play_storeTo rfl pointer _), Result.andThen_returned, Memory.put_of_ne _ (by decide),
    UInt16.ofNat_add]
  rfl

theorem play_fillCharset (sized : Sized m) (hn : 128 < n) :
    ∃ w, play (memory al) n stored fillCharset m =
      ⟨(List.range 128).flatMap stores, w, .returned ()⟩ ∧ Filled m 128 w := by
  have step (j : Nat) (w : Memory Table.Cell) (hj : j < 128) (filled : Filled m j w) :
      ∃ w', play (memory al) n stored (charsetRound (.ofNat j)) w =
        ⟨stores j, w', .returned (.inl (.ofNat (j + 1)))⟩ ∧ Filled m (j + 1) w' :=
    ⟨fill w j, play_charsetRound filled.sized hj, filled.fill hj⟩
  have last (w : Memory Table.Cell) (_ : Filled m 128 w) :
      play (memory al) n stored (charsetRound (.ofNat 128)) w = ⟨[], w, .returned (.inr ())⟩ := rfl
  have start : Filled m 0 m := ⟨sized, nofun, nofun, fun _ => rfl⟩
  exact play_counted step last hn start

end Loop

/-- What the tables hold after all rounds is determined. -/
theorem Filled.unique {m w w' : Memory Table.Cell} (filled : Filled m 128 w)
    (filled' : Filled m 128 w') : w = w' := by
  funext k
  cases k with
  | charsetZero =>
    refine List.ext_getElem? fun i => ?_
    have zero := filled.sized.zero
    have zero' := filled'.sized.zero
    obtain ⟨h, even | odd⟩ : ∃ h, i = h * 2 ∨ i = h * 2 + 1 := ⟨i / 2, by omega⟩
    · by_cases inside : h < 128
      · rw [even, filled.unit h inside, filled'.unit h inside]
      · rw [List.getElem?_eq_none (by omega), List.getElem?_eq_none (by omega)]
    · rw [odd, filled.between h, filled'.between h]
  | charset =>
    refine List.ext_getElem? fun i => ?_
    have pointers := filled.sized.pointers
    have pointers' := filled'.sized.pointers
    by_cases inside : i < 128
    · rw [filled.pointer i inside, filled'.pointer i inside]
    · rw [List.getElem?_eq_none (by omega), List.getElem?_eq_none (by omega)]

/-! ## The strings -/

/-- A cell from which on a string stands: its units, and the terminator. -/
def Leads (cells : List UInt16) (i : Nat) (units : List UInt16) : Prop :=
  ∃ behind, cells.drop i = units ++ 0 :: behind ∧ 0 ∉ units

/-- There is one string at most. -/
theorem Leads.unique {cells units units' : List UInt16} {i : Nat} (leads : Leads cells i units)
    (leads' : Leads cells i units') : units = units' := by
  obtain ⟨behind, cut, none⟩ := leads
  obtain ⟨behind', cut', none'⟩ := leads'
  have stop (us rest : List UInt16) (h : 0 ∉ us) :
      (us ++ 0 :: rest).takeWhile (fun u => decide (u ≠ 0)) = us := by
    have all : ∀ u ∈ us, decide (u ≠ 0) = true := by
      intro u mem
      refine decide_eq_true fun zero => ?_
      subst zero
      exact h mem
    rw [List.takeWhile_append_of_pos all]
    exact List.append_nil us
  rw [← stop units behind none, ← cut, cut', stop units' behind' none']

/-- The units of a string. -/
def unitsOf (s : String) : List UInt16 := s.toList.map chr

theorem unitsOf_charset : ∀ i < 95, unitsOf (charset i) = [.ofNat (charsetZero i)] := by decide

/-- Which strings are a printable character. -/
theorem unitsOf_charset_iff (i : Nat) {c : Nat} (low : 32 ≤ c) (high : c ≤ 126) :
    unitsOf (charset i) = [.ofNat c] ↔ charsetZero i = c := by
  by_cases inRange : i < 95
  · have value {v : Nat} (small : v ≤ 126) : (UInt16.ofNat v).toNat = v := by
      rw [UInt16.toNat_ofNat']
      exact Nat.mod_eq_of_lt (by omega)
    rw [unitsOf_charset i inRange]
    constructor
    · intro same
      have units := congrArg UInt16.toNat (List.cons.inj same).1
      rw [value (charsetZero_printable i inRange).2, value high] at units
      exact units
    · intro same
      rw [same]
  · rw [charset_beyond (by omega), charsetZero_beyond (by omega)]
    constructor
    · exact nofun
    · omega

/-- A character before a word that is 0 is the string that is printed for it. -/
theorem leads_charset {cells : List UInt16} {i : Nat}
    (unit : cells[i * 2]? = some (.ofNat (charsetZero i))) (zero : cells[i * 2 + 1]? = some 0) :
    Leads cells (i * 2) (unitsOf (charset i)) := by
  obtain ⟨inside, unit⟩ := List.getElem?_eq_some_iff.mp unit
  obtain ⟨inside', zero⟩ := List.getElem?_eq_some_iff.mp zero
  have cut : cells.drop (i * 2) = .ofNat (charsetZero i) :: 0 :: cells.drop (i * 2 + 2) := by
    rw [List.drop_eq_getElem_cons inside, List.drop_eq_getElem_cons inside', unit, zero]
  rw [Leads, cut]
  by_cases none : charsetZero i = 0
  · have empty : charset i = "" := if_pos none
    rw [empty, none]
    exact ⟨_, rfl, nofun⟩
  · have inRange : i < 95 := by
      by_contra beyond
      exact none (charsetZero_beyond (by omega))
    obtain ⟨low, high⟩ := charsetZero_printable i inRange
    have units := unitsOf_charset i inRange
    rw [units]
    refine ⟨_, rfl, fun mem => ?_⟩
    have value := congrArg UInt16.toNat (List.mem_singleton.mp mem)
    rw [UInt16.toNat_ofNat', UInt16.toNat_zero] at value
    omega

/-- **The tables.** From tables of their sizes whose words between are 0, whatever else they hold, a
call of `Charset` returns, in one way only, and stores to nothing but the cells that it fills. Then
each pointer leads to the string that the editor prints for its index, exactly one of them to each
printable character, and another call changes nothing. -/
theorem charset_tables {al : Allocator Table.Cell} {m : Memory Table.Cell} (sized : Sized m)
    (zeros : ∀ i < 128, (m .charsetZero)[i * 2 + 1]? = some 0) :
    (∃ w, Returns (memory al).env m fillCharset w () ∧
      (∀ w' u, Returns (memory al).env m fillCharset w' u → w' = w) ∧
      (∀ i < 128, ∃ p, (w .charset)[i]? = some (some p) ∧
        Leads (w .charsetZero) p (unitsOf (charset i))) ∧
      (∀ c, 32 ≤ c → c ≤ 126 → ∃ i < 128, ∀ j p, (w .charset)[j]? = some (some p) →
        (Leads (w .charsetZero) p [.ofNat c] ↔ j = i)) ∧
      Returns (memory al).env w fillCharset w ()) ∧
    ∀ tr w out, Run (memory al).env m fillCharset tr w out →
      (events tr).filterMap stored <+: (List.range 128).flatMap stores := by
  constructor
  · obtain ⟨w, played, filled⟩ := @play_fillCharset al 129 m sized (by decide)
    obtain ⟨w', again, refilled⟩ := @play_fillCharset al 129 w filled.sized (by decide)
    have found := returns_of_play played
    have same : w' = w := by
      refine Filled.unique ⟨refilled.sized, refilled.unit, refilled.pointer, fun i => ?_⟩ filled
      exact (refilled.between i).trans (filled.between i)
    have leads (i : Nat) (inside : i < 128) :
        Leads (w .charsetZero) (i * 2) (unitsOf (charset i)) :=
      leads_charset (filled.unit i inside) ((filled.between i).trans (zeros i inside))
    refine ⟨w, found, fun _ _ other => (other.unique (memory al).deterministic found).1, ?_, ?_, ?_⟩
    · exact fun i inside => ⟨i * 2, filled.pointer i inside, leads i inside⟩
    · intro c low high
      obtain ⟨i, index, only⟩ := charsetZero_bijective low high
      have inside : i < 128 := by
        by_contra beyond
        rw [charsetZero_beyond (by omega)] at index
        omega
      refine ⟨i, inside, fun j p pointer => ?_⟩
      have bound : j < 128 := by
        rw [← filled.sized.pointers]
        exact (List.getElem?_eq_some_iff.mp pointer).1
      have found := (filled.pointer j bound).symm.trans pointer
      obtain rfl : j * 2 = p := Option.some.inj (Option.some.inj found)
      constructor
      · intro here
        exact only j ((unitsOf_charset_iff j low high).mp ((leads j bound).unique here))
      · rintro rfl
        rw [← (unitsOf_charset_iff j low high).mpr index]
        exact leads j bound
    · have second := returns_of_play again
      rw [same] at second
      exact second
  · intro tr w out run
    obtain ⟨n₀, seen⟩ := play_of_run run
    obtain ⟨w', played, _⟩ := @play_fillCharset al (max n₀ 129) m sized (by omega)
    have steps := (seen (max n₀ 129) (by omega)).1
    rw [played] at steps
    exact steps

/-- The globals of a program that has just started. -/
def cleared : Memory Table.Cell
  | .charsetZero => List.replicate 256 0
  | .charset => List.replicate 128 none

theorem charset_tables_cleared :
    ∃ w, Returns (memory .none).env cleared fillCharset w () ∧
      ∃ p, (w .charset)[1]? = some (some p) ∧ Leads (w .charsetZero) p [chr '1'] := by
  have zeros : ∀ i < 128, (cleared .charsetZero)[i * 2 + 1]? = some 0 := by
    intro i inside
    exact List.getElem?_replicate.trans (if_pos (by omega))
  obtain ⟨⟨w, found, _, leads, _⟩, _⟩ :=
    @charset_tables .none cleared ⟨List.length_replicate, List.length_replicate⟩ zeros
  exact ⟨w, found, leads 1 (by decide)⟩

end ZeroProcHot.MsrEdit
