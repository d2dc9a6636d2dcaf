import ZeroProcHot.Efi.Firmware

/-!
# A text display

What the output calls leave on a display: a cursor and the character of each cell. A line is as long
as what is printed on it, since no program here prints past the edge of the screen below its header.
-/

namespace ZeroProcHot.Efi

variable {P : Type}

/-- The cursor, and the character in each column and row. -/
structure Display where
  column : Nat
  row : Nat
  cell : Nat → Nat → Char

namespace Display

/-- Print one character. -/
def put (d : Display) (c : Char) : Display :=
  if c = '\r' then { d with column := 0 }
  else if c = '\n' then { d with row := d.row + 1 }
  else
    { d with
      column := d.column + 1
      cell := fun x y => if x = d.column ∧ y = d.row then c else d.cell x y }

/-- Print some characters. -/
def puts (d : Display) (cs : List Char) : Display := cs.foldl put d

/-- The display after a string. -/
def print (d : Display) (s : String) : Display := d.puts s.toList

/-- What a call leaves on the display. -/
def draw (d : Display) : Call P → Display
  | .outputString s => d.print s
  | .setCursorPosition column row => { d with column, row }
  | .reset _ => ⟨0, 0, fun _ _ => ' '⟩
  | _ => d

/-- The display after some calls. -/
def drawn (d : Display) (cs : List (Call P)) : Display := cs.foldl draw d

@[simp] theorem drawn_nil (d : Display) : d.drawn ([] : List (Call P)) = d := rfl

@[simp] theorem drawn_cons (d : Display) (c : Call P) (cs : List (Call P)) :
    d.drawn (c :: cs) = (d.draw c).drawn cs := rfl

@[simp] theorem drawn_append (d : Display) (cs cs' : List (Call P)) :
    d.drawn (cs ++ cs') = (d.drawn cs).drawn cs' := List.foldl_append

/-- Characters that stay on one line. -/
def Plain (cs : List Char) : Prop := ∀ c ∈ cs, c ≠ '\r' ∧ c ≠ '\n'

instance (cs : List Char) : Decidable (Plain cs) :=
  List.decidableBAll (fun c => c ≠ '\r' ∧ c ≠ '\n') cs

/-- A plain character goes to the cursor, which moves one column to the right. -/
theorem put_plain {c : Char} (h : c ≠ '\r' ∧ c ≠ '\n') (d : Display) :
    d.put c = { d with
      column := d.column + 1
      cell := fun x y => if x = d.column ∧ y = d.row then c else d.cell x y } := by
  unfold put
  rw [if_neg h.1, if_neg h.2]

/-- Characters on one line leave what stands before them and what stands on other lines. -/
theorem puts_plain {cs : List Char} (h : Plain cs) (d : Display) :
    (d.puts cs).row = d.row ∧ (d.puts cs).column = d.column + cs.length ∧
      ∀ x y, x < d.column ∨ y ≠ d.row → (d.puts cs).cell x y = d.cell x y := by
  induction cs generalizing d with
  | nil => exact ⟨rfl, rfl, fun _ _ _ => rfl⟩
  | cons c cs ih =>
    obtain ⟨first, rest⟩ := List.forall_mem_cons.mp h
    have put := put_plain first d
    obtain ⟨row, column, cell⟩ := ih rest (d.put c)
    change ((d.put c).puts cs).row = _ ∧ ((d.put c).puts cs).column = _ ∧
      ∀ x y, _ → ((d.put c).puts cs).cell x y = _
    rw [put] at row column cell ⊢
    dsimp only at row column cell
    refine ⟨row, by rw [column, List.length_cons]; omega, fun x y away => ?_⟩
    rw [cell x y (by omega)]
    exact if_neg (by omega)

/-- The first character. -/
theorem puts_first {c : Char} {cs : List Char} (h : Plain (c :: cs)) (d : Display) :
    (d.puts (c :: cs)).cell d.column d.row = c := by
  obtain ⟨first, rest⟩ := List.forall_mem_cons.mp h
  have left := (puts_plain rest (d.put c)).2.2 d.column d.row
  rw [put_plain first] at left
  have here := left (.inl (Nat.lt_succ_self _))
  change ((d.put c).puts cs).cell d.column d.row = c
  rw [put_plain first, here]
  exact if_pos ⟨rfl, rfl⟩

/-- Printing goes no row up, and leaves the rows below the one it ends in. -/
theorem puts_below (cs : List Char) (d : Display) :
    d.row ≤ (d.puts cs).row ∧ ∀ x y, (d.puts cs).row < y → (d.puts cs).cell x y = d.cell x y := by
  induction cs generalizing d with
  | nil => exact ⟨Nat.le_refl _, fun _ _ _ => rfl⟩
  | cons c cs ih =>
    have first : d.row ≤ (d.put c).row ∧
        ∀ x y, (d.put c).row < y → (d.put c).cell x y = d.cell x y := by
      by_cases plain : c ≠ '\r' ∧ c ≠ '\n'
      · rw [put_plain plain]
        refine ⟨Nat.le_refl _, fun x y lower => if_neg fun here => ?_⟩
        exact absurd here.2 (Nat.ne_of_gt lower)
      · by_cases back : c = '\r'
        · rw [put, if_pos back]
          exact ⟨Nat.le_refl _, fun _ _ _ => rfl⟩
        · have down : c = '\n' := not_not.mp fun other => plain ⟨back, other⟩
          rw [put, if_neg back, if_pos down]
          exact ⟨Nat.le_succ _, fun _ _ _ => rfl⟩
    obtain ⟨row, cell⟩ := ih (d.put c)
    refine ⟨first.1.trans row, fun x y lower => ?_⟩
    exact (cell x y lower).trans (first.2 x y (Nat.lt_of_le_of_lt row lower))

/-- A line end moves the cursor only. -/
theorem print_lineEnd (d : Display) : (d.print "\r\n").cell = d.cell := rfl

/-! ## Lines -/

/-- The row begins with the characters. -/
def Begins (d : Display) (y : Nat) (cs : List Char) : Prop :=
  ∀ x c, cs[x]? = some c → d.cell x y = c

/-- By induction on the characters. -/
theorem puts_cells {cs : List Char} (h : Plain cs) (d : Display) {x : Nat} {c : Char}
    (found : cs[x]? = some c) : (d.puts cs).cell (d.column + x) d.row = c := by
  induction cs generalizing d x with
  | nil => cases found
  | cons c₀ cs ih =>
    cases x with
    | zero =>
      obtain rfl : c₀ = c := Option.some.inj found
      exact puts_first h d
    | succ x =>
      obtain ⟨first, rest⟩ := List.forall_mem_cons.mp h
      have later := ih rest (d.put c₀) found
      rw [put_plain first] at later
      change ((d.put c₀).puts cs).cell _ _ = c
      rw [put_plain first, ← later]
      congr 1
      show d.column + (x + 1) = d.column + 1 + x
      omega

/-- Print some characters and a line end. -/
def printLine (d : Display) (cs : List Char) : Display := (d.puts cs).print "\r\n"

theorem printLine_column (d : Display) (cs : List Char) : (d.printLine cs).column = 0 := rfl

/-- A line ends in the row below. -/
theorem printLine_row {cs : List Char} (h : Plain cs) (d : Display) :
    (d.printLine cs).row = d.row + 1 := congrArg (· + 1) (puts_plain h d).1

/-- A line changes no cell of another row. -/
theorem printLine_cell {cs : List Char} (h : Plain cs) (d : Display) {x y : Nat}
    (other : y ≠ d.row) : (d.printLine cs).cell x y = d.cell x y :=
  (puts_plain h d).2.2 x y (.inr other)

/-- Lines leave the rows above. -/
theorem printLines_cell {lines : List (List Char)} (h : ∀ cs ∈ lines, Plain cs) (d : Display)
    {x y : Nat} (above : y < d.row) : (lines.foldl printLine d).cell x y = d.cell x y := by
  induction lines generalizing d with
  | nil => rfl
  | cons cs lines ih =>
    obtain ⟨first, rest⟩ := List.forall_mem_cons.mp h
    have later : y < (d.printLine cs).row := by
      rw [printLine_row first]
      omega
    rw [List.foldl_cons, ih rest _ later, printLine_cell first d (by omega)]

/-- **Lines printed from the first column on stand one below the other.** -/
theorem printLines_begin {lines : List (List Char)} (h : ∀ cs ∈ lines, Plain cs) {d : Display}
    (start : d.column = 0) {i : Nat} {cs : List Char} (found : lines[i]? = some cs) :
    (lines.foldl printLine d).Begins (d.row + i) cs := by
  induction lines generalizing d i with
  | nil => cases found
  | cons cs₀ lines ih =>
    obtain ⟨first, rest⟩ := List.forall_mem_cons.mp h
    have row := printLine_row first d
    rw [List.foldl_cons]
    cases i with
    | zero =>
      obtain rfl : cs₀ = cs := Option.some.inj found
      intro x c hx
      have here := puts_cells first d hx
      rw [start, Nat.zero_add] at here
      rw [printLines_cell rest _ (by omega)]
      exact here
    | succ i =>
      have later := ih rest (printLine_column d cs₀) found
      rw [row] at later
      rw [show d.row + (i + 1) = d.row + 1 + i by omega]
      exact later

end Display

end ZeroProcHot.Efi
