import ZeroProcHot.Tmp.Layout
import ZeroProcHot.Tmp.Navigation
import ZeroProcHot.Tmp.Screen

/-!
# What stands on the console

Whenever the program waits for a key, the menu stands on the console with one of its lines marked, and
the cells tell the values that the program has read of the register since the console was cleared: of
the first the flag above the menu, of the second the 64 bits, and below them, when there is a question,
those of the operand and of the result, one below the other. What is written is the result that stood
there at the question, bit for bit (`efiMain_pictured`). Nothing is said of the environment: a register
that others change is shown as it was read.
-/

namespace ZeroProcHot.Tmp

open Interact Efi Words Terminal

/-! ## Rows of bits -/

/-- The character of a digit. -/
def figure (b : Bool) : Char := if b then '1' else '0'

/-- The characters of a value, the most significant bit first. -/
def figures (data : UInt64) : List Char := (digits 64 data.toNat).map figure

/-- Bit `i` of a value stands `63 - i` places behind bit 63. -/
theorem figures_get? (data : UInt64) {i : Nat} (hi : i < 64) :
    (figures data)[63 - i]? = some (figure (bit i data)) := by
  have place : (List.range 64).reverse[63 - i]? = some i := by
    rw [List.getElem?_reverse (by rw [List.length_range]; omega), List.length_range,
      List.getElem?_range (by omega)]
    congr 1
    omega
  unfold figures digits
  rw [List.getElem?_map, List.getElem?_map, place]
  rfl

/-- A figure does not move the cursor to another line. -/
theorem figure_plain (b : Bool) : figure b ≠ '\r' ∧ figure b ≠ '\n' := by
  cases b <;> decide

/-- A head and its figures stay on one line. -/
theorem plain_figures {head : List Char} (plain : Display.Plain head) (data : UInt64) :
    Display.Plain (head ++ figures data) := by
  intro c mem
  rcases List.mem_append.mp mem with front | back
  · exact plain c front
  · obtain ⟨b, _, rfl⟩ := List.mem_map.mp back
    exact figure_plain b

/-- A row of the console: its head, and the bits of a value, bit `i` in column `71 - i`. -/
structure Row (d : Display) (y : Nat) (head : String) (data : UInt64) : Prop where
  head : d.Begins y head.toList
  bits : ∀ i < 64, d.cell (71 - i) y = figure (bit i data)

/-- A line that begins with a head of eight characters and the figures is a row. -/
theorem row_of_begins {d : Display} {y : Nat} {head : String} {data : UInt64}
    (eight : head.toList.length = 8) (begins : d.Begins y (head.toList ++ figures data)) :
    Row d y head data where
  head x c found := by
    refine begins x c ?_
    rw [List.getElem?_append_left (List.getElem?_eq_some_iff.mp found).1]
    exact found
  bits i hi := by
    refine begins (71 - i) _ ?_
    rw [List.getElem?_append_right (by omega), eight, ← figures_get? data hi]
    congr 1
    omega

/-! ## Printing below -/

/-- Print some characters on the next line. -/
def below (d : Display) (cs : List Char) : Display := (d.print "\r\n").puts cs

section Below

variable {cs : List Char} (plain : Display.Plain cs) (d : Display)
include plain

/-- Printing below goes down one line. -/
theorem below_row : (below d cs).row = d.row + 1 := (Display.puts_plain plain (d.print "\r\n")).1

/-- The line below begins with what is printed there. -/
theorem below_begins : (below d cs).Begins (d.row + 1) cs := by
  intro x c found
  have cell := Display.puts_cells plain (d.print "\r\n") found
  have start : (d.print "\r\n").column = 0 := rfl
  rw [start, Nat.zero_add] at cell
  exact cell

/-- The other lines stay as they are. -/
theorem below_cell {x y : Nat} (other : y ≠ d.row + 1) : (below d cs).cell x y = d.cell x y :=
  (Display.puts_plain plain (d.print "\r\n")).2.2 x y (.inr other)

end Below

/-- What stands in another row stays. -/
theorem Row.below {d : Display} {y : Nat} {head : String} {data : UInt64} (row : Row d y head data)
    {cs : List Char} (plain : Display.Plain cs) (other : y ≠ d.row + 1) :
    Row (Tmp.below d cs) y head data where
  head x c found := (below_cell plain d other).trans (row.head x c found)
  bits i hi := (below_cell plain d other).trans (row.bits i hi)

/-! ## The pictures -/

/-- Digits printed one by one are the figures of one line. -/
theorem foldl_print_digit (ds : List Bool) (d : Display) :
    (ds.map digit).foldl Display.print d = d.puts (ds.map figure) := by
  induction ds generalizing d with
  | nil => rfl
  | cons b ds ih =>
    have first : d.print (digit b) = d.put (figure b) := by
      cases b <;> rfl
    rw [List.map_cons, List.foldl_cons, ih, first]
    rfl

/-- What `strRow` leaves. -/
def rowed (d : Display) (head : String) (data : UInt64) : Display :=
  (rowOf head data).foldl Display.print d

/-- A row is its head and its figures, printed on the line below. -/
theorem rowed_eq (d : Display) (head : String) (data : UInt64) :
    rowed d head data = below d (head.toList ++ figures data) := by
  rw [rowed, rowOf, List.foldl_cons, List.foldl_cons, foldl_print_digit]
  exact List.foldl_append.symm

/-- What `read_0x1fc` leaves below the menu. -/
def readPicture (d : Display) (v : UInt64) : Display := rowed d "\r\n 0x1FC: " v

theorem readPicture_eq (d : Display) (v : UInt64) :
    readPicture d v = below (d.print "\r\n") (" 0x1FC: ".toList ++ figures v) := by
  have cut : "\r\n 0x1FC: ".toList = "\r\n".toList ++ " 0x1FC: ".toList := by decide
  rw [readPicture, rowed_eq, cut, List.append_assoc]
  exact List.foldl_append

/-- What a change leaves up to the result. -/
def tablePicture (d : Display) (c : Change) (v : UInt64) : Display :=
  rowed (((rowed (readPicture d v) c.op c.term).print "\r\n").print tblHL) "RESULT: " (c.apply v)

/-- `msgConfirm` without the line ends before it. -/
def writePrompt : String := "Write Result to System? (Y/n) "

/-- What a change leaves when it asks its question. -/
def questionPicture (d : Display) (c : Change) (v : UInt64) : Display :=
  (tablePicture d c v).print msgConfirm

theorem questionPicture_eq (d : Display) (c : Change) (v : UInt64) :
    questionPicture d c v =
      below (((tablePicture d c v).print "\r\n").print "\r\n") writePrompt.toList := by
  have cut : msgConfirm.toList =
      "\r\n".toList ++ ("\r\n".toList ++ ("\r\n".toList ++ writePrompt.toList)) := by decide +kernel
  unfold questionPicture below Display.print Display.puts
  rw [cut, List.foldl_append, List.foldl_append, List.foldl_append]

/-- **The question**: the value in row 13, the operand below it, the result below a line and the
question, each bit in the column of its number. -/
structure Asks (d : Display) (c : Change) (v : UInt64) : Prop where
  value : Row d 13 " 0x1FC: " v
  operand : Row d 14 c.op c.term
  result : Row d 16 "RESULT: " (c.apply v)
  asks : d.Begins 19 writePrompt.toList

section Pictures

variable {d : Display}

theorem head_plain : Display.Plain " 0x1FC: ".toList := by decide

theorem op_plain (c : Change) : Display.Plain c.op.toList := by
  cases c <;> decide

/-- From the foot of the menu the row of a read is two lines down. -/
theorem readPicture_row (foot : d.row = 11) (v : UInt64) : (readPicture d v).row = 13 := by
  rw [readPicture_eq, below_row (plain_figures head_plain v)]
  exact congrArg (· + 2) foot

theorem readPicture_value (foot : d.row = 11) (v : UInt64) : Row (readPicture d v) 13 " 0x1FC: " v := by
  have begins := below_begins (plain_figures head_plain v) (d.print "\r\n")
  have here : (d.print "\r\n").row + 1 = 13 := congrArg (· + 2) foot
  rw [here, ← readPicture_eq] at begins
  exact row_of_begins (by decide) begins

/-- What stands above stays. -/
theorem readPicture_cell (foot : d.row = 11) (v : UInt64) {x y : Nat} (other : y ≠ 13) :
    (readPicture d v).cell x y = d.cell x y := by
  have here : (d.print "\r\n").row + 1 = 13 := congrArg (· + 2) foot
  rw [readPicture_eq]
  exact below_cell (plain_figures head_plain v) _ (here ▸ other)

/-- The picture up to the result. -/
theorem tablePicture_rows (foot : d.row = 11) (c : Change) (v : UInt64) :
    (tablePicture d c v).row = 16 ∧ Row (tablePicture d c v) 13 " 0x1FC: " v ∧
      Row (tablePicture d c v) 14 c.op c.term ∧
      Row (tablePicture d c v) 16 "RESULT: " (c.apply v) ∧
      ∀ x y, y < 13 → (tablePicture d c v).cell x y = d.cell x y := by
  have plainOp := plain_figures (op_plain c) c.term
  have plainRule : Display.Plain tblHL.toList := by decide +kernel
  have plainResult : Display.Plain ("RESULT: ".toList ++ figures (c.apply v)) :=
    plain_figures (by decide) _
  have picture : tablePicture d c v = below (below (below (readPicture d v)
      (c.op.toList ++ figures c.term)) tblHL.toList)
      ("RESULT: ".toList ++ figures (c.apply v)) := by
    rw [tablePicture, rowed_eq, rowed_eq]
    rfl
  have row₁ := readPicture_row foot v
  have row₂ := below_row plainOp (readPicture d v)
  rw [row₁] at row₂
  have row₃ := below_row plainRule (below (readPicture d v) (c.op.toList ++ figures c.term))
  rw [row₂] at row₃
  have row₄ := below_row plainResult
    (below (below (readPicture d v) (c.op.toList ++ figures c.term)) tblHL.toList)
  rw [row₃] at row₄
  have opHead : c.op.toList.length = 8 := by
    cases c <;> decide
  have operand := below_begins plainOp (readPicture d v)
  rw [row₁] at operand
  have result := below_begins plainResult
    (below (below (readPicture d v) (c.op.toList ++ figures c.term)) tblHL.toList)
  rw [row₃] at result
  rw [picture]
  refine ⟨row₄, ?_, ?_, row_of_begins (by decide) result, fun x y above => ?_⟩
  · exact (((readPicture_value foot v).below plainOp (by omega)).below plainRule (by omega)).below
      plainResult (by omega)
  · exact ((row_of_begins opHead operand).below plainRule (by omega)).below plainResult (by omega)
  · rw [below_cell plainResult _ (by omega), below_cell plainRule _ (by omega),
      below_cell plainOp _ (by omega), readPicture_cell foot v (by omega)]

/-- Under the menu the question has its three rows above it, and the screen down to the row of the
read is left alone. -/
theorem questionPicture_asks (foot : d.row = 11) (c : Change) (v : UInt64) :
    Asks (questionPicture d c v) c v ∧
      ∀ x y, y < 13 → (questionPicture d c v).cell x y = d.cell x y := by
  obtain ⟨row, value, operand, result, above⟩ := tablePicture_rows foot c v
  have plain : Display.Plain writePrompt.toList := by decide +kernel
  have lines (d : Display) {y : Nat} {head : String} {data : UInt64} (h : Row d y head data) :
      Row ((d.print "\r\n").print "\r\n") y head data := ⟨h.head, h.bits⟩
  have here : (((tablePicture d c v).print "\r\n").print "\r\n").row + 1 = 19 :=
    congrArg (· + 3) row
  have asks := below_begins plain (((tablePicture d c v).print "\r\n").print "\r\n")
  rw [here] at asks
  rw [questionPicture_eq]
  refine ⟨⟨?_, ?_, ?_, asks⟩, fun x y less => ?_⟩
  · exact (lines _ value).below plain (by omega)
  · exact (lines _ operand).below plain (by omega)
  · exact (lines _ result).below plain (by omega)
  · rw [below_cell plain _ (by omega)]
    exact above x y less

end Pictures

/-! ## The rule -/

/-- What is remembered: the console, the values that were read since it was cleared, whether the
question was printed last, and what stood on the console when it was last asked. -/
structure Glass where
  console : Display
  reads : List UInt64
  asking : Bool
  asked : Option Display

/-- What is remembered after an event that leaves this on the console. -/
def Glass.note (g : Glass) (d : Display) : Event (firmware Point) → Glass
  | ⟨.outputString s, _⟩ =>
    ⟨d, g.reads, decide (s = msgConfirm), if s = msgConfirm then some d else g.asked⟩
  | ⟨.reset _, _⟩ => ⟨d, [], false, g.asked⟩
  | ⟨.rdmsr _, r⟩ => ⟨d, g.reads ++ [r.value], g.asking, g.asked⟩
  | _ => ⟨d, g.reads, g.asking, g.asked⟩

/-- What is remembered after an event, of a console that draws in this way. -/
def watch (draw : Display → Call Point → Display) (g : Glass) (e : Event (firmware Point)) : Glass :=
  g.note (draw g.console e.call) e

/-- The texts of the four lines of the menu. -/
def items : List String := ["1. Read 0x1FC", "2. Clear BD_PROCHOT", "3. Set BD_PROCHOT", "0. Exit"]

/-- The menu: bit 0 of a value above it, its lines in the rows 7 to 10, and the mark on exactly one of
them. -/
structure ShowsMenu (d : Display) (v : UInt64) : Prop where
  label : d.Begins 3 "BD_PROCHOT: ".toList
  flag : d.cell 12 3 = figure (bit 0 v)
  lines : ∃ marked, MarkAt d marked ∧ ∀ i < 4,
    d.Begins (7 + i) ((if i = marked then "> " else "  ").toList ++ (items.getD i "").toList)

/-- **What the console tells** of the values that were read: of the first the flag above the menu; of
the second the bits, and those of a change of it when there is a question. Below the menu nothing else
stands without a question. -/
inductive Tells (d : Display) : (asking : Bool) → (reads : List UInt64) → Prop where
  | menu (v : UInt64) : ShowsMenu d v → (∀ x y, 11 ≤ y → d.cell x y = ' ') → Tells d false [v]
  | value (v₀ v : UInt64) : ShowsMenu d v₀ → Row d 13 " 0x1FC: " v →
    (∀ x y, 11 ≤ y → y ≠ 13 → d.cell x y = ' ') → Tells d false [v₀, v]
  | question (v₀ v : UInt64) (c : Change) : ShowsMenu d v₀ → Asks d c v → Tells d true [v₀, v]

/-- When the program waits, the console tells what was read. What it writes is written to 0x1FC, and is
the result that stood on the console at the question. -/
def glass : Protocol (firmware Point) Glass where
  next := watch Display.draw
  allows g e :=
    match e.call with
    | .waitForEvent => Tells g.console g.asking g.reads
    | .wrmsr addr low high => addr = powerCtl ∧
        ∃ d c v, g.asked = some d ∧ Asks d c v ∧ Halves.value ⟨low, high⟩ = c.apply v
    | _ => True

section Rules

variable {α β : Type} {d : Display} {rs : List UInt64} {b : Bool} {a : Option Display}

theorem paints_bind {g : Glass} (p : C α) (f : α → C β) {Q : β → Glass → Prop}
    (h : Conforms glass p (fun a => Conforms glass (f a) Q) g) : Conforms glass (p >>= f) Q g :=
  (conforms_bind p f Q).mpr h

/-- Any other text is printed, and the question is no longer the last one. -/
theorem paints_strOut {s : String} (other : s ≠ msgConfirm) {Q : Unit → Glass → Prop}
    (h : Q () ⟨d.print s, rs, false, a⟩) : Conforms glass (strOut s) Q ⟨d, rs, b, a⟩ := by
  refine (conforms_outputString s Q).mpr ⟨trivial, ?_⟩
  have printed : glass.next ⟨d, rs, b, a⟩ ⟨.outputString s, ()⟩ = ⟨d.print s, rs, false, a⟩ := by
    show Glass.mk _ _ (decide (s = msgConfirm)) (if s = msgConfirm then _ else _) = _
    rw [if_neg other, decide_eq_false other]
    rfl
  rw [printed]
  exact h

/-- The question remembers the screen that it completes. -/
theorem paints_question {Q : Unit → Glass → Prop}
    (h : Q () ⟨d.print msgConfirm, rs, true, some (d.print msgConfirm)⟩) :
    Conforms glass (strOut msgConfirm) Q ⟨d, rs, b, a⟩ := by
  refine (conforms_outputString msgConfirm Q).mpr ⟨trivial, ?_⟩
  have printed : glass.next ⟨d, rs, b, a⟩ ⟨.outputString msgConfirm, ()⟩ =
      ⟨d.print msgConfirm, rs, true, some (d.print msgConfirm)⟩ := by
    show Glass.mk _ _ (decide (msgConfirm = msgConfirm)) (if msgConfirm = msgConfirm then _ else _) = _
    rw [if_pos rfl, decide_eq_true rfl]
    rfl
  rw [printed]
  exact h

/-- A cleared screen, and no read behind it. -/
theorem paints_scrClear {Q : Unit → Glass → Prop}
    (h : Q () ⟨⟨0, 0, fun _ _ => ' '⟩, [], false, a⟩) : Conforms glass scrClear Q ⟨d, rs, b, a⟩ :=
  (conforms_reset false Q).mpr ⟨trivial, h⟩

/-- A wait is where the screen has to tell what was read. -/
theorem paints_waitForEvent {Q : Unit → Glass → Prop} (tells : Tells d b rs)
    (h : Q () ⟨d, rs, b, a⟩) : Conforms glass waitForEvent Q ⟨d, rs, b, a⟩ :=
  (conforms_waitForEvent Q).mpr ⟨tells, h⟩

theorem paints_reach (p : Point) {Q : Unit → Glass → Prop} (h : Q () ⟨d, rs, b, a⟩) :
    Conforms glass (reach p) Q ⟨d, rs, b, a⟩ := (conforms_reach p Q).mpr ⟨trivial, h⟩

theorem paints_keyLocal {Q : InputKey → Glass → Prop} (h : ∀ key, Q key ⟨d, rs, b, a⟩) :
    Conforms glass keyLocal Q ⟨d, rs, b, a⟩ := (conforms_keyLocal Q).mpr fun key => ⟨trivial, h key⟩

theorem paints_readKeyStroke (key : InputKey) {Q : InputKey → Glass → Prop}
    (h : ∀ key, Q key ⟨d, rs, b, a⟩) : Conforms glass (readKeyStroke key) Q ⟨d, rs, b, a⟩ :=
  (conforms_readKeyStroke key Q).mpr fun r => ⟨trivial, h (r.stored.getD key)⟩

/-- A read is one more value to tell. -/
theorem paints_asmReadMsr64 (addr : UInt32) {Q : UInt64 → Glass → Prop}
    (h : ∀ val, Q val ⟨d, rs ++ [val], b, a⟩) :
    Conforms glass (asmReadMsr64 addr) Q ⟨d, rs, b, a⟩ :=
  paints_bind _ _ ((conforms_rdmsr addr _).mpr fun r => ⟨trivial, h r.value⟩)

/-- A loop over a list whose body draws on the console. -/
theorem paints_forM {ι : Type} {xs : List ι} {f : ι → C PUnit} (next : Display → ι → Display)
    (body : ∀ x (g : Glass) (Q : Unit → Glass → Prop),
      Q () ⟨next g.console x, g.reads, false, g.asked⟩ → Conforms glass (f x) Q g)
    {Q : Unit → Glass → Prop} (h : Q () ⟨xs.foldl next d, rs, false, a⟩) :
    Conforms glass (forM xs f) Q ⟨d, rs, false, a⟩ := by
  have fold (d : Display) : xs.foldl (fun g x => ⟨next g.console x, g.reads, false, g.asked⟩)
      (⟨d, rs, false, a⟩ : Glass) = ⟨xs.foldl next d, rs, false, a⟩ := by
    clear h
    induction xs generalizing d with
    | nil => rfl
    | cons x xs ih => exact ih _
  refine wp_forM_foldl (fun g x => ⟨next g.console x, g.reads, false, g.asked⟩)
    (fun x g Q hQ => body x g (fun _ => Q) hQ) (Q := Q ()) ?_
  rw [fold]
  exact h

end Rules

/-! ## The parts of the program -/

section Parts

variable {d : Display} {rs : List UInt64} {b : Bool} {a : Option Display} {v : UInt64}

/-- `strRow` prints its row. -/
theorem paints_strRow {head : String} (other : head ≠ msgConfirm) (data : UInt64)
    {Q : Unit → Glass → Prop} (h : Q () ⟨rowed d head data, rs, false, a⟩) :
    Conforms glass (strRow head data) Q ⟨d, rs, b, a⟩ := by
  unfold strRow
  refine paints_bind _ _ (paints_strOut (by decide) (paints_bind _ _ (paints_strOut other ?_)))
  rw [rowed, rowOf, digits_eq, List.foldl_cons, List.foldl_cons, List.foldl_map] at h
  refine paints_forM (fun d i => d.print (if data &&& (1 <<< UInt64.ofNat i) ≠ 0 then "1" else "0"))
    (fun i g Q hQ => paints_strOut ?_ hQ) h
  split <;> decide

/-- The row of a read, under what is on the screen. -/
theorem paints_read0x1fc {Q : UInt64 → Glass → Prop}
    (h : ∀ val, Q val ⟨readPicture d val, rs ++ [val], false, a⟩) :
    Conforms glass read0x1fc Q ⟨d, rs, b, a⟩ := by
  unfold read0x1fc
  refine paints_bind _ _ (paints_asmReadMsr64 powerCtl fun val => ?_)
  exact paints_bind _ _ (paints_strRow (by decide) val (h val))

/-- The rows of the operand and of the result, under that row. -/
theorem paints_table (c : Change) {Q : Unit → Glass → Prop}
    (h : Q () ⟨tablePicture d c v, rs, false, a⟩) :
    Conforms glass (table c.term c.op (c.apply v)) Q ⟨readPicture d v, rs, b, a⟩ := by
  have op : c.op ≠ msgConfirm := by
    cases c <;> decide
  unfold table
  refine paints_bind _ _ (paints_strRow op c.term (paints_bind _ _ (paints_strOut (by decide) ?_)))
  exact paints_bind _ _ (paints_strOut (by decide) (paints_strRow (by decide) (c.apply v) h))

/-- The four lines of the menu, under its title. -/
theorem paints_menu (choice : UInt8) {Q : Unit → Glass → Prop}
    (h : Q () ⟨((List.range 4).map (menuLine ((choice.toNat + 3) % 4))).foldl Display.printLine
      ((d.print "\r\n\r\nMenu : ").print "\r\n----------------------\r\n"), rs, false, a⟩) :
    Conforms glass (menu choice) Q ⟨d, rs, b, a⟩ := by
  rw [List.foldl_map] at h
  have joined (d : Display) (s s' : String) : (d.print s).print s' = d.puts (s.toList ++ s'.toList) :=
    List.foldl_append.symm
  have label : ∀ i, menuLabel i ≠ msgConfirm := by
    intro i
    match i with
    | 0 | 1 | 2 | 3 => decide
    | _ + 4 => exact (by decide : "" ≠ msgConfirm)
  unfold menu
  refine paints_bind _ _ (paints_strOut (by decide) (paints_bind _ _ (paints_strOut (by decide) ?_)))
  refine paints_forM (fun d i => d.printLine (menuLine ((choice.toNat + 3) % 4) i))
    (fun i g Q hQ => ?_) h
  unfold Display.printLine menuLine at hQ
  split
  · next marked =>
    rw [if_pos marked, ← joined] at hQ
    exact paints_bind _ _ (paints_strOut (by decide) (paints_bind _ _ (paints_strOut (label i)
      (paints_strOut (by decide) hQ))))
  · next other =>
    rw [if_neg other, ← joined] at hQ
    exact paints_bind _ _ (paints_strOut (by decide) (paints_bind _ _ (paints_strOut (label i)
      (paints_strOut (by decide) hQ))))

/-! ## The three pictures -/

/-- The console shows the menu, with the flag of a value. -/
def OnMenu (d : Display) (v : UInt64) : Prop := ∃ marked < 4, d = screen (digit (bit 0 v)) marked

/-- Lines take their rows, and leave the others. -/
theorem printLines_outside {lines : List (List Char)} (plain : ∀ cs ∈ lines, Display.Plain cs)
    (d : Display) : (lines.foldl Display.printLine d).row = d.row + lines.length ∧
      ∀ x y, y < d.row ∨ d.row + lines.length ≤ y →
        (lines.foldl Display.printLine d).cell x y = d.cell x y := by
  induction lines generalizing d with
  | nil => exact ⟨rfl, fun _ _ _ => rfl⟩
  | cons cs lines ih =>
    obtain ⟨first, rest⟩ := List.forall_mem_cons.mp plain
    obtain ⟨row, cell⟩ := ih rest (d.printLine cs)
    rw [Display.printLine_row first] at row cell
    rw [List.foldl_cons, List.length_cons]
    refine ⟨by rw [row]; omega, fun x y outside => ?_⟩
    rw [cell x y (by omega), Display.printLine_cell first d (by omega)]

/-- What stands above the menu. -/
theorem caption_facts : ∀ b, (caption (digit b)).cell 12 3 = figure b ∧
    ∀ x < 12, (caption (digit b)).cell x 3 = "BD_PROCHOT: ".toList.getD x ' ' := by
  decide +kernel

/-- Nothing stands from the menu on. -/
theorem caption_blank (b : Bool) {x y : Nat} (lower : 7 < y) :
    (caption (digit b)).cell x y = ' ' := by
  have flag : digit b ∈ ["1", "0"] := by
    cases b <;> decide
  have top := (caption_cursor (digit b) flag).2
  have whole : caption (digit b) = (⟨0, 0, fun _ _ => ' '⟩ : Display).puts
      (head0.toList ++ head1.toList ++ "\r\n".toList ++ "BD_PROCHOT: ".toList ++
        (digit b).toList ++ "\r\n\r\nMenu : ".toList ++ "\r\n----------------------\r\n".toList) := by
    simp only [Display.puts, List.foldl_append]
    rfl
  rw [whole] at top ⊢
  exact (Display.puts_below _ _).2 x y (by rw [top]; exact lower)

/-- The lines of the menu leave what is above and below them. -/
theorem screen_outside (b : Bool) {marked : Nat} (hm : marked < 4) :
    (screen (digit b) marked).row = 11 ∧ ∀ x y, y < 7 ∨ 11 ≤ y →
      (screen (digit b) marked).cell x y = (caption (digit b)).cell x y := by
  have flag : digit b ∈ ["1", "0"] := by
    cases b <;> decide
  have plain : ∀ cs ∈ (List.range 4).map (menuLine marked), Display.Plain cs := by
    intro cs mem
    obtain ⟨i, hi, rfl⟩ := List.mem_map.mp mem
    exact menuLine_plain marked hm i (List.mem_range.mp hi)
  have lines := printLines_outside plain (caption (digit b))
  rw [(caption_cursor (digit b) flag).2] at lines
  exact lines

/-- The labels of the source are the texts of the lines. -/
theorem menuLabel_items : ∀ i < 4, menuLabel i = items.getD i "" := by decide

/-- A screen that ends with the menu shows the menu. -/
theorem OnMenu.shown (menu : OnMenu d v) : ShowsMenu d v := by
  obtain ⟨marked, hm, rfl⟩ := menu
  obtain ⟨flag, label⟩ := caption_facts (bit 0 v)
  have known : digit (bit 0 v) ∈ ["1", "0"] := by
    cases bit 0 v <;> decide
  have outside := (screen_outside (bit 0 v) hm).2
  refine ⟨fun x c found => ?_, (outside 12 3 (by decide)).trans flag,
    marked, screen_mark known hm, fun i hi => ?_⟩
  · have inside : x < 12 := (List.getElem?_eq_some_iff.mp found).1
    rw [outside x 3 (by decide), label x inside, List.getD_eq_getElem?_getD, found]
    rfl
  · rw [← menuLabel_items i hi]
    exact screen_begins known hm hi

/-- The cursor is on the line below the four. -/
theorem OnMenu.foot (menu : OnMenu d v) : d.row = 11 := by
  obtain ⟨marked, hm, rfl⟩ := menu
  exact (screen_outside (bit 0 v) hm).1

/-- Nothing stands below the menu. -/
theorem OnMenu.blank (menu : OnMenu d v) : ∀ x y, 11 ≤ y → d.cell x y = ' ' := by
  obtain ⟨marked, hm, rfl⟩ := menu
  intro x y lower
  rw [(screen_outside (bit 0 v) hm).2 x y (.inr lower)]
  exact caption_blank (bit 0 v) (by omega)

/-- What is printed below the menu leaves the menu. -/
theorem ShowsMenu.above {d' : Display} (menu : ShowsMenu d v)
    (above : ∀ x y, y < 13 → d'.cell x y = d.cell x y) : ShowsMenu d' v := by
  have begins {y : Nat} (hy : y < 13) (cs : List Char) : d'.Begins y cs ↔ d.Begins y cs :=
    forall₃_congr fun x c _ => by rw [above x y hy]
  obtain ⟨marked, mark, lines⟩ := menu.lines
  refine ⟨(begins (by omega) _).mpr menu.label, (above 12 3 (by decide)).trans menu.flag,
    marked, ⟨mark.inside, fun i hi => ?_⟩, fun i hi => (begins (by omega) _).mpr (lines i hi)⟩
  have row : menuTop + i < 13 := by
    unfold menuTop
    omega
  exact (begins row _).trans (mark.only i hi)

/-- The wait of the menu. -/
theorem tells_menu (menu : OnMenu d v) : Tells d false [v] :=
  .menu v menu.shown menu.blank

variable {v₀ : UInt64}

/-- The wait of option 1. -/
theorem tells_read (menu : OnMenu d v₀) (v : UInt64) : Tells (readPicture d v) false [v₀, v] := by
  have foot := menu.foot
  have shown := menu.shown.above fun x y above => readPicture_cell foot v (by omega : y ≠ 13)
  refine .value v₀ v shown (readPicture_value foot v) fun x y lower other => ?_
  rw [readPicture_cell foot v other]
  exact menu.blank x y lower

/-- The wait of the question. -/
theorem tells_question (menu : OnMenu d v₀) (c : Change) (v : UInt64) :
    Tells (questionPicture d c v) true [v₀, v] := by
  obtain ⟨asks, above⟩ := questionPicture_asks menu.foot c v
  exact .question v₀ v c (menu.shown.above above) asks

/-! ## The program -/

/-- The polls wait for nothing. -/
theorem paints_pollKey {g : Glass} (prog : String) (left i : Nat) (key : InputKey) :
    Conforms glass (pollKey prog left i key) (fun _ _ => True) g := by
  induction left generalizing i key g with
  | zero => trivial
  | succ left ih =>
    have poll (g : Glass) :
        Conforms glass
          (do
            let key ← readKeyStroke key
            if dismisses key then return 1
            else do
              stall defStall
              pollKey prog left (i + 1) key) (fun _ _ => True) g := by
      refine paints_bind _ _ (paints_readKeyStroke key fun key => (conforms_ite _ _ _ _).mpr ?_)
      split
      · trivial
      · exact paints_bind _ _ ((conforms_stall defStall _).mpr ⟨trivial, ih (i + 1) key⟩)
    rw [pollKey]
    split
    · exact paints_bind _ _ ((conforms_outputString prog _).mpr ⟨trivial, poll _⟩)
    · exact poll g

/-- A message and its poll wait for no event, so nothing is asked of their screen. -/
theorem paints_toMsg {g : Glass} (msg : String) (timeout : UInt64) (prog : String) :
    Conforms glass (toMsg msg timeout prog) (fun _ _ => True) g := by
  unfold toMsg
  refine paints_bind _ _ (paints_keyLocal fun key => paints_bind _ _ ?_)
  exact (conforms_outputString msg _).mpr ⟨trivial, paints_pollKey prog _ 0 key⟩

/-- The question, and what is written after it. -/
theorem paints_confirmAndWrite (menu : OnMenu d v₀) (c : Change) (v : UInt64) (msg : String) :
    Conforms glass (confirmAndWrite (c.apply v) msg) (fun _ _ => True)
      ⟨tablePicture d c v, [v₀, v], b, a⟩ := by
  have asks := (questionPicture_asks menu.foot c v).1
  unfold confirmAndWrite
  refine paints_bind _ _ (paints_question (paints_bind _ _ ?_))
  refine paints_waitForEvent (tells_question menu c v) (paints_bind _ _ (paints_keyLocal fun key => ?_))
  refine paints_bind _ _ (paints_readKeyStroke key fun key => paints_bind _ _ (paints_scrClear ?_))
  refine (conforms_ite _ _ _ _).mpr ?_
  split
  · exact paints_bind _ _ (conforms_mono (fun _ _ _ => trivial) (paints_toMsg msgAbort 20 ""))
  · refine paints_bind _ _ (paints_bind _ _ ((conforms_wrmsr powerCtl _ _ _).mpr ⟨?_, ?_⟩))
    · exact ⟨rfl, _, c, v, rfl, asks, value_halves _⟩
    · exact paints_bind _ _ (conforms_mono (fun _ _ _ => trivial) (paints_toMsg msg 20 ""))

/-- A change, from the menu on. -/
theorem paints_edit (menu : OnMenu d v₀) (c : Change) (msg : String) :
    Conforms glass
      (do
        let val ← read0x1fc
        table c.term c.op (c.apply val)
        confirmAndWrite (c.apply val) msg) (fun _ _ => True) ⟨d, [v₀], b, a⟩ :=
  paints_bind _ _ (paints_read0x1fc fun val => paints_bind _ _ (paints_table c
    (paints_confirmAndWrite menu c val msg)))

theorem paints_choose (choice : UInt8) (menu : OnMenu d v₀) :
    Conforms glass (choose choice) (fun _ _ => True) ⟨d, [v₀], b, a⟩ := by
  unfold choose
  refine paints_bind _ _ (paints_reach _ ((conforms_ite _ _ _ _).mpr ?_))
  split
  · refine paints_bind _ _ (paints_read0x1fc fun val => ?_)
    exact paints_waitForEvent (tells_read menu val) trivial
  refine (conforms_ite _ _ _ _).mpr ?_
  split
  · exact paints_edit menu .clear msgDisabled
  refine (conforms_ite _ _ _ _).mpr ?_
  split
  · exact paints_edit menu .set msgEnabled
  · trivial

/-- What `menuloop` leaves: the menu, with the flag of the one value that was read. -/
def Left (g : Glass) : Prop := ∃ v, g.reads = [v] ∧ OnMenu g.console v

/-- A round of `menuloop` draws the menu on an empty screen. -/
theorem paints_menuRound (x : UInt8 × InputKey) :
    Conforms glass (menuRound x) (afterRound (fun _ _ => True) fun _ => Left) ⟨d, rs, b, a⟩ := by
  obtain ⟨choice, key⟩ := x
  unfold menuRound
  refine paints_bind _ _ (paints_reach _ (paints_bind _ _ (paints_scrClear ?_)))
  refine paints_bind _ _ (paints_strOut (by decide +kernel) (paints_bind _ _ ?_))
  refine paints_strOut (by decide +kernel) (paints_bind _ _ (paints_strOut (by decide) ?_))
  refine paints_bind _ _ (paints_strOut (by decide) ?_)
  refine paints_bind _ _ (paints_asmReadMsr64 powerCtl fun val => ?_)
  have flag : (if val &&& 1 ≠ 0 then "1" else "0") = digit (bit 0 val) := by
    by_cases set : bit 0 val = true
    · rw [if_pos ((odd_iff val).mpr set), set]
      rfl
    · rw [if_neg fun h => set ((odd_iff val).mp h), Bool.eq_false_iff.mpr set]
      rfl
  have other : digit (bit 0 val) ≠ msgConfirm := by
    cases bit 0 val <;> decide
  rw [flag]
  refine paints_bind _ _ (paints_strOut other (paints_bind _ _ (paints_menu choice ?_)))
  rw [← caption, ← screen]
  have menu : OnMenu (screen (digit (bit 0 val)) ((choice.toNat + 3) % 4)) val :=
    ⟨_, Nat.mod_lt _ (by decide), rfl⟩
  refine paints_bind _ _ (paints_waitForEvent (tells_menu menu) ?_)
  refine paints_bind _ _ (paints_readKeyStroke key fun key => ?_)
  cases press choice key with
  | inl choice => trivial
  | inr choice => exact ⟨val, rfl, menu⟩

/-- By the invariant that the reads since the last clearing are none at the start of a round. -/
theorem paints_menuloop {g : Glass} : Conforms glass menuloop (fun _ => Left) g := by
  unfold menuloop
  refine paints_bind _ _ (paints_keyLocal fun key => ?_)
  exact conforms_iter (fun _ _ => True) trivial fun x _ _ => paints_menuRound x

/-- **The program keeps to the rule**, from any screen. -/
theorem paints_efiMain : Conforms glass efiMain (fun _ _ => True) ⟨d, rs, b, a⟩ := by
  unfold efiMain mainLoop
  refine paints_bind _ _ (paints_scrClear (paints_bind _ _ ?_))
  refine conforms_mono (fun keypressed g _ => ?_) (paints_toMsg msgInteractive 10 ".")
  refine (conforms_ite _ _ _ _).mpr ?_
  split
  · refine paints_bind _ _ (conforms_iter (fun _ _ => True) trivial fun choice g _ => ?_)
    unfold mainRound
    refine (conforms_ite _ _ _ _).mpr ?_
    split
    · refine paints_bind _ _ (conforms_mono (fun choice g left => ?_) paints_menuloop)
      obtain ⟨d, rs, b, a⟩ := g
      obtain ⟨v, rfl, menu⟩ := left
      exact paints_bind _ _ (conforms_mono (fun _ _ _ => trivial) (paints_choose choice menu))
    · trivial
  · trivial

end Parts

/-! ## On the console -/

/-- What a console of 80 columns and 25 rows shows after some events, and what is remembered of them. -/
def glassOf (d : Display) (es : List (Event (firmware Point))) : Glass :=
  es.foldl (watch mode0.draw) ⟨d, [], false, none⟩

/-- Where the layout is kept, the console shows what a display without edges shows. -/
theorem watch_eq {g : Glass} {e : Event (firmware Point)}
    (allowed : mode0.layout.allows (cursor g.console) e) :
    watch mode0.draw g e = watch Display.draw g e := by
  rw [watch, watch, draw_eq allowed]

theorem note_console (g : Glass) (d : Display) (e : Event (firmware Point)) :
    (g.note d e).console = d := by
  obtain ⟨c, r⟩ := e
  cases c <;> rfl

/-- By induction on the events. -/
theorem foldl_watch_eq {g : Glass} {es : List (Event (firmware Point))}
    (allowed : ∀ pre e post, es = pre ++ e :: post →
      mode0.layout.allows (mode0.layout.state (cursor g.console) pre) e) :
    es.foldl (watch mode0.draw) g = glass.state g es := by
  induction es generalizing g with
  | nil => rfl
  | cons e es ih =>
    have first := watch_eq (allowed [] e es rfl)
    have console : (watch Display.draw g e).console = g.console.draw e.call := note_console g _ e
    have later := @ih (watch Display.draw g e) fun pre e' post cut => by
      have next := allowed (e :: pre) e' post (congrArg (e :: ·) cut)
      rw [Protocol.state_cons, ← cursor_draw, ← console] at next
      exact next
    rw [List.foldl_cons, first, later]
    rfl

/-- **What stands on the console.** In every run, against every environment and from every screen,
on a console of 80 columns and 25 rows: whenever the program waits for a key, the menu stands on it, and
it tells the values that were read since it was cleared; and whatever is written is the result that
stood on it when the question was last asked. -/
theorem efiMain_pictured {W : Type} {E : Env (firmware Point) W} {w w' : W}
    {tr : List (Step (firmware Point) W)} {out : Option Status} (run : Run E w efiMain tr w' out)
    (d : Display) :
    ∀ pre st post, tr = pre ++ st :: post →
      glass.allows (glassOf d (events pre)) st.event := by
  intro pre st post cut
  have laid := (run.follows (lays_efiMain (cursor d))).1
  have same : glassOf d (events pre) = glass.state ⟨d, [], false, none⟩ (events pre) := by
    refine foldl_watch_eq fun first e rest split => ?_
    obtain ⟨front, back, rfl, rfl, back_eq⟩ := List.map_eq_append_iff.mp split
    obtain ⟨st', last, rfl, rfl, _⟩ := List.map_eq_cons_iff.mp back_eq
    refine laid front st' (last ++ st :: post) ?_
    rw [cut, List.append_assoc]
    rfl
  rw [same]
  exact (run.follows (@paints_efiMain d [] false none)).1 pre st post cut

/-- The session that clears the register, on a full screen with the cursor in the last cell. -/
theorem efiMain_pictured_clearSession :
    clearSession.world.register = 4 ∧
    ∀ pre st post, clearSession.steps.map (Step.map Script.register) = pre ++ st :: post →
      glass.allows (glassOf ⟨79, 24, fun _ _ => 'x'⟩ (events pre)) st.event :=
  ⟨by decide +kernel, efiMain_pictured clearSession_run _⟩

end ZeroProcHot.Tmp
