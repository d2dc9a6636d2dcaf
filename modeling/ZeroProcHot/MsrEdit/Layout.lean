import ZeroProcHot.Efi.Terminal
import ZeroProcHot.MsrEdit.Charset
import ZeroProcHot.MsrEdit.Editor

/-!
# The screen of the editor fits

The editor does not clear the screen, so its header stands where the cursor is when it starts. From a
row above the last, and early enough in it for the header, nothing it prints comes to the edge of a
terminal of 80 columns and 25 rows, with any key reader made of passes (`program_onTerminal`).
-/

namespace ZeroProcHot.MsrEdit

open Interact Efi Terminal

variable {σ : Type} {p q : Cursor}

theorem moves_printXY {s : String} {x y : Nat} (inside : x < 80 ∧ y < 25)
    (plain : Display.Plain s.toList) (room : x + s.toList.length < 80) :
    mode0.Moves p (printXY s x y) ⟨x + s.toList.length, y⟩ :=
  (moves_setCursorPosition inside).andThen fun _ => @moves_plain Point mode0 ⟨x, y⟩ s plain room

/-! ## The menu -/

/-- A row of the menu. -/
theorem moves_menuRow {i : Nat} (row : i < 6) :
    mode0.Moves p
      (do
        printXY (charset (i % 5)) 3 (9 + i)
        tcOPrint ". "
        tcOPrint (menuLabel (i % 5))
        tcOPrint crlf : C Unit) ⟨0, 10 + i⟩ := by
  have number : ∀ i < 5, Display.Plain (charset i).toList ∧ (charset i).toList.length = 1 := by decide
  have label : ∀ i < 5, Display.Plain (menuLabel i).toList ∧ (menuLabel i).toList.length < 70 := by
    decide
  obtain ⟨single, one⟩ := number (i % 5) (Nat.mod_lt _ (by decide))
  obtain ⟨plain, short⟩ := label (i % 5) (Nat.mod_lt _ (by decide))
  have first := @moves_printXY p (charset (i % 5)) 3 (9 + i) (by omega) single (by omega)
  rw [one] at first
  have dot := @moves_plain Point mode0 ⟨4, 9 + i⟩ ". " (by decide) (by decide : 4 + 2 < 80)
  have text := @moves_plain Point mode0 ⟨6, 9 + i⟩ (menuLabel (i % 5)) plain (by
    show 6 + _ < 80
    omega)
  have line := @moves_lineEnd Point mode0 ⟨6 + (menuLabel (i % 5)).toList.length, 9 + i⟩ (by decide)
    (by show 9 + i + 1 < 25; omega)
  have below : 9 + i + 1 = 10 + i := by omega
  rw [below] at line
  exact first.andThen fun _ => dot.andThen fun _ => text.andThen fun _ => line

/-- A loop over the rows: each body takes the cursor to a place of its own. -/
theorem moves_rows {f : Nat → C PUnit} {place : Nat → Cursor}
    (body : ∀ i < 6, ∀ p, mode0.Moves p (f i) (place i)) :
    mode0.Moves p (forM (List.range' 1 5) f) (place 5) := by
  refine @moves_forM Point mode0 Nat (List.range' 1 5) f (fun j => if j = 0 then p else place j) 0
    fun j i found => ?_
  obtain ⟨inside, rfl⟩ := List.getElem?_eq_some_iff.mp found
  rw [List.length_range'] at inside
  rw [List.getElem_range', Nat.zero_add, if_neg (Nat.succ_ne_zero j), Nat.one_mul, Nat.add_comm 1]
  exact body (j + 1) (by omega) _

theorem moves_printMenu : mode0.Moves p printMenu ⟨0, 15⟩ := by
  have title := @moves_plain Point mode0 ⟨0, 8⟩ "Menu:" (by decide) (by decide : 0 + 5 < 80)
  have rows := @moves_rows ⟨5, 8⟩ _ (fun i => ⟨0, 10 + i⟩) fun i row p => moves_menuRow row
  exact (moves_setCursorPosition (by decide : 0 < 80 ∧ 8 < 25)).andThen fun _ =>
    title.andThen fun _ => rows

theorem moves_printArrows (selected : UInt8) : mode0.Moves p (printArrows selected) ⟨2, 14⟩ := by
  refine @moves_rows p _ (fun i => ⟨2, 9 + i⟩) fun i row p => ?_
  have arrow : ∀ j < 2, Display.Plain (slct j).toList ∧ (slct j).toList.length = 2 := by decide
  obtain ⟨plain, two⟩ := arrow (if i % 5 = selected.toNat then 1 else 0) (by split <;> decide)
  have next := @moves_printXY p _ 0 (9 + i) (by omega) plain (by omega)
  rw [two] at next
  exact next

/-! ## The program -/

/-- A key reader leaves the cursor where it is. -/
theorem moves_reader (f : σ → InputKey → σ ⊕ UInt8) (s : σ) :
    mode0.Moves p (Prog.iter (keyIn f) s : C UInt8) p := by
  refine conforms_iter (fun _ p' => p' = p) rfl fun s p' here => ?_
  obtain rfl := here
  unfold keyIn
  refine moves_waitForEvent.andThen fun _ => moves_keyLocal.andThen fun key => ?_
  refine (moves_readKeyStroke key).andThen fun key => ?_
  cases f s key with
  | inl s => rfl
  | inr item => rfl

theorem moves_pollKey (left : Nat) : mode0.Moves p (pollKey left) p := by
  induction left with
  | zero => exact moves_pure _
  | succ left ih =>
    refine moves_keyLocal.andThen fun key => (moves_readKeyStroke key).andThen fun key => ?_
    refine (conforms_ite _ _ _ _).mpr ?_
    split
    · exact moves_pure _
    · exact (moves_stall 10000).andThen fun _ => ih

/-- The menu leaves the cursor behind the last arrow. -/
theorem moves_menu (reader : Reader σ) (current : UInt8) :
    mode0.Moves p (menu reader.board current) ⟨2, 14⟩ := by
  refine moves_printMenu.andThen fun _ => conforms_iter (fun _ _ => True) trivial ?_
  intro current p _
  unfold select
  refine (moves_reach _).andThen fun _ => (moves_printArrows current).andThen fun _ => ?_
  refine (moves_reach _).andThen fun _ => ?_
  rw [reader.passes]
  refine (moves_reader _ (reader.start current)).andThen fun item => ?_
  rw [conforms_ite, conforms_ite]
  split
  · rfl
  split
  · rfl
  · trivial

/-- No string of the tables is longer than one character. -/
theorem charset_short (i : Nat) :
    Display.Plain (charset i).toList ∧ (charset i).toList.length ≤ 1 := by
  have first : ∀ i < 95, Display.Plain (charset i).toList ∧ (charset i).toList.length ≤ 1 := by
    decide
  by_cases inRange : i < 95
  · exact first i inRange
  · rw [charset_beyond (by omega)]
    decide

/-- **The editor keeps to the layout** of a terminal of 80 columns and 25 rows, from a cursor that
leaves room for the header. -/
theorem lays_program (reader : Reader σ) (room : p.column + 77 < 80) (above : p.row + 1 < 25) :
    Conforms mode0.layout (program reader.board) (fun _ _ => True) p := by
  have header : Display.Plain head0.toList ∧ head0.toList.length = 77 := by decide +kernel
  have first := @moves_plain Point mode0 p head0 header.1 (by rw [header.2]; exact room)
  have line := @moves_lineEnd Point mode0 ⟨p.column + head0.toList.length, p.row⟩ (by decide) above
  refine first.andThen fun _ => line.andThen fun _ => (moves_menu reader 1).andThen fun item => ?_
  obtain ⟨plain, short⟩ := charset_short item.toNat
  have number := @moves_plain Point mode0 ⟨2, 14⟩ (charset item.toNat) plain (by
    show 2 + _ < 80
    omega)
  refine number.andThen fun _ => (moves_pollKey 1000).andThen fun _ => ?_
  trivial

/-- **What is on the screen.** With any key reader made of passes, in every run, whatever the firmware
answers and wherever the run stops, a terminal of 80 columns and 25 rows shows what a display without
edges shows, from a cursor that leaves room for the header and is not in the last row. -/
theorem program_onTerminal (reader : Reader σ) {W : Type} {E : Env (firmware Point) W} {w w' : W}
    {tr : List (Step (firmware Point) W)} {out : Option Status}
    (run : Run E w (program reader.board) tr w' out) {d : Display} (room : d.column + 77 < 80)
    (above : d.row + 1 < 25) :
    mode0.drawn d ((events tr).map Event.call) = d.drawn ((events tr).map Event.call) :=
  terminal_drawn run (@lays_program _ (cursor d) reader room above)

/-- The session with the keys of `nineTwoEnter`, from the third row of a full screen. -/
theorem program_onTerminal_nineTwoEnter :
    mode0.drawn ⟨0, 2, fun _ _ => 'x'⟩
        ((events (exec console 6 (program Reader.library.board) nineTwoEnter).steps).map Event.call) =
      Display.drawn ⟨0, 2, fun _ _ => 'x'⟩
        ((events (exec console 6 (program Reader.library.board) nineTwoEnter).steps).map
          Event.call) :=
  program_onTerminal .library (exec_run console 6 (program Reader.library.board) nineTwoEnter)
    (by decide) (by decide)

end ZeroProcHot.MsrEdit
