import ZeroProcHot.Efi.Terminal
import ZeroProcHot.Tmp.Register

/-!
# The screens of the program fit

Whatever the firmware answers, nothing the program prints comes to the edge of a terminal of 80 columns
and 25 rows: no row is longer than the line under the header, and the lowest is that of the question,
the twentieth. So what such a terminal shows in a run is what the program draws on a display without
edges (`efiMain_onTerminal`).
-/

namespace ZeroProcHot.Tmp

open Interact Efi Terminal

variable {p q : Cursor}

/-! ## Rows -/

/-- Every row of bits has 64 digits. -/
theorem moves_digits (data : UInt64) {c r : Nat} (room : c + 64 < 80) :
    mode0.Moves ⟨c, r⟩
      (forM (List.range 64).reverse fun i =>
        strOut (if data &&& (1 <<< UInt64.ofNat i) ≠ 0 then "1" else "0")) ⟨c + 64, r⟩ := by
  have row := @moves_forM Point mode0 Nat (List.range 64).reverse
    (fun i => strOut (if data &&& (1 <<< UInt64.ofNat i) ≠ 0 then "1" else "0"))
    (fun j => ⟨c + j, r⟩) 0 ?_
  · rw [Nat.zero_add, List.length_reverse, List.length_range] at row
    exact row
  · intro j i found
    have inside : j < 64 := by
      have bound := (List.getElem?_eq_some_iff.mp found).1
      rw [List.length_reverse, List.length_range] at bound
      exact bound
    have digit : ∀ s ∈ ["1", "0"], Display.Plain s.toList ∧ s.toList.length = 1 := by decide
    obtain ⟨plain, length⟩ := digit (if data &&& (1 <<< UInt64.ofNat i) ≠ 0 then "1" else "0")
      (by split <;> decide)
    have next := @moves_plain Point mode0 ⟨c + (0 + j), r⟩ _ plain (by
      show c + (0 + j) + _ < 80
      omega)
    rw [length] at next
    exact next

/-- A row behind its head. -/
theorem moves_strRow {head : String} (data : UInt64) (line : mode0.Fits p "\r\n".toList)
    (fits : mode0.Fits (p.puts "\r\n".toList) head.toList)
    (moved : (p.puts "\r\n".toList).puts head.toList = q) (room : q.column + 64 < 80) :
    mode0.Moves p (strRow head data) ⟨q.column + 64, q.row⟩ := by
  refine (moves_outputString line rfl).andThen fun _ => ?_
  refine (moves_outputString fits moved).andThen fun _ => ?_
  exact moves_digits data room

theorem moves_asmReadMsr64 (addr : UInt32) : mode0.Moves p (asmReadMsr64 addr) p :=
  (moves_rdmsr addr).andThen fun _ => moves_pure _

theorem moves_asmWriteMsr64 (addr : UInt32) (val : UInt64) :
    mode0.Moves p (asmWriteMsr64 addr val) p :=
  (moves_wrmsr addr _ _).andThen fun _ => moves_pure _

/-- The register below the menu. -/
theorem moves_read0x1fc : mode0.Moves ⟨0, 11⟩ read0x1fc ⟨72, 13⟩ := by
  refine (moves_asmReadMsr64 powerCtl).andThen fun val => ?_
  have row := @moves_strRow ⟨0, 11⟩ ⟨8, 13⟩ "\r\n 0x1FC: " val (by decide) (by decide) (by decide)
    (by decide)
  exact row.andThen fun _ => moves_pure val

/-- The rest of the table. -/
theorem moves_table {op : String} (term result : UInt64) (fits : mode0.Fits ⟨0, 14⟩ op.toList)
    (moved : Cursor.puts ⟨0, 14⟩ op.toList = ⟨8, 14⟩) :
    mode0.Moves ⟨72, 13⟩ (table term op result) ⟨72, 16⟩ := by
  have first := @moves_strRow ⟨72, 13⟩ ⟨8, 14⟩ op term (by decide) fits moved (by decide)
  have line := @moves_outputString Point mode0 ⟨72, 14⟩ ⟨0, 15⟩ "\r\n" (by decide) (by decide)
  have rule := @moves_outputString Point mode0 ⟨0, 15⟩ ⟨73, 15⟩ tblHL (by decide +kernel)
    (by decide +kernel)
  have last := @moves_strRow ⟨73, 15⟩ ⟨8, 16⟩ "RESULT: " result (by decide) (by decide) (by decide)
    (by decide)
  exact first.andThen fun _ => line.andThen fun _ => rule.andThen fun _ => last

/-! ## The menu -/

/-- A line of the menu, with its mark or without. -/
theorem moves_menuLine {i idx r : Nat} (item : i < 4) (room : r + 1 < 25) :
    mode0.Moves ⟨0, r⟩
      (do
        if i = idx then strOut "> " else strOut "  "
        strOut (menuLabel i)
        strOut "\r\n" : C Unit) ⟨0, r + 1⟩ := by
  have label : ∀ i < 4, Display.Plain (menuLabel i).toList ∧ (menuLabel i).toList.length < 70 := by
    decide
  obtain ⟨plain, short⟩ := label i item
  have rest : mode0.Moves ⟨2, r⟩
      (do
        strOut (menuLabel i)
        strOut "\r\n" : C Unit) ⟨0, r + 1⟩ := by
    have text := @moves_plain Point mode0 ⟨2, r⟩ (menuLabel i) plain (by
      show 2 + _ < 80
      omega)
    exact text.andThen fun _ => @moves_lineEnd Point mode0 _ (by decide) room
  dsimp only
  split
  · exact (moves_plain (by decide) (by decide : 0 + 2 < 80)).andThen fun _ => rest
  · exact (moves_plain (by decide) (by decide : 0 + 2 < 80)).andThen fun _ => rest

theorem moves_menu (choice : UInt8) : mode0.Moves ⟨13, 3⟩ (menu choice) ⟨0, 11⟩ := by
  have title := @moves_outputString Point mode0 ⟨13, 3⟩ ⟨7, 5⟩ "\r\n\r\nMenu : " (by decide) (by decide)
  have rule := @moves_outputString Point mode0 ⟨7, 5⟩ ⟨0, 7⟩ "\r\n----------------------\r\n"
    (by decide +kernel) (by decide +kernel)
  refine title.andThen fun _ => rule.andThen fun _ => ?_
  refine @moves_forM Point mode0 Nat (List.range 4) _ (fun j => ⟨0, 7 + j⟩) 0 fun j i found => ?_
  obtain ⟨inside, rfl⟩ := List.getElem?_eq_some_iff.mp found
  rw [List.length_range] at inside
  rw [List.getElem_range]
  exact moves_menuLine inside (by omega)

/-- A round of `menuloop` clears the screen, and leaves the cursor below the menu. -/
theorem lays_menuRound (x : UInt8 × InputKey) :
    Conforms mode0.layout (menuRound x) (afterRound (fun _ _ => True) fun _ p => p = ⟨0, 11⟩) p := by
  obtain ⟨choice, key⟩ := x
  have header := @moves_outputString Point mode0 ⟨0, 0⟩ ⟨77, 0⟩ head0 (by decide +kernel)
    (by decide +kernel)
  have rule := @moves_outputString Point mode0 ⟨77, 0⟩ ⟨0, 2⟩ head1 (by decide +kernel)
    (by decide +kernel)
  have line := @moves_outputString Point mode0 ⟨0, 2⟩ ⟨0, 3⟩ "\r\n" (by decide) (by decide)
  have label := @moves_outputString Point mode0 ⟨0, 3⟩ ⟨12, 3⟩ "BD_PROCHOT: " (by decide) (by decide)
  refine (moves_reach _).andThen fun _ => (moves_reset false).andThen fun _ => ?_
  refine header.andThen fun _ => rule.andThen fun _ => line.andThen fun _ => label.andThen fun _ => ?_
  refine (moves_asmReadMsr64 powerCtl).andThen fun val => ?_
  have flag : mode0.Moves ⟨12, 3⟩ (strOut (if val &&& 1 ≠ 0 then "1" else "0")) ⟨13, 3⟩ := by
    split
    · exact moves_outputString (by decide) (by decide)
    · exact moves_outputString (by decide) (by decide)
  refine flag.andThen fun _ => (moves_menu choice).andThen fun _ => ?_
  refine moves_waitForEvent.andThen fun _ => (moves_readKeyStroke key).andThen fun key => ?_
  cases press choice key with
  | inl choice => trivial
  | inr choice => rfl

theorem moves_menuloop : mode0.Moves p menuloop ⟨0, 11⟩ := by
  refine moves_keyLocal.andThen fun key => ?_
  exact conforms_iter (fun _ _ => True) trivial fun x _ _ => lays_menuRound x

/-! ## Messages -/

/-- Each poll prints a character at most, so the polls to come need as much room as they are. -/
theorem lays_pollKey {prog : String} (plain : Display.Plain prog.toList)
    (short : prog.toList.length ≤ 1) {left : Nat} (i : Nat) (key : InputKey)
    (room : p.column + left < 80) :
    Conforms mode0.layout (pollKey prog left i key) (fun _ _ => True) p := by
  induction left generalizing i key p with
  | zero => trivial
  | succ left ih =>
    have poll {p : Cursor} (room : p.column + left < 80) :
        Conforms mode0.layout
          (do
            let key ← readKeyStroke key
            if dismisses key then return 1
            else do
              stall defStall
              pollKey prog left (i + 1) key) (fun _ _ => True) p := by
      refine (moves_readKeyStroke key).andThen fun key => (conforms_ite _ _ _ _).mpr ?_
      split
      · trivial
      · exact (moves_stall defStall).andThen fun _ => ih (i + 1) key room
    rw [pollKey]
    split
    · refine (moves_plain plain ?_).andThen fun _ => poll ?_
      · show _ < 80
        omega
      · show p.column + prog.toList.length + left < 80
        omega
    · exact poll (by omega)

/-- A message and its polls. -/
theorem lays_toMsg {msg prog : String} {timeout : UInt64} (fits : mode0.Fits p msg.toList)
    (moved : p.puts msg.toList = q) (plain : Display.Plain prog.toList)
    (short : prog.toList.length ≤ 1) (room : q.column + timeout.toNat < 80) :
    Conforms mode0.layout (toMsg msg timeout prog) (fun _ _ => True) p := by
  refine moves_keyLocal.andThen fun key => (moves_outputString fits moved).andThen fun _ => ?_
  exact lays_pollKey plain short 0 key room

/-- A message in the corner of a cleared screen, as `ConfirmAndWrite` shows it. -/
theorem lays_notice {msg : String} (known : msg ∈ [msgAbort, msgEnabled, msgDisabled]) :
    Conforms mode0.layout (toMsg msg 20 "") (fun _ _ => True) ⟨0, 0⟩ := by
  have fits : ∀ msg ∈ [msgAbort, msgEnabled, msgDisabled], mode0.Fits ⟨0, 0⟩ msg.toList ∧
      (Cursor.puts ⟨0, 0⟩ msg.toList).column + 20 < 80 := by decide +kernel
  obtain ⟨inside, room⟩ := fits msg known
  exact lays_toMsg inside rfl (by decide) (by decide) room

theorem lays_confirmAndWrite (val : UInt64) {msg : String}
    (known : msg ∈ [msgAbort, msgEnabled, msgDisabled]) :
    Conforms mode0.layout (confirmAndWrite val msg) (fun _ _ => True) ⟨72, 16⟩ := by
  have question := @moves_outputString Point mode0 ⟨72, 16⟩ ⟨30, 19⟩ msgConfirm (by decide +kernel)
    (by decide +kernel)
  refine question.andThen fun _ => moves_waitForEvent.andThen fun _ => ?_
  refine moves_keyLocal.andThen fun key => ?_
  refine (moves_readKeyStroke key).andThen fun key => (moves_reset false).andThen fun _ => ?_
  refine (conforms_ite _ _ _ _).mpr ?_
  split
  · refine (conforms_bind _ _ _).mpr (conforms_mono ?_ (lays_notice (by decide)))
    exact fun _ _ _ => trivial
  · refine (moves_asmWriteMsr64 powerCtl val).andThen fun _ => ?_
    refine (conforms_bind _ _ _).mpr (conforms_mono ?_ (lays_notice known))
    exact fun _ _ _ => trivial

/-! ## The program -/

/-- A change, from below the menu. -/
theorem lays_edit {op msg : String} (term : UInt64) (f : UInt64 → UInt64)
    (fits : mode0.Fits ⟨0, 14⟩ op.toList) (moved : Cursor.puts ⟨0, 14⟩ op.toList = ⟨8, 14⟩)
    (known : msg ∈ [msgAbort, msgEnabled, msgDisabled]) :
    Conforms mode0.layout
      (do
        let val ← read0x1fc
        table term op (f val)
        confirmAndWrite (f val) msg) (fun _ _ => True) ⟨0, 11⟩ :=
  moves_read0x1fc.andThen fun val => (moves_table term (f val) fits moved).andThen fun _ =>
    lays_confirmAndWrite (f val) known

theorem lays_choose (choice : UInt8) :
    Conforms mode0.layout (choose choice) (fun _ _ => True) ⟨0, 11⟩ := by
  unfold choose
  refine (moves_reach _).andThen fun _ => ?_
  by_cases h1 : choice = 1
  · rw [if_pos h1]
    exact moves_read0x1fc.andThen fun _ => conforms_mono (fun _ _ _ => trivial) moves_waitForEvent
  by_cases h2 : choice = 2
  · rw [if_neg h1, if_pos h2]
    exact lays_edit clearZero (fun val => val &&& clearZero) (by decide) (by decide) (by decide)
  by_cases h3 : choice = 3
  · rw [if_neg h1, if_neg h2, if_pos h3]
    exact lays_edit setZero (fun val => val ||| setZero) (by decide) (by decide) (by decide)
  · rw [if_neg h1, if_neg h2, if_neg h3]
    trivial

/-- **The program keeps to the layout** of a terminal of 80 columns and 25 rows, wherever the cursor is
when it starts. -/
theorem lays_efiMain (p : Cursor) : Conforms mode0.layout efiMain (fun _ _ => True) p := by
  unfold efiMain mainLoop
  refine (moves_reset false).andThen fun _ => ?_
  rw [conforms_bind]
  refine conforms_mono (fun keypressed p' _ => ?_) (lays_toMsg (q := ⟨45, 0⟩) (by decide +kernel)
    (by decide +kernel) (by decide) (by decide) (by decide))
  refine (conforms_ite _ _ _ _).mpr ?_
  split
  · refine (conforms_bind _ _ _).mpr (conforms_iter (fun _ _ => True) trivial ?_)
    intro choice p _
    unfold mainRound
    refine (conforms_ite _ _ _ _).mpr ?_
    split
    · refine moves_menuloop.andThen fun choice => ?_
      refine (conforms_bind _ _ _).mpr (conforms_mono ?_ (lays_choose choice))
      exact fun _ _ _ => trivial
    · trivial
  · trivial

/-- **What is on the screen.** In every run, whatever the firmware answers and wherever the run stops, a
terminal of 80 columns and 25 rows, which breaks long lines and scrolls, shows what a display without
edges shows, whatever was on it before. -/
theorem efiMain_onTerminal {W : Type} {E : Env (firmware Point) W} {w w' : W}
    {tr : List (Step (firmware Point) W)} {out : Option Status} (run : Run E w efiMain tr w' out)
    (d : Display) :
    mode0.drawn d ((events tr).map Event.call) = d.drawn ((events tr).map Event.call) :=
  terminal_drawn run (lays_efiMain (cursor d))

/-- The session that clears the register, on a full screen with the cursor in the last cell. -/
theorem efiMain_onTerminal_clearSession :
    mode0.drawn ⟨79, 24, fun _ _ => 'x'⟩
        ((events (clearSession.steps.map (Step.map Script.register))).map Event.call) =
      Display.drawn ⟨79, 24, fun _ _ => 'x'⟩
        ((events (clearSession.steps.map (Step.map Script.register))).map Event.call) :=
  efiMain_onTerminal clearSession_run _

end ZeroProcHot.Tmp
