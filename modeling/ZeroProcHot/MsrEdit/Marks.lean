import ZeroProcHot.MsrEdit.Session

/-!
# What the menu shows

The display says what is selected: of the five rows of the menu one is marked, the one with the
number of the item (`Selects`). `faithful_menu` says which sequences of items the menu can draw so
that this holds at each redraw: those whose items are all on the menu.
-/

namespace ZeroProcHot.MsrEdit

open Interact Efi

/-- The character of a number of one digit. -/
def number (i : Nat) : Char := Char.ofNat (48 + i)

/-- The five items have different numbers. -/
theorem number_inj : ∀ i < 5, ∀ j < 5, number i = number j → i = j := by decide

/-- The rows of the menu. -/
def MenuRow (y : Nat) : Prop := 10 ≤ y ∧ y ≤ 14

/-- The row has the mark in front. -/
def Marked (d : Display) (y : Nat) : Prop := d.cell 0 y = '>' ∧ d.cell 1 y = ' '

/-- **The display shows the item as selected.** -/
structure Selects (d : Display) (current : UInt8) : Prop where
  item : current ≤ 4
  one : ∃ y, MenuRow y ∧ Marked d y ∧ ∀ y', MenuRow y' → Marked d y' → y' = y
  named : ∀ y, MenuRow y → (Marked d y ↔ d.cell 3 y = number current.toNat)

/-- What the marked points ask of the display. -/
def sound (d : Display) : Call Point → Prop
  | .reach (.select current) => current ≤ 4
  | .reach (.hexBoard current _) => Selects d current
  | _ => True

/-- Each of some calls finds the display it asks for. -/
def Faithful (d : Display) (cs : List (Call Point)) : Prop :=
  ∀ pre c post, cs = pre ++ c :: post → sound (d.drawn pre) c

theorem faithful_nil (d : Display) : Faithful d [] := by
  intro pre c post cut
  exact absurd cut.symm (List.append_ne_nil_of_right_ne_nil pre (List.cons_ne_nil c post))

/-- A redraw is faithful call by call. -/
theorem faithful_cons {d : Display} {c : Call Point} {cs : List (Call Point)} :
    Faithful d (c :: cs) ↔ sound d c ∧ Faithful (d.draw c) cs := by
  constructor
  · intro h
    refine ⟨h [] c cs rfl, fun pre c' post cut => ?_⟩
    exact h (c :: pre) c' post (congrArg (c :: ·) cut)
  · rintro ⟨first, rest⟩ pre c' post cut
    cases pre with
    | nil =>
      obtain ⟨rfl, rfl⟩ := List.cons.inj cut
      exact first
    | cons c₀ pre =>
      obtain ⟨rfl, tail⟩ := List.cons.inj cut
      exact rest pre c' post tail

/-- Faithful parts make a faithful whole, the second on the screen the first leaves. -/
theorem faithful_append {d : Display} {cs cs' : List (Call Point)} :
    Faithful d (cs ++ cs') ↔ Faithful d cs ∧ Faithful (d.drawn cs) cs' := by
  induction cs generalizing d with
  | nil => exact (and_iff_right (faithful_nil d)).symm
  | cons c cs ih =>
    rw [List.cons_append, faithful_cons, ih, faithful_cons, Display.drawn_cons, and_assoc]

theorem Faithful.of_prefix {d : Display} {cs cs' : List (Call Point)} (h : Faithful d cs')
    (begins : cs <+: cs') : Faithful d cs := by
  obtain ⟨rest, rfl⟩ := begins
  exact (faithful_append.mp h).1

/-- A call that marks a point. -/
def marksPoint : Call Point → Bool
  | .reach _ => true
  | _ => false

/-- Calls that mark no point ask for nothing. -/
theorem faithful_unmarked {d : Display} {cs : List (Call Point)} (h : cs.any marksPoint = false) :
    Faithful d cs := by
  intro pre c post cut
  have here : marksPoint c ≠ true :=
    List.any_eq_false.mp h c (by rw [cut]; exact List.mem_append_right pre List.mem_cons_self)
  cases c with
  | reach p => exact absurd rfl here
  | _ => trivial

/-! ## The arrows -/

/-- One arrow. -/
theorem arrow_cell (d : Display) (selected : Prop) [Decidable selected] (row x y : Nat) :
    (d.drawn [(.setCursorPosition 0 row : Call Point),
      .outputString (slct (if selected then 1 else 0))]).cell x y =
      if y = row ∧ x = 0 then if selected then '>' else ' '
      else if y = row ∧ x = 1 then ' '
      else d.cell x y := by
  have two (c : Char) (h : c ≠ '\r' ∧ c ≠ '\n') :
      (({ d with column := 0, row } : Display).puts [c, ' ']).cell x y =
        if y = row ∧ x = 0 then c else if y = row ∧ x = 1 then ' ' else d.cell x y := by
    simp only [Display.puts, List.foldl_cons, List.foldl_nil, Display.put_plain h,
      Display.put_plain (by decide : ' ' ≠ '\r' ∧ ' ' ≠ '\n')]
    by_cases hy : y = row
    · subst hy
      rcases x with _ | _ | x <;> simp
    · simp [hy]
  by_cases hs : selected
  · rw [if_pos hs, if_pos hs]
    exact two '>' (by decide)
  · rw [if_neg hs, if_neg hs]
    exact two ' ' (by decide)

/-- The first two columns after the arrows, and the other cells. -/
theorem arrows_cell (current : UInt8) (is : List Nat) (d : Display) (x y : Nat) :
    (d.drawn (arrowCalls current is)).cell x y =
      if y ∈ is.map (9 + ·) ∧ x = 0 then
        if (y - 9) % 5 = current.toNat then '>' else ' '
      else if y ∈ is.map (9 + ·) ∧ x = 1 then ' '
      else d.cell x y := by
  induction is generalizing d with
  | nil => simp [arrowCalls]
  | cons i is ih =>
    have first := arrow_cell d (i % 5 = current.toNat) (9 + i) x y
    have split : arrowCalls current (i :: is) =
        [.setCursorPosition 0 (9 + i),
          .outputString (slct (if i % 5 = current.toNat then 1 else 0))] ++
        arrowCalls current is := rfl
    rw [split, Display.drawn_append, ih, first, List.map_cons]
    by_cases hy : y = 9 + i
    · subst hy
      rw [Nat.add_sub_cancel_left]
      by_cases inside : 9 + i ∈ is.map (9 + ·)
      · simp only [inside, List.mem_cons_self, true_and]
        split
        · rfl
        · split <;> rfl
      · simp only [inside, List.mem_cons_self, true_and, false_and, if_false]
    · have same : (y ∈ (9 + i) :: is.map (9 + ·)) ↔ y ∈ is.map (9 + ·) := by
        rw [List.mem_cons, or_iff_right hy]
      simp only [same, hy, false_and, if_false]

/-- The arrows leave the numbers. -/
theorem arrows_number (current : UInt8) (is : List Nat) (d : Display) (y : Nat) :
    (d.drawn (arrowCalls current is)).cell 3 y = d.cell 3 y := by
  rw [arrows_cell, if_neg (fun both => absurd both.2 (by omega)),
    if_neg (fun both => absurd both.2 (by omega))]

/-- A row of the menu is a row of its loop. -/
theorem menuRow_iff (y : Nat) : MenuRow y ↔ y ∈ (List.range' 1 5).map (9 + ·) := by
  unfold MenuRow
  rw [List.mem_map]
  constructor
  · rintro ⟨low, high⟩
    exact ⟨y - 9, List.mem_range'_1.mpr ⟨by omega, by omega⟩, by omega⟩
  · rintro ⟨i, hi, rfl⟩
    have bounds := List.mem_range'_1.mp hi
    omega

/-! ## The numbers -/

/-- The rows have their numbers. -/
def Numbered (d : Display) : Prop := ∀ y, MenuRow y → d.cell 3 y = number ((y - 9) % 5)

/-- The first five strings of the table are the numbers of the items. -/
theorem charset_number : ∀ i < 5, charset i = String.singleton (number i) := by decide

theorem menuLabel_plain : ∀ i < 5, Display.Plain (menuLabel i).toList := by decide

theorem number_plain : ∀ i < 5, Display.Plain [number i] := by decide

/-- A printed row has its number, and no other row changes. -/
theorem row_cell (d : Display) (i : Nat) :
    (d.drawn (rowCalls i)).cell 3 (9 + i) = number (i % 5) ∧
      ∀ y, y ≠ 9 + i → (d.drawn (rowCalls i)).cell 3 y = d.cell 3 y := by
  have small : i % 5 < 5 := Nat.mod_lt i (by omega)
  -- The number is printed first, and what follows it on the row starts behind it.
  let d₁ : Display := { d with column := 3, row := 9 + i }
  let d₂ := d₁.puts [number (i % 5)]
  let d₃ := d₂.puts ['.', ' ']
  let d₄ := d₃.puts (menuLabel (i % 5)).toList
  have drawn : (d.drawn (rowCalls i)).cell = d₄.cell := by
    have digit : (charset (i % 5)).toList = [number (i % 5)] := by
      rw [charset_number _ small, String.toList_singleton]
    have print : (d₁.print (charset (i % 5))) = d₂ := by
      unfold Display.print
      rw [digit]
    change ((((d₁.print (charset (i % 5))).print ". ").print (menuLabel (i % 5))).print "\r\n").cell
      = d₄.cell
    rw [print, Display.print_lineEnd]
    rfl
  obtain ⟨row₂, col₂, cell₂⟩ := Display.puts_plain (number_plain _ small) d₁
  obtain ⟨row₃, col₃, cell₃⟩ := Display.puts_plain (by decide : Display.Plain ['.', ' ']) d₂
  obtain ⟨row₄, col₄, cell₄⟩ := Display.puts_plain (menuLabel_plain _ small) d₃
  rw [drawn]
  have behind : 3 < d₂.column := by
    rw [col₂]
    exact Nat.lt_succ_self 3
  have further : 3 < d₃.column := Nat.lt_of_lt_of_le behind (Nat.le.intro col₃.symm)
  have kept (y : Nat) : d₄.cell 3 y = d₂.cell 3 y := by
    rw [cell₄ 3 y (.inl further), cell₃ 3 y (.inl behind)]
  constructor
  · rw [kept]
    exact Display.puts_first (number_plain _ small) d₁
  · intro y hy
    rw [kept]
    exact cell₂ 3 y (.inr hy)

/-- The menu prints its numbers. -/
theorem numbered_printMenu (d : Display) : Numbered (d.drawn printMenuCalls) := by
  -- The rows in the order of the loop: those already printed have their numbers.
  have rows : ∀ (is : List Nat) (d : Display) (y : Nat), y ∈ is.map (9 + ·) ∨
      d.cell 3 y = number ((y - 9) % 5) →
      (d.drawn (is.flatMap rowCalls)).cell 3 y = number ((y - 9) % 5) := by
    intro is
    induction is with
    | nil =>
      intro d y h
      exact h.resolve_left List.not_mem_nil
    | cons i is ih =>
      intro d y h
      obtain ⟨here, elsewhere⟩ := row_cell d i
      rw [List.flatMap_cons, Display.drawn_append]
      refine ih _ y ?_
      by_cases hy : y = 9 + i
      · subst hy
        rw [Nat.add_sub_cancel_left]
        exact .inr here
      · rw [elsewhere y hy]
        exact h.imp_left fun mem => (List.mem_cons.mp mem).resolve_left hy
  intro y hy
  unfold printMenuCalls
  rw [Display.drawn_cons, Display.drawn_cons]
  exact rows (List.range' 1 5) _ y (.inl ((menuRow_iff y).mp hy))

/-! ## The redraws -/

/-- The arrows leave the numbers and mark the item that is selected. -/
theorem selects_arrows {d : Display} (numbers : Numbered d) {current : UInt8} (h : current ≤ 4) :
    Selects (d.drawn (arrowCalls current (List.range' 1 5))) current := by
  have small : current.toNat ≤ 4 := UInt8.le_iff_toNat_le.mp h
  have cells := arrows_cell current (List.range' 1 5) d
  have marked : ∀ y, MenuRow y → (Marked (d.drawn (arrowCalls current (List.range' 1 5))) y ↔
      (y - 9) % 5 = current.toNat) := by
    intro y hy
    have row := (menuRow_iff y).mp hy
    have arrow := cells 0 y
    have blank := cells 1 y
    rw [if_pos ⟨row, rfl⟩] at arrow
    rw [if_neg (fun both => absurd both.2 (by omega)), if_pos ⟨row, rfl⟩] at blank
    unfold Marked
    rw [arrow, blank]
    split
    · next same => exact ⟨fun _ => same, fun _ => ⟨rfl, rfl⟩⟩
    · next other => exact ⟨fun both => absurd both.1 (by decide), fun same => absurd same other⟩
  refine ⟨h, ⟨9 + if current.toNat = 0 then 5 else current.toNat, ?_, ?_, ?_⟩, ?_⟩
  · unfold MenuRow
    split <;> omega
  · rw [marked _ (by unfold MenuRow; split <;> omega)]
    split <;> omega
  · intro y hy mark
    have same := (marked y hy).mp mark
    unfold MenuRow at hy
    split <;> omega
  · intro y hy
    have digit : (d.drawn (arrowCalls current (List.range' 1 5))).cell 3 y =
        number ((y - 9) % 5) := by
      rw [arrows_number, numbers y hy]
    rw [marked y hy, digit]
    constructor
    · intro same
      rw [same]
    · intro same
      exact number_inj _ (Nat.mod_lt _ (by omega)) _ (by omega) same

/-- The marks stand left of the numbers, which stay. -/
theorem numbered_arrows {d : Display} (numbers : Numbered d) (current : UInt8) :
    Numbered (d.drawn (arrowCalls current (List.range' 1 5))) := by
  intro y hy
  rw [arrows_number, numbers y hy]

/-- A redraw draws its marks, and the label it passes draws nothing. -/
theorem drawn_redraw (d : Display) (current : UInt8) :
    d.drawn (redraw current) = d.drawn (arrowCalls current (List.range' 1 5)) := by
  unfold redraw
  rw [List.cons_append, Display.drawn_cons, Display.drawn_append]
  rfl

theorem numbered_redraw {d : Display} (numbers : Numbered d) (current : UInt8) :
    Numbered (d.drawn (redraw current)) := by
  rw [drawn_redraw]
  exact numbered_arrows numbers current

/-- A redraw finds the display it asks for exactly when the item is on the menu. -/
theorem faithful_redraw {d : Display} (numbers : Numbered d) (current : UInt8) :
    Faithful d (redraw current) ↔ current ≤ 4 := by
  have arrows (d : Display) : Faithful d (arrowCalls current (List.range' 1 5)) :=
    faithful_unmarked rfl
  unfold redraw
  rw [List.cons_append, faithful_cons, faithful_append, faithful_cons]
  constructor
  · intro h
    exact h.1
  · intro h
    exact ⟨h, arrows _, selects_arrows numbers h, faithful_nil _⟩

/-- Redraws are faithful exactly when each marks an item of the menu. -/
theorem faithful_redraws {d : Display} (numbers : Numbered d) (items : List UInt8) :
    Faithful d (items.flatMap redraw) ↔ ∀ item ∈ items, item ≤ 4 := by
  induction items generalizing d with
  | nil => exact iff_of_true (faithful_nil d) fun _ h => absurd h List.not_mem_nil
  | cons item items ih =>
    rw [List.flatMap_cons, faithful_append, faithful_redraw numbers,
      ih (numbered_redraw numbers item), List.forall_mem_cons]

theorem faithful_printMenu (d : Display) : Faithful d printMenuCalls := faithful_unmarked rfl

/-- **What the menu draws is faithful exactly when every item is on the menu.** -/
theorem faithful_menuCalls (d : Display) (selected : UInt8)
    (r : Result UInt8 (List InputKey) UInt8) :
    Faithful d (menuCalls selected r) ↔ ∀ item ∈ selected :: r.steps, item ≤ 4 := by
  unfold menuCalls
  rw [faithful_append, faithful_redraws (numbered_printMenu d)]
  exact and_iff_right (faithful_printMenu d)

/-- The display shows the last item of the redraws. -/
theorem selects_redraws {d : Display} (numbers : Numbered d) {items : List UInt8} {last : UInt8}
    (h : last ≤ 4) (ends : items.getLast? = some last) :
    Selects (d.drawn (items.flatMap redraw)) last := by
  induction items generalizing d with
  | nil => cases ends
  | cons item items ih =>
    rw [List.flatMap_cons, Display.drawn_append]
    cases items with
    | nil =>
      cases ends
      rw [drawn_redraw]
      exact selects_arrows numbers h
    | cons item' items =>
      rw [List.getLast?_cons_cons] at ends
      exact ih (numbered_redraw numbers item) ends

/-- The last redraw is the one that remains. -/
theorem selects_menuCalls (d : Display) {selected last : UInt8}
    {r : Result UInt8 (List InputKey) UInt8} (h : last ≤ 4)
    (ends : (selected :: r.steps).getLast? = some last) :
    Selects (d.drawn (menuCalls selected r)) last := by
  unfold menuCalls
  rw [Display.drawn_append]
  exact selects_redraws (numbered_printMenu d) h ends

section Menu

variable {σ : Type} {start : UInt8 → σ} {f : UInt8 → σ → InputKey → σ ⊕ UInt8}
  {board : UInt8 → UInt64 → C UInt8}

/-- **Every run of the menu on some keys is faithful exactly when every item it comes to is on the
menu.** -/
theorem menu_faithful_iff (d : Display) (junk : Stream' InputKey) (v : UInt64) (keys : List InputKey)
    (reader : ∀ current, board current 4 = Prog.iter (keyIn (f current)) (start current))
    (selected : UInt8) :
    (∀ tr w' out, Run console.env (keyed junk v keys) (menu board selected) tr w' out →
      Faithful d (drawings tr)) ↔
      ∀ item ∈ selected :: (trail start f selected keys).steps, item ≤ 4 := by
  rw [← faithful_menuCalls d selected (trail start f selected keys)]
  constructor
  · intro all
    obtain ⟨tr, run, drawn⟩ := menu_run keys reader selected junk v
    rw [← drawn]
    exact all tr _ _ run
  · intro whole tr w' out run
    exact whole.of_prefix (menu_runs reader run).1

end Menu

end ZeroProcHot.MsrEdit
