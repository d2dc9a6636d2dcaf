import ZeroProcHot.Efi.Display
import ZeroProcHot.Interact.Wp

/-!
# A terminal of fixed size

A `Display` has no edges. A terminal has: the character in the last column takes the cursor to the next
line, a line end in the last row moves everything up by a row, and a cursor position off the screen is
refused. The layout of a terminal is the protocol of a cursor that never comes to an edge. The calls of
a program that keeps to it leave on the terminal what they leave on the display (`terminal_drawn`).
-/

namespace ZeroProcHot.Efi

open Interact

variable {P : Type}

/-- A terminal, by its size. -/
structure Terminal where
  columns : Nat
  rows : Nat
  deriving DecidableEq, Repr

/-- The size that every console has. -/
def mode0 : Terminal := ⟨80, 25⟩

namespace Terminal

section Drawing

variable (t : Terminal)

/-- Move every row up. -/
def scroll (d : Display) : Display :=
  { d with cell := fun x y => if y + 1 < t.rows then d.cell x (y + 1) else ' ' }

def lineFeed (d : Display) : Display :=
  if d.row + 1 < t.rows then { d with row := d.row + 1 } else t.scroll d

/-- Print one character. -/
def put (d : Display) (c : Char) : Display :=
  if c = '\n' then t.lineFeed d
  else if (d.put c).column < t.columns then d.put c
  else t.lineFeed { d.put c with column := 0 }

/-- Print some characters. -/
def puts (d : Display) (cs : List Char) : Display := cs.foldl t.put d

/-- What a call leaves on the terminal. -/
def draw (d : Display) : Call P → Display
  | .outputString s => t.puts d s.toList
  | .setCursorPosition column row =>
    if column < t.columns ∧ row < t.rows then { d with column, row } else d
  | .reset _ => ⟨0, 0, fun _ _ => ' '⟩
  | _ => d

/-- The terminal after some calls. -/
def drawn (d : Display) (cs : List (Call P)) : Display := cs.foldl t.draw d

end Drawing

/-! ## The cursor -/

/-- The place of the next character. -/
structure Cursor where
  column : Nat
  row : Nat
  deriving DecidableEq, Repr

/-- The cursor of a display. -/
def cursor (d : Display) : Cursor := ⟨d.column, d.row⟩

namespace Cursor

/-- The cursor after a character. -/
def put (p : Cursor) (c : Char) : Cursor :=
  if c = '\r' then ⟨0, p.row⟩ else if c = '\n' then ⟨p.column, p.row + 1⟩ else ⟨p.column + 1, p.row⟩

/-- The cursor after some characters. -/
def puts (p : Cursor) (cs : List Char) : Cursor := cs.foldl put p

end Cursor

/-- The character does not bring the cursor to an edge. -/
def Room (t : Terminal) (p : Cursor) (c : Char) : Prop :=
  if c = '\n' then p.row + 1 < t.rows else (p.put c).column < t.columns

instance (t : Terminal) (p : Cursor) (c : Char) : Decidable (t.Room p c) :=
  inferInstanceAs (Decidable (if c = '\n' then _ else _))

/-- No character brings the cursor to an edge. -/
def Fits (t : Terminal) : Cursor → List Char → Prop
  | _, [] => True
  | p, c :: cs => t.Room p c ∧ t.Fits (p.put c) cs

instance decidableFits (t : Terminal) : (p : Cursor) → (cs : List Char) → Decidable (t.Fits p cs)
  | _, [] => isTrue trivial
  | p, c :: cs =>
    have := decidableFits t (p.put c) cs
    inferInstanceAs (Decidable (t.Room p c ∧ t.Fits (p.put c) cs))

variable {t : Terminal}

/-- Where a display's cursor goes depends on the character alone. -/
theorem cursor_put (d : Display) (c : Char) : cursor (d.put c) = (cursor d).put c := by
  unfold cursor Display.put Cursor.put
  split
  · rfl
  · split
    · rfl
    · rfl

/-- So does where it goes with a text. -/
theorem cursor_puts (d : Display) (cs : List Char) : cursor (d.puts cs) = (cursor d).puts cs := by
  induction cs generalizing d with
  | nil => rfl
  | cons c cs ih =>
    have rest := ih (d.put c)
    rw [cursor_put] at rest
    exact rest

/-- A character with room is printed as on a display. -/
theorem put_eq {d : Display} {c : Char} (room : t.Room (cursor d) c) : t.put d c = d.put c := by
  unfold Room at room
  rw [← cursor_put] at room
  unfold put
  by_cases feed : c = '\n'
  · rw [if_pos feed] at room ⊢
    unfold lineFeed
    rw [if_pos (show d.row + 1 < t.rows from room), feed]
    rfl
  · rw [if_neg feed] at room ⊢
    exact if_pos room

/-- By induction on the characters. -/
theorem puts_eq {d : Display} {cs : List Char} (fits : t.Fits (cursor d) cs) :
    t.puts d cs = d.puts cs := by
  induction cs generalizing d with
  | nil => rfl
  | cons c cs ih =>
    obtain ⟨room, rest⟩ := fits
    rw [← cursor_put] at rest
    have later := ih rest
    rw [← put_eq room] at later
    rw [puts, List.foldl_cons]
    refine later.trans ?_
    rw [put_eq room]
    rfl

/-- Characters on one line fit if there is room for all of them and one more. -/
theorem fits_plain {cs : List Char} (plain : Display.Plain cs) {p : Cursor}
    (room : p.column + cs.length < t.columns) :
    t.Fits p cs ∧ p.puts cs = ⟨p.column + cs.length, p.row⟩ := by
  induction cs generalizing p with
  | nil => exact ⟨trivial, rfl⟩
  | cons c cs ih =>
    obtain ⟨first, rest⟩ := List.forall_mem_cons.mp plain
    have put : p.put c = ⟨p.column + 1, p.row⟩ := by
      unfold Cursor.put
      rw [if_neg first.1, if_neg first.2]
    rw [List.length_cons] at room ⊢
    obtain ⟨fits, moved⟩ := @ih rest ⟨p.column + 1, p.row⟩ (by dsimp only; omega)
    refine ⟨⟨?_, put ▸ fits⟩, ?_⟩
    · unfold Room
      rw [if_neg first.2, put]
      show p.column + 1 < t.columns
      omega
    · show (p.put c).puts cs = _
      rw [put, moved]
      show Cursor.mk (p.column + 1 + cs.length) p.row = _
      rw [Nat.add_assoc, Nat.add_comm 1]

/-! ## The layout -/

/-- The protocol of a cursor that never comes to an edge. -/
def layout (t : Terminal) : Protocol (firmware P) Cursor where
  next p e :=
    match e.call with
    | .outputString s => p.puts s.toList
    | .setCursorPosition column row => ⟨column, row⟩
    | .reset _ => ⟨0, 0⟩
    | _ => p
  allows p e :=
    match e.call with
    | .outputString s => t.Fits p s.toList
    | .setCursorPosition column row => column < t.columns ∧ row < t.rows
    | _ => True

/-- The cursor moves as the protocol says. -/
theorem cursor_draw (d : Display) (e : Event (firmware P)) :
    cursor (d.draw e.call) = (t.layout (P := P)).next (cursor d) e := by
  obtain ⟨c, r⟩ := e
  cases c with
  | outputString s => exact cursor_puts d s.toList
  | _ => rfl

/-- What the layout allows, the terminal draws as a display does. -/
theorem draw_eq {d : Display} {e : Event (firmware P)} (allowed : t.layout.allows (cursor d) e) :
    t.draw d e.call = d.draw e.call := by
  obtain ⟨c, r⟩ := e
  cases c with
  | outputString s => exact puts_eq allowed
  | setCursorPosition column row => exact if_pos allowed
  | _ => rfl

/-- By induction on the events. -/
theorem drawn_eq {d : Display} {es : List (Event (firmware P))}
    (allowed : ∀ pre e post, es = pre ++ e :: post → t.layout.allows (t.layout.state (cursor d) pre) e) :
    t.drawn d (es.map Event.call) = d.drawn (es.map Event.call) := by
  induction es generalizing d with
  | nil => rfl
  | cons e es ih =>
    have first := draw_eq (allowed [] e es rfl)
    have later := @ih (d.draw e.call) fun pre e' post cut => by
      have next := allowed (e :: pre) e' post (congrArg (e :: ·) cut)
      rw [Protocol.state_cons, ← cursor_draw] at next
      exact next
    show t.drawn (t.draw d e.call) _ = (d.draw e.call).drawn _
    rw [first]
    exact later

/-- **What is drawn on a terminal.** In every run of a program that keeps to the layout, against every
environment, the terminal shows what a display without edges shows. -/
theorem terminal_drawn {W α : Type} {E : Env (firmware P) W} {w w' : W} {p : Prog (firmware P) α}
    {tr : List (Step (firmware P) W)} {out : Option α} {Q : α → Cursor → Prop} {d : Display}
    (run : Run E w p tr w' out) (keeps : Conforms t.layout p Q (cursor d)) :
    t.drawn d ((events tr).map Event.call) = d.drawn ((events tr).map Event.call) := by
  refine drawn_eq fun pre e post cut => ?_
  obtain ⟨first, rest, rfl, rfl, rest_eq⟩ := List.map_eq_append_iff.mp cut
  obtain ⟨st, last, rfl, rfl, _⟩ := List.map_eq_cons_iff.mp rest_eq
  exact (run.follows keeps).1 first st last rfl

/-! ## Where a program takes the cursor -/

/-- The program keeps to the layout from `p` on, and takes the cursor to `q`. -/
def Moves (t : Terminal) {α : Type} (p : Cursor) (prog : Prog (firmware P) α) (q : Cursor) : Prop :=
  Conforms t.layout prog (fun _ p' => p' = q) p

section Rules

variable {α β : Type} {p q : Cursor}

/-- One program after another. -/
theorem Moves.andThen {prog : Prog (firmware P) α} {k : α → Prog (firmware P) β}
    {Q : β → Cursor → Prop} (moves : t.Moves p prog q)
    (rest : ∀ a, Conforms t.layout (k a) Q q) : Conforms t.layout (prog >>= k) Q p := by
  rw [conforms_bind]
  refine conforms_mono (fun a p' here => ?_) moves
  obtain rfl := here
  exact rest a

theorem moves_pure (a : α) : t.Moves p (pure a : Prog (firmware P) α) p := rfl

/-- A string that fits. -/
theorem moves_outputString {s : String} (fits : t.Fits p s.toList) (moved : p.puts s.toList = q) :
    t.Moves (P := P) p (outputString s) q :=
  (conforms_outputString s _).mpr ⟨fits, moved⟩

/-- A string on one line. -/
theorem moves_plain {s : String} (plain : Display.Plain s.toList)
    (room : p.column + s.toList.length < t.columns) :
    t.Moves (P := P) p (outputString s) ⟨p.column + s.toList.length, p.row⟩ := by
  obtain ⟨fits, moved⟩ := fits_plain plain room
  exact moves_outputString fits moved

/-- A line end. -/
theorem moves_lineEnd (width : 0 < t.columns) (room : p.row + 1 < t.rows) :
    t.Moves (P := P) p (outputString "\r\n") ⟨0, p.row + 1⟩ := by
  have chars : "\r\n".toList = ['\r', '\n'] := by decide
  refine moves_outputString ?_ ?_
  · rw [chars]
    exact ⟨width, room, trivial⟩
  · rw [chars]
    rfl

/-- The cursor goes where it is put. -/
theorem moves_setCursorPosition {column row : Nat} (inside : column < t.columns ∧ row < t.rows) :
    t.Moves (P := P) p (setCursorPosition column row) ⟨column, row⟩ := by
  intro _ q here
  exact ⟨inside, here⟩

/-- A cleared screen has its cursor in the corner. -/
theorem moves_reset (x : Bool) : t.Moves (P := P) p (reset x) ⟨0, 0⟩ :=
  (conforms_reset x _).mpr ⟨trivial, rfl⟩

theorem moves_waitForEvent : t.Moves (P := P) p waitForEvent p :=
  (conforms_waitForEvent _).mpr ⟨trivial, rfl⟩

theorem moves_stall (n : Nat) : t.Moves (P := P) p (stall n) p :=
  (conforms_stall n _).mpr ⟨trivial, rfl⟩

theorem moves_rdmsr (addr : UInt32) : t.Moves (P := P) p (rdmsr addr) p :=
  (conforms_rdmsr addr _).mpr fun _ => ⟨trivial, rfl⟩

theorem moves_wrmsr (addr low high : UInt32) : t.Moves (P := P) p (wrmsr addr low high) p :=
  (conforms_wrmsr addr low high _).mpr ⟨trivial, rfl⟩

/-- A declaration does not move the cursor. -/
theorem moves_keyLocal : t.Moves (P := P) p keyLocal p :=
  (conforms_keyLocal _).mpr fun _ => ⟨trivial, rfl⟩

theorem moves_reach (point : P) : t.Moves p (reach point) p :=
  (conforms_reach point _).mpr ⟨trivial, rfl⟩

theorem moves_readKeyStroke (key : InputKey) : t.Moves (P := P) p (readKeyStroke key) p :=
  (conforms_readKeyStroke key _).mpr fun _ => ⟨trivial, rfl⟩

/-- A loop over a list whose body takes the cursor from one place to the next. -/
theorem moves_forM {ι : Type} {xs : List ι} {f : ι → Prog (firmware P) PUnit} (place : Nat → Cursor)
    {j : Nat} (body : ∀ i x, xs[i]? = some x → t.Moves (place (j + i)) (f x) (place (j + i + 1))) :
    t.Moves (place j) (forM xs f) (place (j + xs.length)) := by
  induction xs generalizing j with
  | nil => rfl
  | cons x xs ih =>
    have first := body 0 x rfl
    have rest := @ih (j + 1) fun i x' found => by
      have later := body (i + 1) x' found
      rw [← Nat.add_assoc, Nat.add_right_comm] at later
      exact later
    rw [List.forM_cons, List.length_cons, Nat.add_comm xs.length, ← Nat.add_assoc]
    exact first.andThen fun _ => rest

end Rules

end Terminal

end ZeroProcHot.Efi
