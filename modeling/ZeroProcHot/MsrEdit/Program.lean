import ZeroProcHot.Efi.Firmware

/-!
# `MSREdit.c`, the editor's menu, and the key readers

The menu of `MSREdit.c` reads its keys through `HexBoard`, of which there are two: the one at the end
of `MSREdit.c` and the one of `libMSREdit.c`. `menu` takes the one it calls as an argument. The array
`select` that `menu` names is the array `slct` that it declares. `index`, which `WaitForEvent` fills
and nothing reads, is left out.
-/

namespace ZeroProcHot.MsrEdit

open Interact Efi

/-- The marked points: the label `SELECT` of `menu` with its `current`, and a call of `HexBoard`. -/
inductive Point where
  | select (current : UInt8)
  | hexBoard (current : UInt8) (max : UInt64)
  deriving DecidableEq, Repr

/-- A program over the firmware with these points. -/
abbrev C (α : Type) := Prog (firmware Point) α

/-! ## Output -/

/-- The line that the program prints first. -/
def head0 : String :=
  "(c)2023 HoefkensJ            Zero BDProcHot 0v605        github.com/hoefkensj"
def crlf : String := "\r\n"

/-- What `Charset` stores in `CHARSETZERO[i*2]`. A comparison of C is 0 or 1. -/
def charsetZero (i : Nat) : Nat :=
  (decide (i ≤ 9)).toNat * (48 + i)
    + (decide (10 ≤ i ∧ i ≤ 35)).toNat * (65 + i - 10)
    + (decide (36 ≤ i ∧ i ≤ 61)).toNat * (97 + i - 36)
    + (decide (62 ≤ i ∧ i ≤ 77)).toNat * (32 + i - 62)
    + (decide (78 ≤ i ∧ i ≤ 83)).toNat * (91 + i - 78)
    + (decide (84 ≤ i ∧ i ≤ 87)).toNat * (123 + i - 84)
    + (decide (88 ≤ i ∧ i ≤ 94)).toNat * (58 + i - 88)

/-- The string `CHARSET[i]` points to: the words around each one are 0. -/
def charset (i : Nat) : String :=
  if charsetZero i = 0 then "" else String.singleton (Char.ofNat (charsetZero i))

/-- The pointer `tcOPrint` names `OutputString` of the firmware. -/
def tcOPrint (string : String) : C Unit := outputString string

def setCursor (col row : Nat) : C Unit := setCursorPosition col row

/-- A text at a place of the screen. -/
def printXY (string : String) (x y : Nat) : C Unit := do
  setCursor x y
  tcOPrint string

/-! ## The menu -/

/-- The array `menu` of the function of that name. -/
def menuLabel (i : Nat) : String :=
  ["Exit", "Change MSR", "Change FLAG", "Clear FLAG", "Set FLAG"].getD i ""

/-- The array `slct`: the mark of an item and the blank of the others. -/
def slct (i : Nat) : String := ["  ", "> "].getD i ""

/-- The labels of the five items with their numbers, from row 10 on. -/
def printMenu : C Unit := do
  setCursor 0 8
  tcOPrint "Menu:"
  forM (List.range' 1 5) fun i => do
    printXY (charset (i % 5)) 3 (9 + i)
    tcOPrint ". "
    tcOPrint (menuLabel (i % 5))
    tcOPrint crlf

/-- The loop that draws the arrows. -/
def printArrows (selected : UInt8) : C Unit :=
  forM (List.range' 1 5) fun i => do
    let arrow := slct (if i % 5 = selected.toNat then 1 else 0)
    printXY arrow 0 (9 + i)

/-- `menu` from the label `SELECT` with its `current`: another `current`, or the result. -/
def select (hexBoard : UInt8 → UInt64 → C UInt8) (current : UInt8) : C (UInt8 ⊕ UInt8) := do
  reach (.select current)
  let selected := current
  printArrows selected
  reach (.hexBoard current 4)
  let item ← hexBoard current 4
  if item = 254 then return .inr selected
  else if item = 255 then return .inr current
  else return .inl item

/-- The labels once, then the marks and a selection for as long as the reader answers an item. -/
def menu (hexBoard : UInt8 → UInt64 → C UInt8) (selected : UInt8) : C UInt8 := do
  printMenu
  Prog.iter (select hexBoard) selected

/-! ## The key readers -/

/-- One pass from the label `KEYIN`: `f` is what the branches make of the state and the key. -/
def keyIn {σ β : Type} (f : σ → InputKey → σ ⊕ β) (s : σ) : C (σ ⊕ β) := do
  waitForEvent
  let key ← keyLocal
  let key ← readKeyStroke key
  return f s key

/-- The first three branches: the value of a hexadecimal digit. -/
def hexDigit (keychar : UInt16) : Option UInt8 :=
  if chr '0' ≤ keychar ∧ keychar ≤ chr '9' then some (keychar - chr '0').toUInt8
  else if chr 'A' ≤ keychar ∧ keychar ≤ chr 'F' then some (keychar - chr 'A' + 10).toUInt8
  else if chr 'a' ≤ keychar ∧ keychar ≤ chr 'f' then some (keychar - chr 'a' + 10).toUInt8
  else none

/-- The `SCAN_UP` branch. The source divides by `max + 1`, which is 0 for the largest `max` of the
type: the model is the source's for every smaller `max`, and the callers pass 4. -/
def stepUp (max : UInt64) (keyint : UInt8) : UInt8 :=
  ((keyint.toUInt64 + max) % (max + 1)).toUInt8

/-- The `SCAN_DOWN` branch, for the same `max` as `stepUp`. -/
def stepDown (max : UInt64) (keyint : UInt8) : UInt8 :=
  ((keyint.toUInt64 + 1) % (max + 1)).toUInt8

/-- The variables of `HexBoard` in `MSREdit.c`. -/
structure Board where
  current : UInt8
  keyint : UInt8
  ended : Bool
  deriving DecidableEq, Repr

/-- The branches of `HexBoard` in `MSREdit.c`. -/
def press (max : UInt64) (b : Board) (key : InputKey) : Board :=
  match hexDigit key.unicodeChar with
  | some digit => { b with keyint := digit }
  | none =>
    if key.scanCode = scanUp then { b with keyint := stepUp max b.keyint }
    else if key.scanCode = scanDown then { b with keyint := stepDown max b.keyint }
    else if key.scanCode = scanLeft then { b with current := b.keyint, ended := true }
    else if key.scanCode = scanRight then { b with current := b.keyint, ended := true }
    else if key.unicodeChar = charCarriageReturn then
      { b with current := b.keyint, ended := true }
    else if key.scanCode = scanEsc then { b with keyint := b.current, ended := true }
    else { b with keyint := b.current }

/-- The end of a pass. -/
def Board.turn (b : Board) : Board ⊕ UInt8 := if b.ended = false then .inl b else .inr b.keyint

/-- `HexBoard` of `MSREdit.c`. -/
def hexBoard (current : UInt8) (max : UInt64) : C UInt8 :=
  Prog.iter (keyIn fun b key => (press max b key).turn) ⟨current, current, false⟩

namespace Lib

/-- The branches of `HexBoard` in `libMSREdit.c`. -/
def press (current : UInt8) (max : UInt64) (keyint : UInt8) (key : InputKey) : UInt8 :=
  match hexDigit key.unicodeChar with
  | some digit => digit
  | none =>
    if key.scanCode = scanUp then stepUp max keyint
    else if key.scanCode = scanDown then stepDown max keyint
    else if key.unicodeChar = charCarriageReturn then 0 - 1
    else if key.scanCode = scanEsc then 254
    else current

/-- The end of a pass: `keyint` is kept for the next one. -/
def turn (max : UInt64) (keyint : UInt8) : UInt8 ⊕ UInt8 :=
  if 254 > keyint ∧ keyint.toUInt64 > max then .inl keyint else .inr keyint

/-- `HexBoard` of `libMSREdit.c`. -/
def hexBoard (current : UInt8) (max : UInt64) : C UInt8 :=
  Prog.iter (keyIn fun keyint key => turn max (press current max keyint key)) current

end Lib

/-! ## The program -/

/-- The loop of `KeyTimeout` with `left` rounds to go. -/
def pollKey : (left : Nat) → C UInt8
  | 0 => return 0
  | left + 1 => do
    let key ← keyLocal
    let key ← readKeyStroke key
    if key.unicodeChar = charCarriageReturn ∨ key.scanCode = scanEsc then return 1
    else do
      stall 10000
      pollKey left

/-- `KeyTimeout` with `Progress` 0, as it is called: it prints nothing. -/
def keyTimeout (timeout : UInt64) : C UInt8 := pollKey timeout.toNat

/-- The menu, the number of what it returned, and a poll for a key to close. -/
def efiMain : C Status := do
  tcOPrint head0
  tcOPrint crlf
  let selected ← menu hexBoard 1
  tcOPrint (charset selected.toNat)
  let _ ← keyTimeout 1000
  return .success

end ZeroProcHot.MsrEdit
