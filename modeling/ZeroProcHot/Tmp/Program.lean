import ZeroProcHot.Efi.Firmware

/-!
# `ZeroProcHot_tmp.c`, the interactive program

Each function of the source under its own name. The pointers the source keeps in globals
(`strOut`, `scrClear`, `keyRead`, `bsSlp`, `sT->ConIn->ReadKeyStroke`) all name the firmware's
services, so a call through one is a call of the service. `index`, which `WaitForEvent` fills and
nothing reads, is left out.
-/

namespace ZeroProcHot.Tmp

open Interact Efi

/-- The marked points: the label `mnu` of `menuloop` with its `choice`, and a call of `choose`. -/
inductive Point where
  | mnu (choice : UInt8)
  | choose (choice : UInt8)
  deriving DecidableEq, Repr

/-- A program over the firmware with these points. -/
abbrev C (α : Type) := Prog (firmware Point) α

/-! ## Constants -/

/-- The title, the first line of the menu screen. -/
def head0 : String :=
  "(c)2023 HoefkensJ            Zero BDProcHot 0v402        github.com/hoefkensj"
/-- The rule under the title, on a line of its own. -/
def head1 : String :=
  "\r\n-------------------------------------------------------------------------------\r\n"
/-- The rule of the table between the operand and the result. -/
def tblHL : String := "     = ------------------------------------------------------------------"
/-- The question before a write. -/
def msgConfirm : String := "\r\n\r\n\r\nWrite Result to System? (Y/n) "
/-- The message of the start-up poll. -/
def msgInteractive : String := "ZeroProcHot : Press Esc for interactive mode "
/-- The message after a no. -/
def msgAbort : String := "\r\nAborted by user!"
/-- The message after the write of option 3. -/
def msgEnabled : String := "\r\nBD_PROCHOT is now Enabled!  "
/-- The message after the write of option 2. -/
def msgDisabled : String := "\r\nBD_PROCHOT is now Disabled!  "
/-- The operand of the AND: every bit but bit 0. -/
def clearZero : UInt64 := 0xFFFFFFFFFFFFFFFE
/-- The operand of the OR: bit 0. -/
def setZero : UInt64 := 1
/-- The microseconds between two polls. -/
def defStall : Nat := 100000

/-! ## The register -/

/-- The two halves of the register, put together. -/
def asmReadMsr64 (addr : UInt32) : C UInt64 := do
  let r ← rdmsr addr
  return (r.high.toUInt64 <<< 32) ||| r.low.toUInt64

/-- It writes the halves of its argument and returns the argument. -/
def asmWriteMsr64 (addr : UInt32) (val : UInt64) : C UInt64 := do
  let low := val.toUInt32
  let high := (val >>> 32).toUInt32
  wrmsr addr low high
  return val

/-! ## Output -/

/-- The pointer `strOut` names `OutputString` of the firmware. -/
def strOut (s : String) : C Unit := outputString s

/-- The pointer `scrClear` names `Reset`, which is called without the extended verification. -/
def scrClear : C Unit := reset false

/-- A line with a head and the 64 digits of a value, bit 63 first. -/
def strRow (head : String) (data : UInt64) : C Unit := do
  strOut "\r\n"
  strOut head
  forM (List.range 64).reverse fun i =>
    strOut (if data &&& (1 <<< UInt64.ofNat i) ≠ 0 then "1" else "0")

/-- The operand and the result of a change as two rows with the rule between them. -/
def table (term : UInt64) (op : String) (result : UInt64) : C Unit := do
  strRow op term
  strOut "\r\n"
  strOut tblHL
  strRow "RESULT: " result

/-- The array `menu` of the function of that name. -/
def menuLabel (i : Nat) : String :=
  ["1. Read 0x1FC", "2. Clear BD_PROCHOT", "3. Set BD_PROCHOT", "0. Exit"].getD i ""

/-- The four items under each other. The mark stands before the one of the choice, and choice 0 is
the last. -/
def menu (choice : UInt8) : C Unit := do
  let idx := (choice.toNat + 3) % 4
  strOut "\r\n\r\nMenu : "
  strOut "\r\n----------------------\r\n"
  forM (List.range 4) fun i => do
    if i = idx then strOut "> " else strOut "  "
    strOut (menuLabel i)
    strOut "\r\n"

/-- It shows the register in the row `0x1FC:` and returns it. -/
def read0x1fc : C UInt64 := do
  let val ← asmReadMsr64 powerCtl
  strRow "\r\n 0x1FC: " val
  return val

/-! ## Prompts -/

/-- The keys that end `toMsg`. -/
def dismisses (key : InputKey) : Prop :=
  key.unicodeChar = charCarriageReturn ∨ key.scanCode = scanEsc ∨ key.unicodeChar = chr '`'

instance (key : InputKey) : Decidable (dismisses key) :=
  inferInstanceAs (Decidable (_ ∨ _ ∨ _))

/-- The loop of `toMsg` at round `i`, with `left` rounds to go. -/
def pollKey (prog : String) : (left i : Nat) → InputKey → C UInt8
  | 0, _, _ => return 0
  | left + 1, i, key => do
    if i % 5 = 0 then strOut prog
    let key ← readKeyStroke key
    if dismisses key then return 1
    else do
      stall defStall
      pollKey prog left (i + 1) key

/-- The counter is an `int`: the model is the source's loop for `timeout < 2 ^ 31`. -/
def toMsg (msg : String) (timeout : UInt64) (prog : String) : C UInt8 := do
  let key ← keyLocal
  strOut msg
  pollKey prog timeout.toNat 0 key

/-- The keys that `ConfirmAndWrite` takes as a no. -/
def aborts (key : InputKey) : Prop :=
  key.scanCode = scanEsc ∨ key.unicodeChar = chr 'n' ∨ key.unicodeChar = chr 'N'

instance (key : InputKey) : Decidable (aborts key) :=
  inferInstanceAs (Decidable (_ ∨ _ ∨ _))

/-- The question, one wait, one read whose status is not looked at, and the write unless the key is
a no. -/
def confirmAndWrite (val : UInt64) (msg : String) : C Unit := do
  strOut msgConfirm
  waitForEvent
  let key ← keyLocal
  let key ← readKeyStroke key
  scrClear
  if aborts key then do
    let _ ← toMsg msgAbort 20 ""
  else do
    let _ ← asmWriteMsr64 powerCtl val
    let _ ← toMsg msg 20 ""

/-- Option 3. -/
def setProcHot : C Unit := do
  let val ← read0x1fc
  let setbitzero := setZero
  let nval := val ||| setbitzero
  table setbitzero "    OR: " nval
  confirmAndWrite nval msgEnabled

/-- Option 2. -/
def clearProcHot : C Unit := do
  let val ← read0x1fc
  let clearbitzero := clearZero
  let nval := val &&& clearbitzero
  table clearbitzero "   AND: " nval
  confirmAndWrite nval msgDisabled

/-! ## The menu -/

/-- The items of the menu. Item 1 waits for a key and leaves it to the next read; item 0 does
nothing. -/
def choose (choice : UInt8) : C Unit := do
  reach (.choose choice)
  if choice = 1 then do
    let _ ← read0x1fc
    waitForEvent
  else if choice = 2 then clearProcHot
  else if choice = 3 then setProcHot
  else return ()

/-- What the branches of `menuloop` make of a key: another round with a choice, or the choice that
`menuloop` returns. -/
def press (choice : UInt8) (key : InputKey) : UInt8 ⊕ UInt8 :=
  let keychar := key.unicodeChar
  if chr '0' ≤ keychar ∧ keychar ≤ chr '3' then .inr (keychar - chr '0').toUInt8
  else if key.scanCode = scanUp then .inl (.ofNat ((choice.toNat + 3) % 4))
  else if key.scanCode = scanDown then .inl (.ofNat ((choice.toNat + 1) % 4))
  else if keychar = charCarriageReturn then .inr choice
  else .inl choice

/-- The item of a digit. -/
theorem digit_toNat {digit : UInt16} (low : chr '0' ≤ digit) (high : digit ≤ chr '3') :
    (digit - chr '0').toUInt8.toNat = digit.toNat - 48 := by
  have low' : 48 ≤ digit.toNat := UInt16.le_iff_toNat_le.mp low
  have high' : digit.toNat ≤ 51 := UInt16.le_iff_toNat_le.mp high
  have offset : (digit - chr '0').toNat = digit.toNat - 48 := UInt16.toNat_sub_of_le _ _ low
  rw [UInt16.toNat_toUInt8, offset]
  omega

/-- One round of `menuloop`, from the label `mnu`. The key variable outlives the round. -/
def menuRound : UInt8 × InputKey → C ((UInt8 × InputKey) ⊕ UInt8)
  | (choice, key) => do
    reach (.mnu choice)
    scrClear
    strOut head0
    strOut head1
    strOut "\r\n"
    strOut "BD_PROCHOT: "
    let val ← asmReadMsr64 powerCtl
    strOut (if val &&& 1 ≠ 0 then "1" else "0")
    menu choice
    waitForEvent
    let key ← readKeyStroke key
    match press choice key with
    | .inl choice => return .inl (choice, key)
    | .inr choice => return .inr choice

/-- The menu until a key selects an item. It starts at item 1 each time. -/
def menuloop : C UInt8 := do
  let key ← keyLocal
  Prog.iter menuRound (1, key)

/-- One round of the loop in `efi_main`. -/
def mainRound (choice : UInt8) : C (UInt8 ⊕ Unit) :=
  if choice ≠ 0 then do
    let choice ← menuloop
    choose choice
    return .inl choice
  else return .inr ()

/-- The menu and its items until item 0 is selected. -/
def mainLoop (choice : UInt8) : C Unit := Prog.iter mainRound choice

/-- A key that ends the start-up poll leads to the menu; without one the program returns. -/
def efiMain : C Status := do
  let choice := 1
  scrClear
  let keypressed ← toMsg msgInteractive 10 "."
  if keypressed ≠ 0 then mainLoop choice
  return .success

end ZeroProcHot.Tmp
