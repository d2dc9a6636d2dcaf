import ZeroProcHot.Efi.Firmware
import ZeroProcHot.Interact.Cells

/-!
# `test.c`, the string functions

`StrToHex` and `uCase` work on one `CHAR16` string in memory, which they index from its start. `StrLen`
belongs to a library that is not part of the repository: `strToHex` takes the one it calls as an
argument.
-/

namespace ZeroProcHot.Test

open Interact Efi

/-- A program over the units of the string. -/
abbrev C (α : Type) := Prog (cells UInt16) α

/-- A pointer argument: `NULL`, or the start of the string. -/
inductive Pointer where
  | null
  | string
  deriving DecidableEq, Repr

/-! ## `StrToHex` -/

/-- The variables of the loop of `StrToHex`. -/
structure Scan where
  retval : UInt64
  numDone : UInt64
  pos : UInt64
  deriving DecidableEq, Repr

/-- The body of each of the three branches, with the value of the digit. -/
def Scan.digit (s : Scan) (value : UInt64) : Scan :=
  { s with retval := s.retval * 0x10 + value, numDone := s.numDone + 1 }

/-- The body of the loop, after `a` has been read. -/
def Scan.step (s : Scan) (a : UInt16) : Scan :=
  let s := if a ≥ chr '0' ∧ a ≤ chr '9' then s.digit (a - chr '0').toUInt64 else s
  let s := if a ≥ chr 'a' ∧ a ≤ chr 'f' then s.digit (a - chr 'a' + 0x0a).toUInt64 else s
  let s := if a ≥ chr 'A' ∧ a ≤ chr 'F' then s.digit (a - chr 'A' + 0x0a).toUInt64 else s
  { s with pos := s.pos + 1 }

/-- One round of the loop. -/
def scanRound (inputLength numChars : UInt64) (s : Scan) : C (Scan ⊕ UInt64) :=
  if s.pos ≤ inputLength ∧ s.numDone < numChars then do
    let a ← load s.pos
    return .inl (s.step a)
  else return .inr s.retval

def strToHex (strLen : C UInt64) (input : Pointer) (pos numChars : UInt64) : C UInt64 :=
  if input = .null ∨ numChars = 0 ∨ numChars > 16 then return 0
  else do
    let inputLength ← strLen
    Prog.iter (scanRound inputLength numChars) ⟨0, 0, pos⟩

/-! ## `uCase` -/

/-- One round of the loop. The four mentions of `MyString[i]` are one load. -/
def caseRound (i : UInt64) : C (UInt64 ⊕ Unit) := do
  let unit ← load i
  if unit ≠ 0 then do
    if unit ≥ chr 'a' ∧ unit ≤ chr 'z' then store i (unit - chr 'A' + chr 'a')
    return .inl (i + 1)
  else return .inr ()

def uCase (myString : Pointer) : C Unit :=
  if myString ≠ .null then Prog.iter caseRound 0 else return ()

end ZeroProcHot.Test
