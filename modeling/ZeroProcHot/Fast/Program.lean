import ZeroProcHot.Efi.Firmware

/-!
# `ZeroProcHot_fast.c`, the program that asks nothing

The halves of the register live in the globals `low` and `high`, which every access reads or fills;
the programs pass them on explicitly. Nothing assigns `zerobitzero`.
-/

namespace ZeroProcHot.Fast

open Interact Efi

/-- The globals that change. -/
structure Globals where
  low : UInt32
  high : UInt32
  deriving DecidableEq, Repr

/-- A program over the firmware; no point of it is marked. -/
abbrev C (α : Type) := Prog (firmware Empty) α

/-- The low half with bit 0 cleared. -/
def zerobitzero : UInt32 := 4294967294

/-- The line that the program prints before it reads. -/
def printHead : C Unit :=
  outputString
    "\r\n# Zero BDProcHot:Fast #  github.com/hoefkensj #  (c)2023 HoefkensJ #\r\n\r\n"

/-- It returns the low half only. -/
def asmReadMsr64 (_ : Globals) : C (UInt64 × Globals) := do
  let r ← rdmsr powerCtl
  let g : Globals := ⟨r.low, r.high⟩
  return (g.low.toUInt64, g)

/-- It writes the halves of the globals with bit 0 of the low one cleared, then reads them again. -/
def asmWriteMsr64 (g : Globals) : C (UInt64 × Globals) := do
  wrmsr powerCtl (g.low &&& zerobitzero) g.high
  asmReadMsr64 g

/-- It writes when bit 0 is set, and prints nothing of what it found. -/
def efiMain (g : Globals) : C (Status × Globals) := do
  printHead
  let (val, g) ← asmReadMsr64 g
  if val &&& 1 ≠ 0 then do
    let (_, g) ← asmWriteMsr64 g
    return (.success, g)
  else return (.success, g)

end ZeroProcHot.Fast
