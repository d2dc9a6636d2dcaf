import ZeroProcHot.Interact.Total
import ZeroProcHot.Interact.Wp
import ZeroProcHot.Words.Flag

/-!
# The firmware a program calls

The calls the programs of this repository make: the text output and text input protocols, two boot
services, and the two instructions that read and write a model-specific register.

Two calls are no firmware calls. `keyLocal` is the declaration of an `EFI_INPUT_KEY` local without
an initialiser: its answer is whatever the local happens to hold. `reach` marks a point of the
source that a law speaks of; it does nothing.

`ReadKeyStroke` answers a status and, apart from it, what it stored through its argument: nothing
at all, or a key. The programs look at the variable and never at the status.
-/

namespace ZeroProcHot.Efi

open Interact

/-- `EFI_INPUT_KEY`. -/
structure InputKey where
  scanCode : UInt16
  unicodeChar : UInt16
  deriving DecidableEq, Repr

/-- The `EFI_STATUS` values `ReadKeyStroke` returns. -/
inductive Status where
  | success
  | notReady
  | deviceError
  deriving DecidableEq, Repr

/-- The result of `ReadKeyStroke`: its status, and the key it stored if it stored one. -/
structure ReadResult where
  status : Status
  stored : Option InputKey
  deriving DecidableEq, Repr

/-- The halves `rdmsr` leaves in `EAX` and `EDX`. -/
structure Halves where
  low : UInt32
  high : UInt32
  deriving DecidableEq, Repr

/-- The calls, with `P` the marked points of the program that makes them. -/
inductive Call (P : Type) where
  | outputString (s : String)
  | reset (extendedVerification : Bool)
  | setCursorPosition (column row : Nat)
  | readKeyStroke
  | waitForEvent
  | stall (microseconds : Nat)
  | rdmsr (addr : UInt32)
  | wrmsr (addr low high : UInt32)
  | keyLocal
  | reach (p : P)
  deriving DecidableEq

/-- The answers to a call. -/
def Answer {P : Type} : Call P → Type
  | .readKeyStroke => ReadResult
  | .rdmsr _ => Halves
  | .keyLocal => InputKey
  | _ => Unit

/-- The signature of the firmware. -/
abbrev firmware (P : Type) : Signature := ⟨Call P, Answer⟩

/-! ## Key codes -/

/-- `SCAN_UP`. -/
def scanUp : UInt16 := 0x01
/-- `SCAN_DOWN`. -/
def scanDown : UInt16 := 0x02
/-- `SCAN_RIGHT`. -/
def scanRight : UInt16 := 0x03
/-- `SCAN_LEFT`. -/
def scanLeft : UInt16 := 0x04
/-- `SCAN_ESC`. -/
def scanEsc : UInt16 := 0x17

/-- A character constant of the source. -/
def chr (c : Char) : UInt16 := .ofNat c.toNat

/-- `CHAR_CARRIAGE_RETURN`. -/
def charCarriageReturn : UInt16 := chr '\r'

/-! ## The calls as programs -/

variable {P W : Type}

/-- Make one call of the firmware. -/
def invoke (c : Call P) : Prog (firmware P) (Answer c) := @Prog.perform (firmware P) c

/-- `ConOut->OutputString`. -/
def outputString (s : String) : Prog (firmware P) Unit := invoke (.outputString s)

/-- `ConOut->Reset`, which clears the screen. -/
def reset (extendedVerification : Bool) : Prog (firmware P) Unit :=
  invoke (.reset extendedVerification)

/-- `ConOut->SetCursorPosition`. -/
def setCursorPosition (column row : Nat) : Prog (firmware P) Unit :=
  invoke (.setCursorPosition column row)

/-- `WaitForEvent` on `WaitForKey`. -/
def waitForEvent : Prog (firmware P) Unit := invoke .waitForEvent

/-- `Stall`. -/
def stall (microseconds : Nat) : Prog (firmware P) Unit := invoke (.stall microseconds)

/-- The instruction `rdmsr`. -/
def rdmsr (addr : UInt32) : Prog (firmware P) Halves := invoke (.rdmsr addr)

/-- The instruction `wrmsr`, with the halves that it takes from `EAX` and `EDX`. -/
def wrmsr (addr low high : UInt32) : Prog (firmware P) Unit := invoke (.wrmsr addr low high)

/-- The declaration of an `EFI_INPUT_KEY` local. -/
def keyLocal : Prog (firmware P) InputKey := invoke .keyLocal

/-- A point of the source that a law speaks of. -/
def reach (p : P) : Prog (firmware P) Unit := invoke (.reach p)

/-- `ReadKeyStroke(&key)`, with the content of `key` before it: what `key` holds after it. -/
def readKeyStroke (key : InputKey) : Prog (firmware P) InputKey := do
  let r : ReadResult ← invoke .readKeyStroke
  return r.stored.getD key

/-- A read is one call. -/
theorem straight_readKeyStroke (key : InputKey) :
    (readKeyStroke key : Prog (firmware P) InputKey).Straight :=
  Prog.straight_bind (Prog.straight_perform _) fun _ => Prog.straight_pure _

section Rules

variable {E R : Env (firmware P) W} {w : W}

@[simp] theorem wp_outputString (s : String) (Q : Unit → W → Prop) :
    wp E R (outputString s) Q w ↔
      ∀ w', E w ⟨.outputString s, ()⟩ w' → R w ⟨.outputString s, ()⟩ w' ∧ Q () w' :=
  ⟨fun h => h (), fun h _ => h⟩

@[simp] theorem wp_reset (x : Bool) (Q : Unit → W → Prop) :
    wp E R (reset x) Q w ↔ ∀ w', E w ⟨.reset x, ()⟩ w' → R w ⟨.reset x, ()⟩ w' ∧ Q () w' :=
  ⟨fun h => h (), fun h _ => h⟩

@[simp] theorem wp_setCursorPosition (x y : Nat) (Q : Unit → W → Prop) :
    wp E R (setCursorPosition x y) Q w ↔
      ∀ w', E w ⟨.setCursorPosition x y, ()⟩ w' → R w ⟨.setCursorPosition x y, ()⟩ w' ∧ Q () w' :=
  ⟨fun h => h (), fun h _ => h⟩

@[simp] theorem wp_waitForEvent (Q : Unit → W → Prop) :
    wp E R waitForEvent Q w ↔
      ∀ w', E w ⟨.waitForEvent, ()⟩ w' → R w ⟨.waitForEvent, ()⟩ w' ∧ Q () w' :=
  ⟨fun h => h (), fun h _ => h⟩

@[simp] theorem wp_stall (n : Nat) (Q : Unit → W → Prop) :
    wp E R (stall n) Q w ↔ ∀ w', E w ⟨.stall n, ()⟩ w' → R w ⟨.stall n, ()⟩ w' ∧ Q () w' :=
  ⟨fun h => h (), fun h _ => h⟩

/-- A law of `rdmsr` is a law of every value that the environment answers. -/
@[simp] theorem wp_rdmsr (a : UInt32) (Q : Halves → W → Prop) :
    wp E R (rdmsr a) Q w ↔
      ∀ (r : Halves) w', E w ⟨.rdmsr a, r⟩ w' → R w ⟨.rdmsr a, r⟩ w' ∧ Q r w' :=
  Iff.rfl

@[simp] theorem wp_wrmsr (a lo hi : UInt32) (Q : Unit → W → Prop) :
    wp E R (wrmsr a lo hi) Q w ↔
      ∀ w', E w ⟨.wrmsr a lo hi, ()⟩ w' → R w ⟨.wrmsr a lo hi, ()⟩ w' ∧ Q () w' :=
  ⟨fun h => h (), fun h _ => h⟩

/-- A local holds any key that the environment answers. -/
@[simp] theorem wp_keyLocal (Q : InputKey → W → Prop) :
    wp E R keyLocal Q w ↔
      ∀ (k : InputKey) w', E w ⟨.keyLocal, k⟩ w' → R w ⟨.keyLocal, k⟩ w' ∧ Q k w' :=
  Iff.rfl

@[simp] theorem wp_reach (p : P) (Q : Unit → W → Prop) :
    wp E R (reach p) Q w ↔ ∀ w', E w ⟨.reach p, ()⟩ w' → R w ⟨.reach p, ()⟩ w' ∧ Q () w' :=
  ⟨fun h => h (), fun h _ => h⟩

/-- After a read the variable holds what was stored, or else what it held. -/
@[simp] theorem wp_readKeyStroke (key : InputKey) (Q : InputKey → W → Prop) :
    wp E R (readKeyStroke key) Q w ↔
      ∀ (r : ReadResult) w', E w ⟨.readKeyStroke, r⟩ w' →
        R w ⟨.readKeyStroke, r⟩ w' ∧ Q (r.stored.getD key) w' :=
  Iff.rfl

end Rules

section ProtocolRules

variable {V : Type} {T : Protocol (firmware P) V} {v : V}

@[simp] theorem conforms_outputString (s : String) (Q : Unit → V → Prop) :
    Conforms T (outputString s) Q v ↔
      T.allows v ⟨.outputString s, ()⟩ ∧ Q () (T.next v ⟨.outputString s, ()⟩) := by
  simp only [Conforms, wp_outputString, forall_eq]

@[simp] theorem conforms_reset (x : Bool) (Q : Unit → V → Prop) :
    Conforms T (reset x) Q v ↔ T.allows v ⟨.reset x, ()⟩ ∧ Q () (T.next v ⟨.reset x, ()⟩) := by
  simp only [Conforms, wp_reset, forall_eq]

@[simp] theorem conforms_waitForEvent (Q : Unit → V → Prop) :
    Conforms T waitForEvent Q v ↔
      T.allows v ⟨.waitForEvent, ()⟩ ∧ Q () (T.next v ⟨.waitForEvent, ()⟩) := by
  simp only [Conforms, wp_waitForEvent, forall_eq]

@[simp] theorem conforms_stall (n : Nat) (Q : Unit → V → Prop) :
    Conforms T (stall n) Q v ↔ T.allows v ⟨.stall n, ()⟩ ∧ Q () (T.next v ⟨.stall n, ()⟩) := by
  simp only [Conforms, wp_stall, forall_eq]

/-- A program keeps to a protocol with every answer of `rdmsr`. -/
@[simp] theorem conforms_rdmsr (a : UInt32) (Q : Halves → V → Prop) :
    Conforms T (rdmsr a) Q v ↔
      ∀ r : Halves, T.allows v ⟨.rdmsr a, r⟩ ∧ Q r (T.next v ⟨.rdmsr a, r⟩) := by
  simp only [Conforms, wp_rdmsr, forall_eq]

@[simp] theorem conforms_wrmsr (a lo hi : UInt32) (Q : Unit → V → Prop) :
    Conforms T (wrmsr a lo hi) Q v ↔
      T.allows v ⟨.wrmsr a lo hi, ()⟩ ∧ Q () (T.next v ⟨.wrmsr a lo hi, ()⟩) := by
  simp only [Conforms, wp_wrmsr, forall_eq]

/-- A program keeps to a protocol whatever a local holds. -/
@[simp] theorem conforms_keyLocal (Q : InputKey → V → Prop) :
    Conforms T keyLocal Q v ↔
      ∀ k : InputKey, T.allows v ⟨.keyLocal, k⟩ ∧ Q k (T.next v ⟨.keyLocal, k⟩) := by
  simp only [Conforms, wp_keyLocal, forall_eq]

@[simp] theorem conforms_reach (p : P) (Q : Unit → V → Prop) :
    Conforms T (reach p) Q v ↔ T.allows v ⟨.reach p, ()⟩ ∧ Q () (T.next v ⟨.reach p, ()⟩) := by
  simp only [Conforms, wp_reach, forall_eq]

/-- A program keeps to a protocol whatever is read, a key or nothing. -/
@[simp] theorem conforms_readKeyStroke (key : InputKey) (Q : InputKey → V → Prop) :
    Conforms T (readKeyStroke key) Q v ↔
      ∀ r : ReadResult, T.allows v ⟨.readKeyStroke, r⟩ ∧
        Q (r.stored.getD key) (T.next v ⟨.readKeyStroke, r⟩) := by
  simp only [Conforms, wp_readKeyStroke, forall_eq]

end ProtocolRules

/-! ## The register -/

/-- `0x1FC`, the register with the flag `BD_PROCHOT` in bit 0. -/
def powerCtl : UInt32 := 0x1FC

/-- The value two halves stand for. -/
def Halves.value (h : Halves) : UInt64 := (h.high.toUInt64 <<< 32) ||| h.low.toUInt64

/-- The halves of a value. -/
def halves (v : UInt64) : Halves := ⟨v.toUInt32, (v >>> 32).toUInt32⟩

/-- The halves of a value stand for it. -/
@[simp] theorem value_halves (v : UInt64) : (halves v).value = v := by
  apply UInt64.toBitVec_inj.mp
  exact @Words.join_high_low 32 32 v.toBitVec

/-- Bit `i` of a value. -/
def bit (i : Nat) (v : UInt64) : Bool := v.toBitVec.getLsbD i

/-- Values with the same bits are equal. -/
theorem bit_ext {v v' : UInt64} (h : ∀ i < 64, bit i v = bit i v') : v = v' :=
  UInt64.toBitVec_inj.mp (BitVec.eq_of_getLsbD_eq fun i hi => h i hi)

/-- The mask of a bit in C. -/
theorem toBitVec_oneShift {i : Nat} (hi : i < 64) :
    ((1 : UInt64) <<< UInt64.ofNat i).toBitVec = BitVec.twoPow 64 i := by
  rw [UInt64.toBitVec_shiftLeft, BitVec.twoPow_eq]
  have small : (UInt64.ofNat i).toBitVec.toNat = i := by
    simp only [UInt64.toBitVec_ofNat', BitVec.toNat_ofNat]
    omega
  have amount : ((UInt64.ofNat i).toBitVec % 64).toNat = i := by
    rw [BitVec.toNat_umod, small]
    exact Nat.mod_eq_of_lt hi
  rw [BitVec.shiftLeft_eq', amount]
  rfl

/-- The test of a bit in C. -/
theorem mask_ne_zero (v : UInt64) {i : Nat} (hi : i < 64) :
    v &&& (1 <<< UInt64.ofNat i) ≠ 0 ↔ bit i v = true := by
  have masked : (v &&& (1 <<< UInt64.ofNat i)).toBitVec =
      if bit i v then BitVec.twoPow 64 i else 0#64 := by
    rw [UInt64.toBitVec_and, toBitVec_oneShift hi]
    exact BitVec.and_twoPow _ _
  rw [ne_eq, ← UInt64.toBitVec_inj, masked]
  cases bit i v with
  | false => simp
  | true =>
    have set : (BitVec.twoPow 64 i).getLsbD i = true := by simp [hi]
    have nonzero : BitVec.twoPow 64 i ≠ 0#64 := by
      intro zero
      rw [zero] at set
      simp at set
    simpa using nonzero

/-- The test of bit 0 in C. -/
theorem odd_iff (v : UInt64) : v &&& 1 ≠ 0 ↔ bit 0 v = true :=
  @mask_ne_zero v 0 (by omega)

/-- Bits 1 to 63 of two values are equal. -/
def SameAbove (v v' : UInt64) : Prop := ∀ i < 64, i ≠ 0 → bit i v = bit i v'

instance (v v' : UInt64) : Decidable (SameAbove v v') :=
  inferInstanceAs (Decidable (∀ i < 64, _))

end ZeroProcHot.Efi
