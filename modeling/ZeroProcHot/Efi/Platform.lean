import ZeroProcHot.Efi.Firmware
import ZeroProcHot.Interact.Exec

/-!
# Platforms

What the programs run on. `platform during` keeps register 0x1FC as it was last written, but for
what the firmware does to it while it is inside one of its own calls (`during`); the keys, and the
answers to every other call, are free. `script` is a machine on which a run can be computed: the
results of the reads are given beforehand.
-/

namespace ZeroProcHot.Efi

open Interact

variable {P : Type}

/-- A platform with a register, which the firmware may change as `during` says whenever the program
is inside a firmware call, and which only `wrmsr` changes otherwise. -/
def platform (during : UInt64 → UInt64 → Prop) : Env (firmware P) UInt64 := fun v e v' =>
  match e with
  | ⟨.rdmsr addr, (r : Halves)⟩ => (addr = powerCtl → r = halves v) ∧ v' = v
  | ⟨.wrmsr addr low high, _⟩ => v' = if addr = powerCtl then Halves.value ⟨low, high⟩ else v
  | ⟨.keyLocal, _⟩ => v' = v
  | ⟨.reach _, _⟩ => v' = v
  | _ => during v v'

/-- The platform on which only the program changes the register. -/
def keeping : Env (firmware P) UInt64 := platform fun v v' => v' = v

/-- Every event but a `wrmsr` keeps the register. -/
theorem keeping_same {v v' : UInt64} {e : Event (firmware P)} (step : keeping v e v')
    (quiet : ∀ addr low high, e.call ≠ .wrmsr addr low high) : v' = v := by
  obtain ⟨c, r⟩ := e
  cases c with
  | rdmsr addr => exact step.2
  | wrmsr addr low high => exact absurd rfl (quiet addr low high)
  | _ => exact step

/-- This platform answers every call. -/
theorem answers_keeping : Answers (keeping : Env (firmware P) UInt64) := by
  intro v c
  cases c with
  | readKeyStroke => exact ⟨(⟨.notReady, none⟩ : ReadResult), v, rfl⟩
  | rdmsr addr => exact ⟨halves v, v, fun _ => rfl, rfl⟩
  | wrmsr addr low high => exact ⟨(), _, rfl⟩
  | keyLocal => exact ⟨(⟨0, 0⟩ : InputKey), v, rfl⟩
  | _ => exact ⟨(), v, rfl⟩

/-- The calls that access a register. -/
def accesses : Call P → Option UInt32
  | .rdmsr addr => some addr
  | .wrmsr addr _ _ => some addr
  | _ => none

/-! ## A machine with a script -/

/-- The results of the reads to come, what an uninitialised local holds, and the register. -/
structure Script where
  reads : List ReadResult
  junk : InputKey
  register : UInt64

/-- The machine that plays a script, with `during` what the firmware makes of the register in each of
its calls. Only register 0x1FC exists. -/
def script (during : Call P → UInt64 → UInt64) : Handler (firmware P) Script := fun w c =>
  let inside : Script := { w with register := during c w.register }
  match c with
  | .rdmsr addr => if addr = powerCtl then some (halves w.register, w) else none
  | .wrmsr addr low high =>
    if addr = powerCtl then some ((), { w with register := Halves.value ⟨low, high⟩ }) else none
  | .keyLocal => some (w.junk, w)
  | .reach _ => some ((), w)
  | .readKeyStroke =>
    match w.reads with
    | [] => none
    | r :: reads => some (r, { inside with reads := reads })
  | .outputString _ => some ((), inside)
  | .reset _ => some ((), inside)
  | .setCursorPosition _ _ => some ((), inside)
  | .waitForEvent => some ((), inside)
  | .stall _ => some ((), inside)

/-- The script machine is a platform. -/
theorem script_platform {during : Call P → UInt64 → UInt64} {may : UInt64 → UInt64 → Prop}
    (h : ∀ c v, may v (during c v)) (w : Script) (e : Event (firmware P)) (w' : Script)
    (step : (script during).env w e w') : platform may w.register e w'.register := by
  obtain ⟨c, r⟩ := e
  unfold Handler.env script at step
  cases c with
  | rdmsr addr =>
    dsimp only at step
    split at step
    · cases step
      exact ⟨fun _ => rfl, rfl⟩
    · cases step
  | wrmsr addr low high =>
    dsimp only at step
    split at step
    · next known =>
      cases step
      exact (if_pos known).symm
    · cases step
  | readKeyStroke =>
    dsimp only at step
    split at step
    · cases step
    · cases step
      exact h _ _
  | keyLocal | reach _ =>
    cases step
    rfl
  | _ =>
    cases step
    exact h _ _

/-- **What the script machine computes is a run on a platform.** -/
theorem script_run {α : Type} {during : Call P → UInt64 → UInt64} {may : UInt64 → UInt64 → Prop}
    (h : ∀ c v, may v (during c v)) (n : Nat) (p : Prog (firmware P) α) (w : Script) :
    Run (platform may) w.register p
      ((exec (script during) n p w).steps.map (Step.map Script.register))
      (exec (script during) n p w).world.register
      (exec (script during) n p w).outcome.value? :=
  (exec_run (script during) n p w).project Script.register (script_platform h)

/-- A read that stores the key of a character. -/
def typed (c : Char) : ReadResult := ⟨.success, some ⟨0, chr c⟩⟩

/-- A read that stores a key without a character. -/
def scanned (code : UInt16) : ReadResult := ⟨.success, some ⟨code, 0⟩⟩

/-- A read with nothing pending. -/
def nothing : ReadResult := ⟨.notReady, none⟩

end ZeroProcHot.Efi
