import ZeroProcHot.Efi.Console
import ZeroProcHot.Interact.Refine

/-!
# Machines at a keyboard

A program on the machine with a queue, beside a machine that takes the same items: what the reads and
the waits of the program are to it. A wait changes nothing for a machine that passes over empty polls.
-/

namespace ZeroProcHot.Efi

open Interact

variable {P O σ : Type}

/-- A console later in a session. -/
structure Later (w w' : Console) : Prop where
  keys : w'.keys <:+ w.keys

namespace Later

variable {w w' w'' : Console}

theorem refl : Later w w := ⟨List.suffix_rfl⟩

theorem trans (h : Later w w') (h' : Later w' w'') : Later w w'' := ⟨h'.keys.trans h.keys⟩

/-- A read takes an item away. -/
theorem taken : Later w w.taken := ⟨by rw [Console.keys_taken]; exact List.tail_suffix _⟩

/-- A declaration takes none. -/
theorem declared : Later w w.declared := ⟨List.suffix_rfl⟩

/-- No item comes back. -/
theorem length_le (h : Later w w') : w'.keys.length ≤ w.keys.length := h.keys.length_le

end Later

/-- The machine passes over empty polls. -/
structure Idles (M : Machine σ (Option InputKey) O) (s : σ) : Prop where
  on : M.stopped s = false
  idle : M.feed s none = ([], s)

variable {M : Machine σ (Option InputKey) O} {s : σ} {n : Nat}
  {obs : Event (firmware P) → Option O} {w : Console}

/-- **A wait beside a machine that passes over empty polls**: no key comes, or the wait leaves the next
key to be taken. -/
theorem wait_cases (silent : obs ⟨.waitForEvent, ()⟩ = none) (idles : Idles M s) (w : Console) :
    (play console n obs waitForEvent w = ⟨[], w, .blocked⟩ ∧ M.play s w.keys = ⟨[], s, .blocked⟩) ∨
    ∃ w' key, play console n obs waitForEvent w = ⟨[], w', .returned ()⟩ ∧
      M.play s w.keys = M.play s w'.keys ∧ w'.keys = some key :: w'.taken.keys ∧ Later w w' ∧
      w'.junk = w.junk ∧ w'.register = w.register := by
  have idle {items : List (Option InputKey)} (all : ∀ item ∈ items, item = none) :
      ∀ item ∈ items, M.feed s item = ([], s) := fun item mem => by
    rw [all item mem]
    exact idles.idle
  rcases w.waited_cases with ⟨never, all⟩ | ⟨w', quiet, key, waits, split, all, next, hj, hr⟩
  · refine .inl ⟨play_perform_blocked (by rw [console_waitForEvent, never]; rfl), ?_⟩
    rw [← List.append_nil w.keys, Machine.play_idles idles.on (idle all), Machine.play_nil idles.on]
  · have answered : play console n obs waitForEvent w =
        ⟨(obs ⟨.waitForEvent, ()⟩).toList, w', .returned ()⟩ :=
      play_perform (by rw [console_waitForEvent, waits]; rfl)
    rw [silent] at answered
    refine .inr ⟨w', key, answered, ?_, next, ⟨?_⟩, hj, hr⟩
    · rw [split, Machine.play_idles idles.on (idle all)]
    · rw [split]
      exact List.suffix_append _ _

/-- A read takes the next item. -/
theorem play_take (silent : ∀ r : ReadResult, obs ⟨.readKeyStroke, r⟩ = none) {key : InputKey}
    {item : Option InputKey} {items : List (Option InputKey)} (next : w.keys = item :: items) :
    play console n obs (readKeyStroke key) w = ⟨[], w.taken, .returned (item.getD key)⟩ := by
  have taken : play console n obs (invoke .readKeyStroke : Prog (firmware P) ReadResult) w =
      ⟨(obs ⟨.readKeyStroke, readAnswer item⟩).toList, w.taken, .returned (readAnswer item)⟩ :=
    play_perform (by rw [console_read, next]; rfl)
  rw [silent] at taken
  refine (play_seq taken).trans ?_
  cases item <;> rfl

/-- A read with nothing to come is not answered. -/
theorem play_take_blocked {key : InputKey} (none : w.keys = []) :
    play console n obs (readKeyStroke key) w = ⟨[], w, .blocked⟩ := by
  have stuck : play console n obs (invoke .readKeyStroke : Prog (firmware P) ReadResult) w =
      ⟨[], w, .blocked⟩ :=
    play_perform_blocked (by rw [console_read, none]; rfl)
  refine (play_bind _ _ w).trans ?_
  exact congrArg (fun r : Result O Console ReadResult => r.andThen _) stuck

end ZeroProcHot.Efi
