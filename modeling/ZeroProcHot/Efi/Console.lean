import Mathlib.Data.Stream.Init
import ZeroProcHot.Efi.Platform
import ZeroProcHot.Interact.Progress

/-!
# A machine with a queue of keys

`WaitForEvent` returns as soon as a key is pending and leaves it in the queue; only `ReadKeyStroke`
takes it out, and `Reset` of the output does not touch it. The keys to come are a list; a program
that waits or polls at the end of the list is not answered. What the uninitialised locals hold is a
stream: each declaration of one takes the next content.
-/

namespace ZeroProcHot.Efi

open Interact

variable {P : Type}

/-- The queue, the keys to come (each entry a key, or a poll that comes before the next key), what the
uninitialised locals to come hold, and the register. -/
structure Console where
  pending : List InputKey
  later : List (Option InputKey)
  junk : Stream' InputKey
  register : UInt64

/-- The next key to come, however long it takes. -/
def arrive : List (Option InputKey) → Option (InputKey × List (Option InputKey))
  | [] => none
  | none :: later => arrive later
  | some key :: later => some (key, later)

/-- The machine after the declaration of an uninitialised local. -/
def Console.declared (w : Console) : Console := { w with junk := w.junk.tail }

/-- The machine. -/
def console : Handler (firmware P) Console := fun w c =>
  match c with
  | .waitForEvent =>
    match w.pending with
    | _ :: _ => some ((), w)
    | [] =>
      match arrive w.later with
      | some (key, later) => some ((), { w with pending := [key], later })
      | none => none
  | .readKeyStroke =>
    match w.pending, w.later with
    | key :: pending, _ => some (⟨.success, some key⟩, { w with pending })
    | [], some key :: later => some (⟨.success, some key⟩, { w with later })
    | [], none :: later => some (⟨.notReady, none⟩, { w with later })
    | [], [] => none
  | .rdmsr addr => if addr = powerCtl then some (halves w.register, w) else none
  | .wrmsr addr low high =>
    if addr = powerCtl then some ((), { w with register := Halves.value ⟨low, high⟩ }) else none
  | .keyLocal => some (w.junk.head, w.declared)
  | .outputString _ => some ((), w)
  | .reset _ => some ((), w)
  | .setCursorPosition _ _ => some ((), w)
  | .stall _ => some ((), w)
  | .reach _ => some ((), w)

/-- The queue after a wait, when a key is pending or comes. -/
def Console.waited (w : Console) : Option Console :=
  match w.pending with
  | _ :: _ => some w
  | [] => (arrive w.later).map fun x => { w with pending := [x.1], later := x.2 }

/-- After a wait a key is pending. -/
theorem Console.waited_pending {w w' : Console} (h : w.waited = some w') :
    ∃ key pending, w'.pending = key :: pending := by
  unfold waited at h
  split at h
  · next key pending hp =>
    cases h
    exact ⟨key, pending, hp⟩
  · obtain ⟨x, _, rfl⟩ := Option.map_eq_some_iff.mp h
    exact ⟨x.1, [], rfl⟩

/-- A wait is answered when a key is pending or comes. -/
theorem console_waitForEvent (w : Console) :
    @console P w .waitForEvent = w.waited.map fun w' => ((), w') := by
  unfold console Console.waited
  cases w.pending with
  | cons key pending => rfl
  | nil =>
    dsimp only
    cases arrive w.later with
    | none => rfl
    | some x => rfl

/-- A read takes the first key of the queue. -/
theorem console_readKeyStroke {w : Console} {key : InputKey} {pending : List InputKey}
    (h : w.pending = key :: pending) :
    @console P w .readKeyStroke = some (⟨.success, some key⟩, { w with pending }) := by
  unfold console
  rw [h]

/-! ## More keys to come -/

/-- More keys to come do not change which is the next. -/
theorem arrive_append {later later' : List (Option InputKey)} {key : InputKey}
    (more : List (Option InputKey)) (h : arrive later = some (key, later')) :
    arrive (later ++ more) = some (key, later' ++ more) := by
  induction later with
  | nil => cases h
  | cons x later ih =>
    cases x with
    | none => exact ih h
    | some k =>
      cases h
      rfl

/-- The same machine, with more keys to come after the others. -/
def Console.extend (more : List (Option InputKey)) (w : Console) : Console :=
  { w with later := w.later ++ more }

/-- What is answered is answered in the same way when more keys come later. -/
theorem console_extend (more : List (Option InputKey)) {w w' : Console} {c : (firmware P).Call}
    {r : (firmware P).Answer c} (h : console w c = some (r, w')) :
    console (w.extend more) c = some (r, w'.extend more) := by
  obtain ⟨pending, later, junk, register⟩ := w
  cases c with
  | waitForEvent =>
    cases pending with
    | cons key pending =>
      cases h
      rfl
    | nil =>
      simp only [console] at h
      cases ha : arrive later with
      | none =>
        rw [ha] at h
        cases h
      | some x =>
        rw [ha] at h
        cases h
        simp only [console, Console.extend, arrive_append more ha]
  | readKeyStroke =>
    cases pending with
    | cons key pending =>
      cases h
      rfl
    | nil =>
      cases later with
      | nil => cases h
      | cons x later =>
        cases x <;>
        · cases h
          rfl
  | rdmsr addr =>
    simp only [console] at h
    split at h
    · next is =>
      cases h
      exact if_pos is
    · cases h
  | wrmsr addr low high =>
    simp only [console] at h
    split at h
    · next is =>
      cases h
      exact if_pos is
    · cases h
  | _ =>
    cases h
    rfl

/-! ## The items to come -/

/-- What is still to be read: the keys in the queue, then the keys and the empty polls to come. -/
def Console.keys (w : Console) : List (Option InputKey) := w.pending.map some ++ w.later

/-- The machine after a read. -/
def Console.taken (w : Console) : Console :=
  match w.pending, w.later with
  | _ :: pending, _ => { w with pending }
  | [], _ :: later => { w with later }
  | [], [] => w

/-- A read takes the first item. -/
@[simp] theorem Console.keys_taken (w : Console) : w.taken.keys = w.keys.tail := by
  obtain ⟨pending, later, junk, register⟩ := w
  cases pending with
  | cons key pending => rfl
  | nil => cases later <;> rfl

@[simp] theorem Console.junk_taken (w : Console) : w.taken.junk = w.junk := by
  unfold taken
  split <;> rfl

@[simp] theorem Console.register_taken (w : Console) : w.taken.register = w.register := by
  unfold taken
  split <;> rfl

@[simp] theorem Console.keys_declared (w : Console) : w.declared.keys = w.keys := rfl

/-- A declaration and a read do not disturb each other. -/
theorem Console.taken_declared (w : Console) : w.declared.taken = w.taken.declared := by
  obtain ⟨pending, later, junk, register⟩ := w
  cases pending with
  | cons key pending => rfl
  | nil => cases later <;> rfl

/-- What a read of an item answers. -/
def readAnswer : Option InputKey → ReadResult
  | some key => ⟨.success, some key⟩
  | none => ⟨.notReady, none⟩

/-- A read takes the first item, whether it is in the queue or not. -/
theorem console_read (w : Console) :
    @console P w .readKeyStroke = w.keys.head?.map fun item => (readAnswer item, w.taken) := by
  obtain ⟨pending, later, junk, register⟩ := w
  cases pending with
  | cons key pending => rfl
  | nil =>
    cases later with
    | nil => rfl
    | cons item later => cases item <;> rfl

/-- The first key to come, after some empty polls. -/
theorem arrive_cases (later : List (Option InputKey)) :
    (arrive later = none ∧ ∀ item ∈ later, item = none) ∨
    ∃ quiet key rest, arrive later = some (key, rest) ∧ later = quiet ++ some key :: rest ∧
      ∀ item ∈ quiet, item = none := by
  induction later with
  | nil => exact .inl ⟨rfl, fun _ h => absurd h List.not_mem_nil⟩
  | cons item later ih =>
    cases item with
    | some key => exact .inr ⟨[], key, later, rfl, rfl, fun _ h => absurd h List.not_mem_nil⟩
    | none =>
      rcases ih with ⟨never, all⟩ | ⟨quiet, key, rest, comes, split, all⟩
      · exact .inl ⟨never, List.forall_mem_cons.mpr ⟨rfl, all⟩⟩
      · exact .inr ⟨none :: quiet, key, rest, comes, by rw [split]; rfl,
          List.forall_mem_cons.mpr ⟨rfl, all⟩⟩

/-- **A wait** passes over the empty polls before the next key, and leaves the key to be read. With
no key to come it is not answered. -/
theorem Console.waited_cases (w : Console) :
    (w.waited = none ∧ ∀ item ∈ w.keys, item = none) ∨
    ∃ w' quiet key, w.waited = some w' ∧ w.keys = quiet ++ w'.keys ∧
      (∀ item ∈ quiet, item = none) ∧ w'.keys = some key :: w'.taken.keys ∧
      w'.junk = w.junk ∧ w'.register = w.register := by
  obtain ⟨pending, later, junk, register⟩ := w
  cases pending with
  | cons key pending =>
    exact .inr ⟨_, [], key, rfl, rfl, fun _ h => absurd h List.not_mem_nil, rfl, rfl, rfl⟩
  | nil =>
    rcases arrive_cases later with ⟨never, all⟩ | ⟨quiet, key, rest, comes, split, all⟩
    · exact .inl ⟨by simp only [waited, never, Option.map_none], all⟩
    · refine .inr ⟨⟨[key], rest, junk, register⟩, quiet, key, ?_, split, all, rfl, rfl, rfl⟩
      simp only [waited, comes, Option.map_some]

/-- More keys are more items. -/
@[simp] theorem Console.keys_extend (more : List (Option InputKey)) (w : Console) :
    (w.extend more).keys = w.keys ++ more := (List.append_assoc _ _ _).symm

/-! ## Where a run ends -/

/-- A call that is not answered: a wait with no key to come, a read with no item to come, or an access
to another register. -/
theorem console_stuck {w : Console} {c : Call P} (stuck : console w c = none) :
    (c = .waitForEvent ∧ ∀ item ∈ w.keys, item = none) ∨ (c = .readKeyStroke ∧ w.keys = []) ∨
      ∃ addr, accesses c = some addr ∧ addr ≠ powerCtl := by
  cases c with
  | waitForEvent =>
    rw [console_waitForEvent] at stuck
    rcases w.waited_cases with ⟨_, all⟩ | ⟨w', _, _, waits, _⟩
    · exact .inl ⟨rfl, all⟩
    · rw [waits] at stuck
      cases stuck
  | readKeyStroke =>
    rw [console_read] at stuck
    cases next : w.keys with
    | nil => exact .inr (.inl ⟨rfl, rfl⟩)
    | cons item items =>
      rw [next] at stuck
      cases stuck
  | rdmsr addr =>
    simp only [console] at stuck
    split at stuck
    · cases stuck
    · next other => exact .inr (.inr ⟨addr, rfl, other⟩)
  | wrmsr addr low high =>
    simp only [console] at stuck
    split at stuck
    · cases stuck
    · next other => exact .inr (.inr ⟨addr, rfl, other⟩)
  | _ => cases stuck

/-- A run that cannot go on: the program has returned, or it stands before a wait with no key to come,
or before a read with nothing to come. -/
inductive Ended {α : Type} (w : Console) (p : Prog (firmware P) α)
    (tr : List (Step (firmware P) Console)) (w' : Console) : Prop
  | returned (a : α) (run : Run console.env w p tr w' (some a))
  | waits {k : Unit → Prog (firmware P) α}
      (stands : Stands console.env w p tr w' (.call .waitForEvent k))
      (never : ∀ item ∈ w'.keys, item = none)
  | polls {k : ReadResult → Prog (firmware P) α}
      (stands : Stands console.env w p tr w' (.call .readKeyStroke k)) (nothing : w'.keys = [])

/-- What has not used up its rounds has ended, when only register 0x1FC is accessed. -/
theorem exec_ended {α : Type} {n : Nat} {p : Prog (firmware P) α} {w : Console}
    (settled : (exec console n p w).outcome ≠ .unfinished)
    (known : ∀ {tr w' c k}, Stands console.env w p tr w' (.call c k) →
      ∀ addr, accesses c = some addr → addr = powerCtl) :
    Ended w p (exec console n p w).steps (exec console n p w).world := by
  have ends := exec_stands console n p w
  generalize exec console n p w = r at settled ends ⊢
  obtain ⟨tr, w', out⟩ := r
  cases out with
  | returned a =>
    have run := Stands.run ends .ret
    rw [List.append_nil] at run
    exact .returned a run
  | blocked =>
    obtain ⟨c, k, stands, stuck⟩ := ends
    rcases console_stuck stuck with ⟨rfl, never⟩ | ⟨rfl, nothing⟩ | ⟨addr, access, other⟩
    · exact .waits stands never
    · exact .polls stands nothing
    · exact absurd (known stands addr access) other
  | unfinished => exact absurd rfl settled

end ZeroProcHot.Efi
