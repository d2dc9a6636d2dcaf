import ZeroProcHot.Tmp.Program

/-!
# What a session is for

The interactive program as a machine of its own: four prompts read one stream of keys, and which
prompt reads a key is the machine's state. The machine says nothing of what is printed between two
reads; it says which event may come next where that matters, above all in the passage of a change
from the value read (`edited`) to the question (`prompted`, `waited`, `asked`), the answer
(`answered`, `cleared`) and the one write that the answer permits.

The states carry the content of the key variable, so that a read which stores nothing still has a
meaning: the prompt sees what the variable held.
-/

namespace ZeroProcHot.Tmp

open Interact Efi

/-- The two changes the menu offers. -/
inductive Change where
  | clear
  | set
  deriving DecidableEq, Repr

namespace Change

/-- The item of the menu that makes a change. -/
def item : Change → UInt8
  | .clear => 2
  | .set => 3

/-- The value a change makes of the register. -/
def apply : Change → UInt64 → UInt64
  | .clear, v => v &&& clearZero
  | .set, v => v ||| setZero

/-- What bit 0 is after a change. -/
def bit : Change → Bool
  | .clear => false
  | .set => true

/-- The changes of a list, the first of the list first. -/
def applyAll (cs : List Change) (v : UInt64) : UInt64 := cs.foldl (fun v c => c.apply v) v

/-- Each change assigns bit 0. -/
theorem apply_toBitVec (c : Change) (v : UInt64) :
    (c.apply v).toBitVec = Words.assign 0 c.bit v.toBitVec := by
  cases c with
  | clear => rfl
  | set => rfl

theorem applyAll_toBitVec (cs : List Change) (v : UInt64) :
    (applyAll cs v).toBitVec = Words.assignAll 0 (cs.map bit) v.toBitVec := by
  induction cs generalizing v with
  | nil => rfl
  | cons c cs ih =>
    have rest := ih (c.apply v)
    rw [apply_toBitVec] at rest
    exact rest

theorem applyAll_concat (cs : List Change) (c : Change) (v : UInt64) :
    applyAll (cs ++ [c]) v = c.apply (applyAll cs v) := List.foldl_append

/-- **Of a list of changes the last one counts**, and only for bit 0. -/
theorem bit_applyAll (cs : List Change) (v : UInt64) (i : Nat) :
    Efi.bit i (applyAll cs v) =
      if i = 0 then cs.getLast?.elim (Efi.bit 0 v) bit else Efi.bit i v := by
  unfold Efi.bit
  rw [applyAll_toBitVec, Words.assignAll_eq (by omega), Words.getLsbD_assign (by omega),
    List.getLast?_map]
  cases cs.getLast? with
  | none => rfl
  | some c => rfl

end Change

/-- The states of a session. -/
inductive Session where
  /-- The start-up `toMsg`, with the polls it has left. -/
  | boot (left : Nat) (key : InputKey)
  /-- `menuloop` is called next. -/
  | entering
  /-- At the label `mnu`. -/
  | top (choice : UInt8) (key : InputKey)
  /-- `menuloop` draws the menu and waits. -/
  | menu (choice : UInt8) (key : InputKey)
  /-- `menuloop` has returned, and `choose` is called next. -/
  | picked (choice : UInt8)
  /-- The screen of option 1. -/
  | shown
  /-- A change has been selected and the register is read next. -/
  | editing (c : Change)
  /-- The register has been read, and the table is being printed. -/
  | edited (c : Change) (val : UInt64)
  | prompted (c : Change) (val : UInt64)
  | waited (c : Change) (val : UInt64)
  | asked (c : Change) (val : UInt64) (key : InputKey)
  | answered (c : Change) (val : UInt64) (key : InputKey)
  | cleared (c : Change) (val : UInt64) (key : InputKey)
  /-- The change has been written, and `toMsg` is called next. -/
  | written
  /-- The `toMsg` of `ConfirmAndWrite`, with the polls it has left. -/
  | message (left : Nat) (key : InputKey)
  /-- `menuloop` has returned 0. -/
  | off
  deriving DecidableEq, Repr

namespace Session

/-- What a key of the menu leads to. -/
def pressed (choice : UInt8) (key : InputKey) : Session :=
  match press choice key with
  | .inl choice => .top choice key
  | .inr choice => .picked choice

/-- What `choose` does with a choice. -/
def chosen (choice : UInt8) : Session :=
  if choice = 1 then .shown
  else if choice = 2 then .editing .clear
  else if choice = 3 then .editing .set
  else if choice = 0 then .off
  else .entering

/-- What a poll leads to when `left` polls remain after it. -/
def polled (rest : InputKey → Session) (key : InputKey) : Session :=
  if dismisses key then .entering else rest key

/-- The content of a key variable after a read. -/
def content (key : InputKey) (r : ReadResult) : InputKey := r.stored.getD key

/-- The state after an event. -/
def next (s : Session) (e : Event (firmware Point)) : Session :=
  match s with
  | .boot left key =>
    match left, e with
    | left, ⟨.keyLocal, k⟩ => .boot left k
    | left + 1, ⟨.readKeyStroke, r⟩ => polled (.boot left) (content key r)
    | left, _ => .boot left key
  | .entering =>
    match e with
    | ⟨.keyLocal, k⟩ => .top 1 k
    | _ => .entering
  | .top choice key =>
    match e with
    | ⟨.reach _, _⟩ => .menu choice key
    | _ => .top choice key
  | .menu choice key =>
    match e with
    | ⟨.readKeyStroke, r⟩ => pressed choice (content key r)
    | _ => .menu choice key
  | .picked choice =>
    match e with
    | ⟨.reach _, _⟩ => chosen choice
    | _ => .picked choice
  | .shown =>
    match e with
    | ⟨.keyLocal, k⟩ => .top 1 k
    | _ => .shown
  | .editing c =>
    match e with
    | ⟨.rdmsr _, r⟩ => .edited c (Halves.value r)
    | _ => .editing c
  | .edited c val =>
    match e with
    | ⟨.outputString s, _⟩ => if s = msgConfirm then .prompted c val else .edited c val
    | _ => .edited c val
  | .prompted c val =>
    match e with
    | ⟨.waitForEvent, _⟩ => .waited c val
    | _ => .prompted c val
  | .waited c val =>
    match e with
    | ⟨.keyLocal, k⟩ => .asked c val k
    | _ => .waited c val
  | .asked c val key =>
    match e with
    | ⟨.readKeyStroke, r⟩ => .answered c val (content key r)
    | _ => .asked c val key
  | .answered c val key =>
    match e with
    | ⟨.reset _, _⟩ => .cleared c val key
    | _ => .answered c val key
  | .cleared c val key =>
    match e with
    | ⟨.wrmsr _ _ _, _⟩ => .written
    | ⟨.keyLocal, k⟩ => .message 20 k
    | _ => .cleared c val key
  | .written =>
    match e with
    | ⟨.keyLocal, k⟩ => .message 20 k
    | _ => .written
  | .message left key =>
    match left, e with
    | left + 1, ⟨.readKeyStroke, r⟩ => polled (.message left) (content key r)
    | 0, ⟨.stall _, _⟩ => .entering
    | left, _ => .message left key
  | .off => .off

/-- The calls a state allows. -/
def allows : Session → Call Point → Prop
  | .boot left _, c =>
    match c with
    | .reset _ | .outputString _ | .stall _ | .keyLocal => True
    | .readKeyStroke => 0 < left
    | _ => False
  | .entering, c => c = .keyLocal
  | .top choice _, c => c = .reach (.mnu choice)
  | .menu _ _, c =>
    match c with
    | .reset _ | .outputString _ | .waitForEvent | .readKeyStroke => True
    | .rdmsr addr => addr = powerCtl
    | _ => False
  | .picked choice, c => c = .reach (.choose choice)
  | .shown, c =>
    match c with
    | .outputString _ | .waitForEvent | .keyLocal => True
    | .rdmsr addr => addr = powerCtl
    | _ => False
  | .editing _, c => c = .rdmsr powerCtl
  | .edited _ _, c => ∃ s, c = .outputString s
  | .prompted _ _, c => c = .waitForEvent
  | .waited _ _, c => c = .keyLocal
  | .asked _ _ _, c => c = .readKeyStroke
  | .answered _ _ _, c => c = .reset false
  | .cleared c val key, call =>
    if aborts key then call = .keyLocal
    else call = .wrmsr powerCtl (halves (c.apply val)).low (halves (c.apply val)).high
  | .written, c => c = .keyLocal
  | .message left _, c =>
    match c with
    | .outputString _ | .stall _ => True
    | .readKeyStroke => 0 < left
    | _ => False
  | .off, _ => False

/-- The protocol of a session. -/
def protocol : Protocol (firmware Point) Session := ⟨next, fun s e => s.allows e.call⟩

@[simp] theorem protocol_next (s : Session) (e : Event (firmware Point)) :
    protocol.next s e = s.next e := rfl

/-- The state of a session before its first event. -/
def start : Session := .boot 10 ⟨0, 0⟩

/-! ## What a step can do -/

/-- The calls that print, wait or read a register. -/
def Plain : Call Point → Prop
  | .outputString _ | .reset _ | .waitForEvent | .stall _ | .rdmsr _ => True
  | _ => False

/-- The states in which a function of the program prints or waits as it likes. -/
def Open : Session → Prop
  | .boot _ _ | .menu _ _ | .shown | .edited _ _ | .message _ _ => True
  | _ => False

/-- Everything a step that a session allows can do. -/
inductive Move : Session → Event (firmware Point) → Session → Prop
  | plain {s : Session} {e : Event (firmware Point)} : Open s → Plain e.call → Move s e s
  | bootLocal {left : Nat} {key k : InputKey} :
      Move (.boot left key) ⟨.keyLocal, k⟩ (.boot left k)
  | bootRead {left : Nat} {key : InputKey} {r : ReadResult} :
      Move (.boot (left + 1) key) ⟨.readKeyStroke, r⟩ (polled (.boot left) (content key r))
  | enter {k : InputKey} : Move .entering ⟨.keyLocal, k⟩ (.top 1 k)
  | draw {choice : UInt8} {key : InputKey} :
      Move (.top choice key) ⟨.reach (.mnu choice), ()⟩ (.menu choice key)
  | menuRead {choice : UInt8} {key : InputKey} {r : ReadResult} :
      Move (.menu choice key) ⟨.readKeyStroke, r⟩ (pressed choice (content key r))
  | choose {choice : UInt8} :
      Move (.picked choice) ⟨.reach (.choose choice), ()⟩ (chosen choice)
  | dismiss {k : InputKey} : Move .shown ⟨.keyLocal, k⟩ (.top 1 k)
  | read {c : Change} {r : Halves} :
      Move (.editing c) ⟨.rdmsr powerCtl, r⟩ (.edited c r.value)
  | prompt {c : Change} {val : UInt64} :
      Move (.edited c val) ⟨.outputString msgConfirm, ()⟩ (.prompted c val)
  | wait {c : Change} {val : UInt64} :
      Move (.prompted c val) ⟨.waitForEvent, ()⟩ (.waited c val)
  | ask {c : Change} {val : UInt64} {k : InputKey} :
      Move (.waited c val) ⟨.keyLocal, k⟩ (.asked c val k)
  | answer {c : Change} {val : UInt64} {key : InputKey} {r : ReadResult} :
      Move (.asked c val key) ⟨.readKeyStroke, r⟩ (.answered c val (content key r))
  | clear {c : Change} {val : UInt64} {key : InputKey} :
      Move (.answered c val key) ⟨.reset false, ()⟩ (.cleared c val key)
  | write {c : Change} {val : UInt64} {key : InputKey} : ¬ aborts key →
      Move (.cleared c val key)
        ⟨.wrmsr powerCtl (halves (c.apply val)).low (halves (c.apply val)).high, ()⟩ .written
  | abort {c : Change} {val : UInt64} {key k : InputKey} : aborts key →
      Move (.cleared c val key) ⟨.keyLocal, k⟩ (.message 20 k)
  | report {k : InputKey} : Move .written ⟨.keyLocal, k⟩ (.message 20 k)
  | messageRead {left : Nat} {key : InputKey} {r : ReadResult} :
      Move (.message (left + 1) key) ⟨.readKeyStroke, r⟩ (polled (.message left) (content key r))
  | messageEnd {key : InputKey} {us : Nat} : Move (.message 0 key) ⟨.stall us, ()⟩ .entering

theorem allows_cleared {c : Change} {val : UInt64} {key : InputKey} {call : Call Point} :
    (cleared c val key).allows call ↔
      if aborts key then call = .keyLocal
      else call = .wrmsr powerCtl (halves (c.apply val)).low (halves (c.apply val)).high :=
  Iff.rfl

/-- **What a session allows is one of the moves.** -/
theorem move {s : Session} {e : Event (firmware Point)} (allowed : s.allows e.call) :
    Move s e (s.next e) := by
  obtain ⟨call, r⟩ := e
  cases s with
  | boot left key =>
    cases left with
    | zero =>
      cases call with
      | keyLocal => exact .bootLocal
      | outputString _ | reset _ | stall _ => exact .plain trivial trivial
      | readKeyStroke => exact absurd allowed (Nat.lt_irrefl 0)
      | _ => cases allowed
    | succ left =>
      cases call with
      | keyLocal => exact .bootLocal
      | readKeyStroke => exact .bootRead
      | outputString _ | reset _ | stall _ => exact .plain trivial trivial
      | _ => cases allowed
  | entering =>
    cases allowed
    exact .enter
  | top choice key =>
    cases allowed
    exact .draw
  | menu choice key =>
    cases call with
    | readKeyStroke => exact .menuRead
    | outputString _ | reset _ | waitForEvent | rdmsr _ => exact .plain trivial trivial
    | _ => cases allowed
  | picked choice =>
    cases allowed
    exact .choose
  | shown =>
    cases call with
    | keyLocal => exact .dismiss
    | outputString _ | waitForEvent | rdmsr _ => exact .plain trivial trivial
    | _ => cases allowed
  | editing c =>
    cases allowed
    exact .read
  | edited c val =>
    obtain ⟨s, rfl⟩ := allowed
    show Move _ _ (if s = msgConfirm then .prompted c val else .edited c val)
    split
    · next h =>
      subst h
      exact .prompt
    · exact .plain trivial trivial
  | prompted c val =>
    cases allowed
    exact .wait
  | waited c val =>
    cases allowed
    exact .ask
  | asked c val key =>
    cases allowed
    exact .answer
  | answered c val key =>
    cases allowed
    exact .clear
  | cleared c val key =>
    have allowed := allows_cleared.mp allowed
    by_cases hk : aborts key
    · rw [if_pos hk] at allowed
      cases allowed
      exact .abort hk
    · rw [if_neg hk] at allowed
      cases allowed
      exact .write hk
  | written =>
    cases allowed
    exact .report
  | message left key =>
    cases left with
    | zero =>
      cases call with
      | stall _ => exact .messageEnd
      | outputString _ => exact .plain trivial trivial
      | readKeyStroke => exact absurd allowed (Nat.lt_irrefl 0)
      | _ => cases allowed
    | succ left =>
      cases call with
      | readKeyStroke => exact .messageRead
      | outputString _ | stall _ => exact .plain trivial trivial
      | _ => cases allowed
  | off => cases allowed

theorem polled_cases (rest : InputKey → Session) (key : InputKey) :
    (dismisses key ∧ polled rest key = .entering) ∨
    (¬ dismisses key ∧ polled rest key = rest key) := by
  unfold polled
  by_cases hk : dismisses key
  · exact .inl ⟨hk, if_pos hk⟩
  · exact .inr ⟨hk, if_neg hk⟩

theorem pressed_cases (choice : UInt8) (key : InputKey) :
    (∃ c, press choice key = .inl c ∧ pressed choice key = .top c key) ∨
    (∃ c, press choice key = .inr c ∧ pressed choice key = .picked c) := by
  unfold pressed
  cases press choice key with
  | inl c => exact .inl ⟨c, rfl, rfl⟩
  | inr c => exact .inr ⟨c, rfl, rfl⟩

theorem chosen_cases (choice : UInt8) :
    (choice = 0 ∧ chosen choice = .off) ∨ chosen choice = .shown ∨ chosen choice = .entering ∨
    ∃ c, chosen choice = .editing c := by
  unfold chosen
  by_cases h1 : choice = 1
  · exact .inr (.inl (if_pos h1))
  by_cases h2 : choice = 2
  · exact .inr (.inr (.inr ⟨.clear, by rw [if_neg h1, if_pos h2]⟩))
  by_cases h3 : choice = 3
  · exact .inr (.inr (.inr ⟨.set, by rw [if_neg h1, if_neg h2, if_pos h3]⟩))
  by_cases h0 : choice = 0
  · exact .inl ⟨h0, by rw [if_neg h1, if_neg h2, if_neg h3, if_pos h0]⟩
  · exact .inr (.inr (.inl (by rw [if_neg h1, if_neg h2, if_neg h3, if_neg h0])))

/-- Nothing leads back to the start-up poll. -/
theorem boot_move {s : Session} {e : Event (firmware Point)} {left : Nat} {key : InputKey}
    (step : Move s e (.boot left key)) : ∃ left key, s = .boot left key := by
  generalize h : boot left key = s' at step
  cases step with
  | plain _ _ => exact ⟨left, key, h.symm⟩
  | bootLocal => exact ⟨_, _, rfl⟩
  | bootRead => exact ⟨_, _, rfl⟩
  | messageRead =>
    rcases polled_cases (.message _) _ with ⟨_, same⟩ | ⟨_, same⟩ <;> cases h.trans same
  | menuRead =>
    rcases pressed_cases _ _ with ⟨_, _, same⟩ | ⟨_, _, same⟩ <;> cases h.trans same
  | choose =>
    rcases chosen_cases _ with ⟨_, same⟩ | same | same | ⟨_, same⟩ <;> cases h.trans same
  | _ => cases h

/-- A session ends when `menuloop` has returned 0. -/
theorem off_move {s : Session} {e : Event (firmware Point)} (step : Move s e .off) :
    e = ⟨.reach (.choose 0), ()⟩ := by
  generalize h : off = s' at step
  cases step with
  | plain isOpen _ =>
    subst h
    exact isOpen.elim
  | bootRead =>
    rcases polled_cases (.boot _) _ with ⟨_, same⟩ | ⟨_, same⟩ <;> cases h.trans same
  | messageRead =>
    rcases polled_cases (.message _) _ with ⟨_, same⟩ | ⟨_, same⟩ <;> cases h.trans same
  | menuRead =>
    rcases pressed_cases _ _ with ⟨_, _, same⟩ | ⟨_, _, same⟩ <;> cases h.trans same
  | @choose choice =>
    rcases chosen_cases choice with ⟨rfl, _⟩ | same | same | ⟨_, same⟩
    · rfl
    all_goals cases h.trans same
  | _ => cases h

/-- A write is the answer to a question, and writes the change in hand. -/
theorem allows_wrmsr {s : Session} {addr low high : UInt32}
    (h : s.allows (.wrmsr addr low high)) :
    ∃ c val key, s = .cleared c val key ∧ ¬ aborts key ∧ addr = powerCtl ∧
      low = (halves (c.apply val)).low ∧ high = (halves (c.apply val)).high := by
  have step := @move s ⟨.wrmsr addr low high, ()⟩ h
  generalize s.next ⟨.wrmsr addr low high, ()⟩ = s' at step
  cases step with
  | plain _ plain => exact plain.elim
  | @write c val key yes => exact ⟨c, val, key, rfl, yes, rfl, rfl, rfl⟩

/-- No state allows a read of another register. -/
theorem allows_rdmsr {s : Session} {addr : UInt32} (h : s.allows (.rdmsr addr)) :
    addr = powerCtl := by
  cases s with
  | menu choice key => exact h
  | shown => exact h
  | editing c =>
    cases h
    rfl
  | edited c val =>
    obtain ⟨_, h⟩ := h
    cases h
  | cleared c val key =>
    rw [allows_cleared] at h
    split at h
    · cases h
    · cases h
  | _ => cases h

/-- The value that the change in hand was computed from. -/
def held : Session → Option UInt64
  | .edited _ val | .prompted _ val | .waited _ val => some val
  | .asked _ val _ | .answered _ val _ | .cleared _ val _ => some val
  | _ => none

/-- The value in hand was in hand before the step, or the step read it. -/
theorem held_move {s s' : Session} {e : Event (firmware Point)} {val : UInt64} (step : Move s e s')
    (h : s'.held = some val) :
    (s.held = some val ∧ ∀ addr low high, e.call ≠ .wrmsr addr low high) ∨
    ∃ r : Halves, e = ⟨.rdmsr powerCtl, r⟩ ∧ val = r.value := by
  cases step with
  | plain _ plain =>
    refine .inl ⟨h, fun addr low high write => ?_⟩
    rw [write] at plain
    exact plain
  | bootRead =>
    rcases polled_cases (.boot _) _ with ⟨_, same⟩ | ⟨_, same⟩ <;> cases same ▸ h
  | messageRead =>
    rcases polled_cases (.message _) _ with ⟨_, same⟩ | ⟨_, same⟩ <;> cases same ▸ h
  | menuRead =>
    rcases pressed_cases _ _ with ⟨_, _, same⟩ | ⟨_, _, same⟩ <;> cases same ▸ h
  | choose =>
    rcases chosen_cases _ with ⟨_, same⟩ | same | same | ⟨_, same⟩ <;> cases same ▸ h
  | @read c r =>
    cases h
    exact .inr ⟨r, rfl, rfl⟩
  | prompt => exact .inl ⟨h, fun _ _ _ write => nomatch write⟩
  | wait => exact .inl ⟨h, fun _ _ _ write => nomatch write⟩
  | ask => exact .inl ⟨h, fun _ _ _ write => nomatch write⟩
  | answer => exact .inl ⟨h, fun _ _ _ write => nomatch write⟩
  | clear => exact .inl ⟨h, fun _ _ _ write => nomatch write⟩
  | _ => cases h

end Session

end ZeroProcHot.Tmp
