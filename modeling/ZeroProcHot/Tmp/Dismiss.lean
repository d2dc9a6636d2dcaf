import ZeroProcHot.Efi.Console
import ZeroProcHot.Tmp.Program

/-!
# The key that dismisses the register screen

Option 1 shows the register and waits for a key, and does not read it: the key stays in the queue,
and the menu reads it as its own. `dismissed_same_iff` says when two dismissing keys make the same
session of every continuation: exactly when both are the same command to a menu with its first line
marked.
-/

namespace ZeroProcHot.Tmp

open Interact Efi

/-- What a session does: it selects an item, or it writes a register. -/
inductive Action where
  | selected (choice : UInt8)
  | wrote (addr low high : UInt32)
  deriving DecidableEq, Repr

/-- The action that an event is. -/
def action (e : Event (firmware Point)) : Option Action :=
  match e.call with
  | .reach (.choose choice) => some (.selected choice)
  | .wrmsr addr low high => some (.wrote addr low high)
  | _ => none

/-- What is seen of a program on the machine with a queue: its actions, the machine at the end and
how it ended. Each loop has at most `n` rounds. -/
def session {α : Type} (n : Nat) (p : C α) (w : Console) : Result Action Console α :=
  play console n action p w

section Rules

variable {α β : Type} {n : Nat} {w : Console}

/-- A session is played in sequence. -/
theorem session_bind (p : C α) (f : α → C β) :
    session n (p >>= f) w = (session n p w).andThen fun a w' => session n (f a) w' :=
  play_bind p f w

/-- A program that does nothing a session shows leaves the rest. -/
theorem session_seq {p : C α} {f : α → C β} {w' : Console} {a : α}
    (quiet : session n p w = ⟨[], w', .returned a⟩) :
    session n (p >>= f) w = session n (f a) w' := by
  rw [session_bind, quiet, Result.andThen_nil]

@[simp] theorem session_pure (a : α) : session n (Pure.pure a : C α) w = ⟨[], w, .returned a⟩ := rfl

@[simp] theorem session_strOut (s : String) :
    session n (strOut s) w = ⟨[], w, .returned ()⟩ := play_perform rfl

@[simp] theorem session_scrClear : session n scrClear w = ⟨[], w, .returned ()⟩ :=
  play_perform rfl

/-- A declared key takes the next of the contents. -/
@[simp] theorem session_keyLocal :
    session n keyLocal w = ⟨[], w.declared, .returned w.junk.head⟩ := play_perform rfl

@[simp] theorem session_mnu (choice : UInt8) :
    session n (reach (.mnu choice)) w = ⟨[], w, .returned ()⟩ := play_perform rfl

/-- The call of `choose` is an action. -/
@[simp] theorem session_select (choice : UInt8) :
    session n (reach (.choose choice)) w = ⟨[.selected choice], w, .returned ()⟩ :=
  play_perform rfl

theorem session_wait {w' : Console} (h : w.waited = some w') :
    session n waitForEvent w = ⟨[], w', .returned ()⟩ :=
  play_perform (by rw [console_waitForEvent, h]; rfl)

/-- With no key to come the session is blocked in the wait. -/
theorem session_wait_blocked (h : w.waited = none) :
    session n waitForEvent w = ⟨[], w, .blocked⟩ :=
  play_perform_blocked (by rw [console_waitForEvent, h]; rfl)

/-- A read with a key pending. -/
theorem session_read {key k : InputKey} {pending : List InputKey} (h : w.pending = k :: pending) :
    session n (readKeyStroke key) w = ⟨[], { w with pending }, .returned k⟩ := by
  have read : session n (invoke .readKeyStroke : C ReadResult) w =
      ⟨[], { w with pending }, .returned ⟨.success, some k⟩⟩ :=
    play_perform (console_readKeyStroke h)
  unfold readKeyStroke
  exact session_seq read

@[simp] theorem session_asmReadMsr64 :
    session n (asmReadMsr64 powerCtl) w = ⟨[], w, .returned w.register⟩ := by
  have read : session n (rdmsr powerCtl) w = ⟨[], w, .returned (halves w.register)⟩ :=
    play_perform rfl
  unfold asmReadMsr64
  rw [session_seq read]
  exact congrArg (fun v => (⟨[], w, .returned v⟩ : Result Action Console UInt64))
    (value_halves w.register)

/-- A loop whose rounds show nothing shows nothing. -/
theorem session_forM {ι : Type} {xs : List ι} {f : ι → C PUnit}
    (body : ∀ x ∈ xs, session n (f x) w = ⟨[], w, .returned ()⟩) :
    session n (forM xs f) w = ⟨[], w, .returned ()⟩ := by
  have quiet : play console n action (forM xs f) w = ⟨xs.flatMap fun _ => [], w, .returned ()⟩ :=
    play_forM body
  rw [List.flatMap_eq_nil_iff.mpr fun _ _ => rfl] at quiet
  exact quiet

theorem session_strRow (head : String) (data : UInt64) :
    session n (strRow head data) w = ⟨[], w, .returned ()⟩ := by
  unfold strRow
  rw [session_seq (session_strOut _), session_seq (session_strOut _)]
  exact session_forM fun i _ => session_strOut _

/-- What is read is not an action. -/
theorem session_read0x1fc : session n read0x1fc w = ⟨[], w, .returned w.register⟩ := by
  unfold read0x1fc
  rw [session_seq session_asmReadMsr64, session_seq (session_strRow _ _)]
  rfl

theorem session_menu (choice : UInt8) : session n (menu choice) w = ⟨[], w, .returned ()⟩ := by
  unfold menu
  rw [session_seq (session_strOut _), session_seq (session_strOut _)]
  refine session_forM fun i _ => ?_
  split
  all_goals
    rw [session_seq (session_strOut _), session_seq (session_strOut _)]
    exact session_strOut _

end Rules

/-! ## The menu on the queue -/

/-- What a round of `menuloop` makes of a key. -/
def turn (choice : UInt8) (key : InputKey) : (UInt8 × InputKey) ⊕ UInt8 :=
  match press choice key with
  | .inl choice => .inl (choice, key)
  | .inr choice => .inr choice

variable {n : Nat}

/-- A round of `menuloop` waits first, and then goes on with the key variable it was given. -/
theorem session_menuRound_wait (x : UInt8 × InputKey) (w : Console) :
    session n (menuRound x) w = (session n waitForEvent w).andThen fun _ w =>
      (session n (readKeyStroke x.2) w).andThen fun key w => ⟨[], w, .returned (turn x.1 key)⟩ := by
  obtain ⟨choice, key⟩ := x
  unfold menuRound
  rw [session_seq (session_mnu _), session_seq session_scrClear, session_seq (session_strOut _),
    session_seq (session_strOut _), session_seq (session_strOut _), session_seq (session_strOut _),
    session_seq session_asmReadMsr64, session_seq (session_strOut _), session_seq (session_menu _),
    session_bind]
  congr 1
  funext _ w
  rw [session_bind]
  congr 1
  funext key w
  unfold turn
  cases press choice key with
  | inl choice => rfl
  | inr choice => rfl

/-- A round takes the key it has waited for. -/
theorem session_menuRound {x : UInt8 × InputKey} {w w' : Console} {k : InputKey}
    {pending : List InputKey} (h : w.waited = some w') (hk : w'.pending = k :: pending) :
    session n (menuRound x) w = ⟨[], { w' with pending }, .returned (turn x.1 k)⟩ := by
  rw [session_menuRound_wait, session_wait h, Result.andThen_nil, session_read hk,
    Result.andThen_nil]

/-- Without a key the round stops at its wait. -/
theorem session_menuRound_blocked {x : UInt8 × InputKey} {w : Console} (h : w.waited = none) :
    session n (menuRound x) w = ⟨[], w, .blocked⟩ := by
  rw [session_menuRound_wait, session_wait_blocked h, Result.andThen_blocked]

/-- The key variable of `menuloop` does not matter: a key is pending when it is read. -/
theorem session_menuRound_key (choice : UInt8) (k₁ k₂ : InputKey) (w : Console) :
    session n (menuRound (choice, k₁)) w = session n (menuRound (choice, k₂)) w := by
  cases h : w.waited with
  | none => rw [session_menuRound_blocked h, session_menuRound_blocked h]
  | some w' =>
    obtain ⟨k, pending, hk⟩ := Console.waited_pending h
    rw [session_menuRound h hk, session_menuRound h hk]

/-- `menuloop` with at most `m` rounds, from any round. -/
def menuRounds (n m : Nat) (x : UInt8 × InputKey) (w : Console) : Result Action Console UInt8 :=
  rounds (fun x w => session n (menuRound x) w) m x w

theorem session_menuloop (w : Console) :
    session n menuloop w = menuRounds n n (1, w.junk.head) w.declared := by
  unfold menuloop
  rw [session_seq session_keyLocal]
  exact play_iter menuRound _ w.declared

/-- One round with a key. -/
theorem menuRounds_succ {m : Nat} {x : UInt8 × InputKey} {w w' : Console} {k : InputKey}
    {pending : List InputKey} (h : w.waited = some w') (hk : w'.pending = k :: pending) :
    menuRounds n (m + 1) x w =
      match press x.1 k with
      | .inl choice => menuRounds n m (choice, k) { w' with pending }
      | .inr choice => ⟨[], { w' with pending }, .returned choice⟩ := by
  unfold menuRounds
  simp only [rounds, session_menuRound h hk, Result.andThen_nil, turn]
  cases press x.1 k with
  | inl choice => rfl
  | inr choice => rfl

/-- The key variable of the menu does not count: the read after a wait fills it. -/
theorem menuRounds_key (m : Nat) (choice : UInt8) (k₁ k₂ : InputKey) (w : Console) :
    menuRounds n m (choice, k₁) w = menuRounds n m (choice, k₂) w :=
  rounds_congr m (session_menuRound_key choice k₁ k₂ w)

/-! ## The session after option 1 -/

/-- The loop of `efi_main` with at most `m` rounds. -/
def mainRounds (n m : Nat) (choice : UInt8) (w : Console) : Result Action Console Unit :=
  rounds (fun choice w => session n (mainRound choice) w) m choice w

/-- A round of the main loop is the menu, then the item it returned. -/
theorem session_mainRound {choice : UInt8} (h : choice ≠ 0) (w : Console) :
    session n (mainRound choice) w = (session n menuloop w).andThen fun choice w =>
      (session n (choose choice) w).andThen fun _ w => ⟨[], w, .returned (.inl choice)⟩ := by
  unfold mainRound
  rw [if_pos h, session_bind]
  congr 1
  funext choice w
  rw [session_bind]
  rfl

/-- The choice that `efi_main` begins with, and returns to after option 1, is not the exit. -/
theorem first_ne_exit : (1 : UInt8) ≠ 0 := by decide

/-- The session from the point where `menuloop` has returned 1. -/
def option1 (n m : Nat) (w : Console) : Result Action Console Unit :=
  (session n (choose 1) w).andThen fun _ w => mainRounds n m 1 w

/-- Option 1 leaves the key that dismisses its screen in the queue. -/
theorem option1_eq (m : Nat) (key : InputKey) (later : List (Option InputKey))
    (junk : Stream' InputKey) (v : UInt64) :
    option1 n m ⟨[], some key :: later, junk, v⟩ =
      (⟨[.selected 1], ⟨[key], later, junk, v⟩, .returned ()⟩ : Result Action Console Unit).andThen
        fun _ w => mainRounds n m 1 w := by
  have chosen : session n (choose 1) ⟨[], some key :: later, junk, v⟩ =
      ⟨[.selected 1], ⟨[key], later, junk, v⟩, .returned ()⟩ := by
    have waits : (⟨[], some key :: later, junk, v⟩ : Console).waited =
        some ⟨[key], later, junk, v⟩ := rfl
    unfold choose
    rw [session_bind, session_select, if_pos rfl, Result.andThen_returned,
      session_seq session_read0x1fc, session_wait waits]
    rfl
  rw [option1, chosen]

/-- The actions of a session and the register at its end. -/
def told {α : Type} (r : Result Action Console α) : List Action × UInt64 :=
  (r.steps, r.world.register)

/-- Option 1 leaves the key it waited for to the menu. -/
theorem told_option1 (m : Nat) (key : InputKey) (later : List (Option InputKey))
    (junk : Stream' InputKey) (v : UInt64) :
    told (option1 n m ⟨[], some key :: later, junk, v⟩) =
      (.selected 1 :: (told (mainRounds n m 1 ⟨[key], later, junk, v⟩)).1,
        (told (mainRounds n m 1 ⟨[key], later, junk, v⟩)).2) := by
  rw [option1_eq]
  rfl

/-- The next `menuloop` reads the key. -/
theorem session_menuloop_key (key : InputKey) (later : List (Option InputKey))
    (junk : Stream' InputKey) (v : UInt64) :
    session (n + 1) menuloop ⟨[key], later, junk, v⟩ =
      match press 1 key with
      | .inl choice => menuRounds (n + 1) n (choice, key) ⟨[], later, junk.tail, v⟩
      | .inr choice => ⟨[], ⟨[], later, junk.tail, v⟩, .returned choice⟩ := by
  have waits : (⟨[key], later, junk, v⟩ : Console).declared.waited =
      some ⟨[key], later, junk.tail, v⟩ := rfl
  rw [session_menuloop, menuRounds_succ waits rfl]

/-- Two keys with which the menu does the same make the same session. -/
theorem told_mainRounds (m : Nat) {k₁ k₂ : InputKey} (same : press 1 k₁ = press 1 k₂)
    (later : List (Option InputKey)) (junk : Stream' InputKey) (v : UInt64) :
    told (mainRounds n m 1 ⟨[k₁], later, junk, v⟩) =
      told (mainRounds n m 1 ⟨[k₂], later, junk, v⟩) := by
  cases m with
  | zero => rfl
  | succ m =>
    unfold mainRounds
    simp only [rounds, session_mainRound first_ne_exit]
    cases n with
    | zero =>
      rw [session_menuloop, session_menuloop]
      rfl
    | succ n =>
      have menu : session (n + 1) menuloop ⟨[k₁], later, junk, v⟩ =
          session (n + 1) menuloop ⟨[k₂], later, junk, v⟩ := by
        rw [session_menuloop_key, session_menuloop_key, same]
        cases press 1 k₂ with
        | inl choice => exact menuRounds_key n choice k₁ k₂ _
        | inr choice => rfl
      rw [menu]

/-! ## Telling two keys apart -/

/-- Enter. -/
def enter : InputKey := ⟨0, charCarriageReturn⟩

theorem press_enter (choice : UInt8) : press choice enter = .inr choice := by
  unfold press
  rw [if_neg (by decide), if_neg (by decide), if_neg (by decide)]
  exact if_pos rfl

/-- The first action after the screen of option 1. -/
def first (n m : Nat) (key : InputKey) (later : List (Option InputKey))
    (junk : Stream' InputKey) (v : UInt64) : Option Action :=
  (told (mainRounds (n + 2) (m + 1) 1 ⟨[key], later, junk, v⟩)).1.head?

/-- What a first part does first is done first. -/
theorem head_andThen {α β : Type} {r : Result Action Console α} {x : Action} {rest : List Action}
    (h : r.steps = x :: rest) (f : α → Console → Result Action Console β) :
    (r.andThen f).steps.head? = some x := by
  obtain ⟨steps, w, out⟩ := r
  obtain rfl : steps = x :: rest := h
  cases out <;> rfl

section First

variable {m : Nat} {later : List (Option InputKey)} {junk : Stream' InputKey} {v : UInt64}
  {key : InputKey} {choice : UInt8}

/-- The session whose next `menuloop` returns a choice begins with it. -/
theorem first_eq {w : Console}
    (menu : session (n + 2) menuloop ⟨[key], later, junk, v⟩ = ⟨[], w, .returned choice⟩) :
    first n m key later junk v = some (.selected choice) := by
  have selects : ∃ rest,
      (session (n + 2) (choose choice) w).steps = .selected choice :: rest := by
    unfold choose
    rw [session_bind, session_select, Result.andThen_returned]
    exact ⟨_, rfl⟩
  obtain ⟨rest, selects⟩ := selects
  unfold first told mainRounds
  simp only [rounds, session_mainRound first_ne_exit, menu, Result.andThen_nil,
    Result.andThen_assoc]
  exact head_andThen selects _

/-- A key that selects an item shows which one. -/
theorem first_select (h : press 1 key = .inr choice) :
    first n m key later junk v = some (.selected choice) :=
  first_eq (by rw [session_menuloop_key, h])

/-- A key that moves the mark shows nothing by itself. -/
theorem first_move (h : press 1 key = .inl choice) : first n m key [] junk v = none := by
  have stuck : (⟨[], [], junk.tail, v⟩ : Console).waited = none := rfl
  have menu : session (n + 2) menuloop ⟨[key], [], junk, v⟩ =
      ⟨[], ⟨[], [], junk.tail, v⟩, .blocked⟩ := by
    rw [session_menuloop_key, h]
    unfold menuRounds
    simp only [rounds, session_menuRound_blocked stuck, Result.andThen_blocked]
  unfold first told mainRounds
  simp only [rounds, session_mainRound first_ne_exit, menu, Result.andThen_blocked,
    List.head?_nil]

/-- Enter after it shows where the mark went. -/
theorem first_move_enter (h : press 1 key = .inl choice) :
    first n m key [some enter] junk v = some (.selected choice) := by
  have waits : (⟨[], [some enter], junk.tail, v⟩ : Console).waited =
      some ⟨[enter], [], junk.tail, v⟩ := rfl
  have menu : session (n + 2) menuloop ⟨[key], [some enter], junk, v⟩ =
      ⟨[], ⟨[], [], junk.tail, v⟩, .returned choice⟩ := by
    rw [session_menuloop_key, h]
    dsimp only
    rw [menuRounds_succ waits rfl, press_enter]
  exact first_eq menu

/-- The first action tells keys apart with which the menu does different things. -/
theorem press_eq_of_first {k₁ k₂ : InputKey}
    (alone : first n m k₁ [] junk v = first n m k₂ [] junk v)
    (entered : first n m k₁ [some enter] junk v = first n m k₂ [some enter] junk v) :
    press 1 k₁ = press 1 k₂ := by
  cases h₁ : press 1 k₁ with
  | inl c₁ =>
    cases h₂ : press 1 k₂ with
    | inl c₂ =>
      rw [first_move_enter h₁, first_move_enter h₂] at entered
      cases entered
      rfl
    | inr c₂ =>
      rw [first_move h₁, first_select h₂] at alone
      cases alone
  | inr c₁ =>
    cases h₂ : press 1 k₂ with
    | inl c₂ =>
      rw [first_select h₁, first_move h₂] at alone
      cases alone
    | inr c₂ =>
      rw [first_select h₁, first_select h₂] at alone
      cases alone
      rfl

end First

/-! ## Keys as commands -/

/-- What a key is to a menu whose first line is marked. Enter asks for the marked item. -/
inductive Command where
  | item (digit : UInt16)
  | up
  | down
  | other
  deriving DecidableEq, Repr

/-- What a key does at item 1. -/
def command (key : InputKey) : Command :=
  if chr '0' ≤ key.unicodeChar ∧ key.unicodeChar ≤ chr '3' then .item key.unicodeChar
  else if key.scanCode = scanUp then .up
  else if key.scanCode = scanDown then .down
  else if key.unicodeChar = charCarriageReturn then .item (chr '1')
  else .other

/-- What `menuloop` makes of a command. -/
def Command.press : Command → UInt8 ⊕ UInt8
  | .item digit => .inr (digit - chr '0').toUInt8
  | .up => .inl 0
  | .down => .inl 2
  | .other => .inl 1

/-- `command` says what `press` does at item 1. -/
theorem press_command (key : InputKey) : press 1 key = (command key).press := by
  unfold press command
  simp only [apply_ite Command.press]
  rfl

/-- The digits of the menu. -/
theorem command_item {key : InputKey} {digit : UInt16} (h : command key = .item digit) :
    chr '0' ≤ digit ∧ digit ≤ chr '3' := by
  unfold command at h
  split at h
  · next is =>
    cases h
    exact is
  · split at h
    · cases h
    split at h
    · cases h
    split at h
    · cases h
      decide
    · cases h

/-- The menu does the same with two keys when they are the same command, and only then. -/
theorem press_eq_iff (k₁ k₂ : InputKey) : press 1 k₁ = press 1 k₂ ↔ command k₁ = command k₂ := by
  rw [press_command, press_command]
  constructor
  · intro same
    cases h₁ : command k₁ <;> cases h₂ : command k₂ <;> rw [h₁, h₂] at same
    case item.item d₁ d₂ =>
      obtain ⟨low₁, high₁⟩ := command_item h₁
      obtain ⟨low₂, high₂⟩ := command_item h₂
      have digits := congrArg UInt8.toNat (Sum.inr.inj same)
      rw [digit_toNat low₁ high₁, digit_toNat low₂ high₂] at digits
      have low₁' : 48 ≤ d₁.toNat := UInt16.le_iff_toNat_le.mp low₁
      have low₂' : 48 ≤ d₂.toNat := UInt16.le_iff_toNat_le.mp low₂
      have equal : d₁ = d₂ := UInt16.toNat_inj.mp (by omega)
      rw [equal]
    all_goals first | rfl | cases same
  · intro same
    rw [same]

/-! ## Whole sessions -/

/-- The loop of `efi_main` up to where `menuloop` has returned a choice for the time `j + 1`, and
none when the loop ends before. -/
def lead : Nat → C (Option UInt8)
  | 0 => do
    let choice ← menuloop
    return some choice
  | j + 1 => do
    let choice ← menuloop
    choose choice
    if choice ≠ 0 then lead j else return none

/-- `efi_main` up to there. -/
def selecting (j : Nat) : C (Option UInt8) := do
  scrClear
  let keypressed ← toMsg msgInteractive 10 "."
  if keypressed ≠ 0 then lead j else return none

/-- The loop goes on from there with the choice. -/
theorem mainRounds_lead {j : Nat} (m : Nat) {choice c : UInt8} (h : choice ≠ 0) {w w' : Console}
    {as : List Action} (led : session n (lead j) w = ⟨as, w', .returned (some c)⟩) :
    mainRounds n (j + m + 1) choice w = (⟨as, w', .returned c⟩ : Result Action Console UInt8).andThen
      fun c w => (session n (choose c) w).andThen fun _ w => mainRounds n m c w := by
  induction j generalizing choice w as with
  | zero =>
    unfold lead at led
    rw [session_bind] at led
    obtain ⟨os₁, w₁, c', os₂, menu, rest, rfl⟩ := Result.andThen_eq_returned led
    rw [session_pure] at rest
    obtain ⟨rfl, rfl, same⟩ := Result.mk.inj rest
    cases same
    rw [Nat.zero_add]
    unfold mainRounds
    simp only [rounds, session_mainRound h, menu, Result.andThen_assoc, Result.andThen_nil,
      List.append_nil]
  | succ j ih =>
    unfold lead at led
    rw [session_bind] at led
    obtain ⟨os₁, w₁, c', os₂, menu, rest, rfl⟩ := Result.andThen_eq_returned led
    rw [session_bind] at rest
    obtain ⟨os₂, w₂, _, os₃, chosen, next, rfl⟩ := Result.andThen_eq_returned rest
    by_cases hc : c' ≠ 0
    · rw [if_pos hc] at next
      have later := ih hc next
      rw [show j + 1 + m + 1 = (j + m + 1) + 1 by omega]
      unfold mainRounds at later ⊢
      rw [rounds]
      simp only [session_mainRound h, menu, chosen, later, Result.andThen_returned,
        List.append_assoc, List.append_nil]
    · rw [if_neg hc] at next
      cases (Result.mk.inj next).2.2

/-- The whole session goes on from there with the choice. -/
theorem session_efiMain {j m : Nat} (hn : n = j + m + 1) {c : UInt8} {w w' : Console}
    {as : List Action} (reached : session n (selecting j) w = ⟨as, w', .returned (some c)⟩) :
    session n efiMain w = (⟨as, w', .returned c⟩ : Result Action Console UInt8).andThen
      fun c w => (session n (choose c) w).andThen fun _ w =>
        (mainRounds n m c w).andThen fun _ w => ⟨[], w, .returned .success⟩ := by
  unfold selecting at reached
  rw [session_seq session_scrClear, session_bind] at reached
  obtain ⟨os₁, w₁, keypressed, os₂, polled, rest, rfl⟩ := Result.andThen_eq_returned reached
  by_cases hk : keypressed ≠ 0
  · rw [if_pos hk] at rest
    have loop : session n (mainLoop 1) w₁ = mainRounds n n 1 w₁ := play_iter mainRound 1 w₁
    have led := mainRounds_lead m first_ne_exit rest
    rw [← hn] at led
    unfold efiMain
    rw [session_seq session_scrClear, session_bind, polled, Result.andThen_returned, if_pos hk,
      session_bind, loop, led, Result.andThen_assoc, Result.andThen_returned,
      Result.andThen_returned]
    simp only [Result.andThen_assoc, List.append_assoc, session_pure]
  · rw [if_neg hk] at rest
    cases (Result.mk.inj rest).2.2

/-- What comes after a key stream that reaches option 1. -/
theorem told_efiMain {j m N : Nat} (hN : N = j + m + 1) (hn : n ≤ N) {w w' : Console}
    {as : List Action} (reached : session n (selecting j) w = ⟨as, w', .returned (some 1)⟩)
    (more : List (Option InputKey)) :
    told (session N efiMain (w.extend more)) =
      (as ++ (told (option1 N m (w'.extend more))).1, (told (option1 N m (w'.extend more))).2) := by
  have longer : session N (selecting j) (w.extend more) =
      ⟨as, w'.extend more, .returned (some 1)⟩ := by
    have grown : (session n (selecting j) w).Grows (Console.extend more)
        (session N (selecting j) (w.extend more)) :=
      play_grow (fun answer => console_extend more answer) hn (selecting j) w
    rw [reached] at grown
    exact grown.2 (some 1) rfl
  have quiet (r : Result Action Console Unit) :
      told (r.andThen fun _ w => (⟨[], w, .returned .success⟩ : Result Action Console Status)) =
        told r := by
    obtain ⟨steps, w, out⟩ := r
    cases out with
    | returned a => simp only [told, Result.andThen_returned, List.append_nil]
    | blocked => rfl
    | unfinished => rfl
  have after := quiet (option1 N m (w'.extend more))
  rw [session_efiMain hN longer, ← after]
  simp only [option1, Result.andThen_assoc]
  rfl

/-- **The key that dismisses the screen of option 1.** Take any keys with which a session comes to
select option 1, as its choice number `j + 1`. Two keys that then dismiss the screen make the same
session of every continuation, in any budget that comes so far, exactly when they are the same
command. -/
theorem dismissed_same_iff {junk junk' : Stream' InputKey} {v v' : UInt64}
    {keys : List (Option InputKey)} {n j : Nat} {as : List Action}
    (reached : session n (selecting j) ⟨[], keys, junk, v⟩ =
      ⟨as, ⟨[], [], junk', v'⟩, .returned (some 1)⟩)
    (k₁ k₂ : InputKey) :
    (∀ later N, n + j < N →
      told (session N efiMain ⟨[], keys ++ some k₁ :: later, junk, v⟩) =
        told (session N efiMain ⟨[], keys ++ some k₂ :: later, junk, v⟩)) ↔
      command k₁ = command k₂ := by
  rw [← press_eq_iff]
  have continued (k : InputKey) (later : List (Option InputKey)) (m : Nat) {N : Nat}
      (hN : N = j + m + 1) (hn : n ≤ N) :
      told (session N efiMain ⟨[], keys ++ some k :: later, junk, v⟩) =
        (as ++ .selected 1 :: (told (mainRounds N m 1 ⟨[k], later, junk', v'⟩)).1,
          (told (mainRounds N m 1 ⟨[k], later, junk', v'⟩)).2) := by
    have whole := told_efiMain hN hn reached (some k :: later)
    have opened := told_option1 (n := N) m k later junk' v'
    exact whole.trans (by rw [show Console.extend (some k :: later) ⟨[], [], junk', v'⟩ =
      ⟨[], some k :: later, junk', v'⟩ from rfl, opened])
  constructor
  · intro same
    have tails : ∀ later, first (n + j) n k₁ later junk' v' =
        first (n + j) n k₂ later junk' v' := by
      intro later
      have both := same later (n + j + 2) (by omega)
      rw [continued k₁ later (n + 1) (by omega) (by omega),
        continued k₂ later (n + 1) (by omega) (by omega)] at both
      have actions := List.append_cancel_left (Prod.mk.inj both).1
      exact congrArg List.head? (List.cons.inj actions).2
    exact press_eq_of_first (tails []) (tails [some enter])
  · intro same later N hN
    obtain ⟨m, rfl⟩ : ∃ m, N = j + m + 1 := ⟨N - j - 1, by omega⟩
    rw [continued k₁ later m rfl (by omega), continued k₂ later m rfl (by omega),
      told_mainRounds m same]

/-- A result by its parts, but for the contents of the locals to come. -/
theorem eq_of_parts {α : Type} {r : Result Action Console α} {as : List Action}
    {pending : List InputKey} {later : List (Option InputKey)} {v : UInt64} {out : Outcome α}
    (parts : r.steps = as ∧ r.world.pending = pending ∧ r.world.later = later ∧
      r.world.register = v ∧ r.outcome = out) :
    ∃ junk, r = ⟨as, ⟨pending, later, junk, v⟩, out⟩ := by
  obtain ⟨_, ⟨_, _, junk, _⟩, _⟩ := r
  obtain ⟨rfl, rfl, rfl, rfl, rfl⟩ := parts
  exact ⟨junk, rfl⟩

/-- Esc, a confirmed clear of register 5, and option 1. -/
def clearedKeys : List (Option InputKey) :=
  [none, some ⟨scanEsc, 0⟩, some ⟨0, chr '2'⟩, some ⟨0, chr 'y'⟩, some enter, some ⟨0, chr '1'⟩]

/-- Enter and '1' both select option 1 again. -/
theorem dismissed_same_iff_cleared :
    told (session 5 efiMain
        ⟨[], clearedKeys ++ [some enter, some ⟨0, chr '0'⟩], .const ⟨0, 0⟩, 5⟩) =
      told (session 5 efiMain
        ⟨[], clearedKeys ++ [some ⟨0, chr '1'⟩, some ⟨0, chr '0'⟩], .const ⟨0, 0⟩, 5⟩) := by
  obtain ⟨junk', reached⟩ : ∃ junk', session 2 (selecting 1) ⟨[], clearedKeys, .const ⟨0, 0⟩, 5⟩ =
      ⟨[.selected 2, .wrote 0x1fc 4 0], ⟨[], [], junk', 4⟩, .returned (some 1)⟩ := by
    refine eq_of_parts ?_
    decide +kernel
  have same : command enter = command ⟨0, chr '1'⟩ := by decide
  exact (dismissed_same_iff reached enter ⟨0, chr '1'⟩).mpr same [some ⟨0, chr '0'⟩] 5 (by omega)

/-- Dismissed with a space, the session only selects option 1; dismissed with '2', it clears the
register. -/
theorem dismissed_by_two :
    told (session 4 efiMain ⟨[], [some ⟨scanEsc, 0⟩, some ⟨0, chr '1'⟩, some ⟨0, chr ' '⟩,
      some ⟨0, chr 'y'⟩], .const ⟨0, 0⟩, 5⟩) = ([.selected 1], 5) ∧
    told (session 4 efiMain ⟨[], [some ⟨scanEsc, 0⟩, some ⟨0, chr '1'⟩, some ⟨0, chr '2'⟩,
      some ⟨0, chr 'y'⟩], .const ⟨0, 0⟩, 5⟩) = ([.selected 1, .selected 2, .wrote 0x1fc 4 0], 4) := by
  decide +kernel

end ZeroProcHot.Tmp
