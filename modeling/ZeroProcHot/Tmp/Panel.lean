import ZeroProcHot.Efi.Keyboard
import ZeroProcHot.Tmp.Dismiss
import ZeroProcHot.Tmp.Session

/-!
# The control panel

The interactive program as its user meets it: a machine that takes one item of the keyboard at a
time, a key or a poll that finds none, and does nothing between two items. Screens, stalls and the
queue of the firmware are gone; what is left is which prompt takes an item and what it does with it.
Each prompt declares a key variable of its own, and a poll that finds no key looks at what it happens
to hold, so the machine carries the contents of the variables to come. `efiMain_panel` shows that the
program is this machine, on every keyboard and register.
-/

namespace ZeroProcHot.Tmp

open Interact Efi

/-- What the next item is for. `left` counts the polls after the next one, `key` is what the key
variable holds, and `junk` what the key variables to come hold. -/
inductive Mode where
  | boot (left : Nat) (key : InputKey) (junk : Stream' InputKey)
  | menu (choice : UInt8) (junk : Stream' InputKey)
  | confirm (c : Change) (junk : Stream' InputKey)
  | message (left : Nat) (key : InputKey) (junk : Stream' InputKey)
  | off

namespace Mode

/-- The program has returned. -/
def isOff : Mode → Bool
  | .off => true
  | _ => false

/-- A call of `menuloop`, which reads a key before it looks at its key variable. -/
def entering (junk : Stream' InputKey) : Mode := .menu 1 junk.tail

/-- The message after an answer. `ConfirmAndWrite` has declared a key variable before the message does,
and it has read the answer into it. -/
def answered (junk : Stream' InputKey) : Mode := .message 19 junk.tail.head junk.tail.tail

end Mode

/-- The mode and the register. -/
structure Panel where
  mode : Mode
  register : UInt64

/-- What an item of the menu leads to. -/
def opens (choice : UInt8) (junk : Stream' InputKey) : Mode :=
  if choice = 0 then .off
  else if choice = 2 then .confirm .clear junk
  else if choice = 3 then .confirm .set junk
  else .entering junk

/-- A poll that finds `key` in the variable: it ends the prompt, or there are more polls, or the
prompt is over. -/
def poll (rest : Nat → InputKey → Stream' InputKey → Mode) (timedOut : Stream' InputKey → Mode)
    (left : Nat) (key : InputKey) (junk : Stream' InputKey) : Mode :=
  if dismisses key then .entering junk
  else
    match left with
    | 0 => timedOut junk
    | left + 1 => rest left key junk

section Poll

variable {rest : Nat → InputKey → Stream' InputKey → Mode} {timedOut : Stream' InputKey → Mode}
  {left : Nat} {key : InputKey} {junk : Stream' InputKey}

/-- A dismissing key ends the poll. -/
theorem poll_ends (h : dismisses key) :
    poll rest timedOut left key junk = .entering junk := if_pos h

/-- The last poll times out. -/
theorem poll_over (h : ¬ dismisses key) : poll rest timedOut 0 key junk = timedOut junk := if_neg h

/-- Any other poll goes on. -/
theorem poll_on (h : ¬ dismisses key) :
    poll rest timedOut (left + 1) key junk = rest left key junk := if_neg h

end Poll

/-- The write of a value. -/
def Action.write (v : UInt64) : Action := .wrote powerCtl (halves v).low (halves v).high

/-- After the last poll of the start-up `toMsg` the program is over. -/
def bootOver (_ : Stream' InputKey) : Mode := .off

/-- What an item does. -/
def Panel.feed (p : Panel) (item : Option InputKey) : List Action × Panel :=
  match p.mode, item with
  | .boot left key junk, item => ([], ⟨poll .boot bootOver left (item.getD key) junk, p.register⟩)
  | .message left key junk, item =>
    ([], ⟨poll .message .entering left (item.getD key) junk, p.register⟩)
  | .menu choice junk, some key =>
    match press choice key with
    | .inl choice => ([], ⟨.menu choice junk, p.register⟩)
    | .inr choice => ([.selected choice], ⟨opens choice junk, p.register⟩)
  | .confirm c junk, some key =>
    if aborts key then ([], ⟨.answered junk, p.register⟩)
    else ([.write (c.apply p.register)], ⟨.answered junk, c.apply p.register⟩)
  | .menu _ _, none | .confirm _ _, none | .off, _ => ([], p)

/-- The machine. It stops when it is off. -/
def panel : Machine Panel (Option InputKey) Action := ⟨fun p => p.mode.isOff, Panel.feed⟩

/-- What the machine says of the items to come, from a mode on: its actions, the register at the end
and the items it has left. -/
def expect (mode : Mode) (w : Console) : Result Action UInt64 (List (Option InputKey)) :=
  (panel.play ⟨mode, w.register⟩ w.keys).mapWorld Panel.register

/-- What is seen of a session: its actions, the register and the items it has left. -/
def seenOf {α : Type} (r : Result Action Console α) :
    Result Action UInt64 (List (Option InputKey)) :=
  r.report Console.register fun _ w => w.keys

/-! ## What the machine says -/

section Expect

variable {mode : Mode} {w w' : Console} {junk : Stream' InputKey}

theorem Mode.isOff_iff : mode.isOff = true ↔ mode = .off := by
  cases mode <;> simp [isOff]

/-- The panel stops only when it is off. -/
theorem not_stopped (h : mode ≠ .off) {v : UInt64} : panel.stopped ⟨mode, v⟩ = false :=
  Bool.eq_false_iff.mpr fun off => h (Mode.isOff_iff.mp off)

theorem expect_off (w : Console) : expect .off w = ⟨[], w.register, .returned w.keys⟩ := by
  unfold expect
  rw [Machine.play_stopped (by rfl)]
  rfl

/-- With no item left the panel is blocked wherever it takes one. -/
theorem expect_nil (h : mode ≠ .off) (none : w.keys = []) :
    expect mode w = ⟨[], w.register, .blocked⟩ := by
  unfold expect
  rw [none, Machine.play_nil (not_stopped h)]
  rfl

/-- The item that the next read takes. -/
theorem expect_cons (h : mode ≠ .off) {item : Option InputKey} {items : List (Option InputKey)}
    (next : w.keys = item :: items) {as : List Action} {mode' : Mode} {v : UInt64}
    (fed : Panel.feed ⟨mode, w.register⟩ item = (as, ⟨mode', v⟩)) :
    expect mode w = (expect mode' { w.taken with register := v }).prepend as := by
  have rest : ({ w.taken with register := v } : Console).keys = items := by
    show w.taken.keys = items
    rw [Console.keys_taken, next]
    rfl
  have fed' : panel.feed ⟨mode, w.register⟩ item = (as, ⟨mode', v⟩) := fed
  unfold expect
  rw [next, Machine.play_cons (not_stopped h), fed', rest, Result.mapWorld_prepend]

/-- A prompt that waits takes no empty poll. -/
def Waits : Mode → Prop
  | .menu _ _ | .confirm _ _ => True
  | _ => False

theorem Waits.ne_off (h : Waits mode) : mode ≠ .off := by
  rintro rfl
  exact h

theorem Waits.idles (h : Waits mode) {v : UInt64} : Idles panel ⟨mode, v⟩ := by
  refine ⟨not_stopped h.ne_off, ?_⟩
  cases mode with
  | menu choice junk => rfl
  | confirm c junk => rfl
  | _ => exact h.elim

end Expect

/-! ## The prompts follow the machine -/

section Prompts

variable {n : Nat} {w : Console}

@[simp] theorem session_stall (us : Nat) : session n (stall us) w = ⟨[], w, .returned ()⟩ :=
  play_perform rfl

/-- A poll takes one item, and a read that fails keeps the key. -/
theorem session_take {key : InputKey} {item : Option InputKey} {items : List (Option InputKey)}
    (next : w.keys = item :: items) :
    session n (readKeyStroke key) w = ⟨[], w.taken, .returned (item.getD key)⟩ :=
  play_take (fun _ => rfl) next

theorem session_take_blocked {key : InputKey} (none : w.keys = []) :
    session n (readKeyStroke key) w = ⟨[], w, .blocked⟩ := play_take_blocked none

/-- A wait for a prompt that takes no empty poll. -/
theorem waits_cases {mode : Mode} (h : Waits mode) (w : Console) :
    (session n waitForEvent w = ⟨[], w, .blocked⟩ ∧ expect mode w = ⟨[], w.register, .blocked⟩) ∨
    ∃ w' key, session n waitForEvent w = ⟨[], w', .returned ()⟩ ∧ expect mode w = expect mode w' ∧
      w'.keys = some key :: w'.taken.keys ∧ Later w w' ∧ w'.junk = w.junk ∧
      w'.register = w.register := by
  unfold expect
  rcases @wait_cases Point _ _ _ _ n action rfl (@Waits.idles mode h w.register) w with
    ⟨stuck, blocked⟩ | ⟨w', key, waits, same, next, later, hj, hr⟩
  · exact .inl ⟨stuck, by rw [blocked]; rfl⟩
  · exact .inr ⟨w', key, waits, by rw [same, hr], next, later, hj, hr⟩

/-- One poll of `toMsg`. -/
theorem session_pollKey (prog : String) (left i : Nat) (key : InputKey) :
    session n (pollKey prog (left + 1) i key) w =
      (session n (readKeyStroke key) w).andThen fun key w =>
        if dismisses key then ⟨[], w, .returned 1⟩
        else session n (pollKey prog left (i + 1) key) w := by
  have reading : session n
      (do
        let key ← readKeyStroke key
        if dismisses key then return 1
        else do
          stall defStall
          pollKey prog left (i + 1) key) w =
      (session n (readKeyStroke key) w).andThen fun key w =>
        if dismisses key then ⟨[], w, .returned 1⟩
        else session n (pollKey prog left (i + 1) key) w := by
    rw [session_bind]
    congr 1
    funext key w
    by_cases hk : dismisses key
    · rw [if_pos hk, if_pos hk]
      rfl
    · rw [if_neg hk, if_neg hk]
      exact session_seq (session_stall defStall)
  rw [pollKey]
  split
  · rw [session_seq (session_strOut prog)]
    exact reading
  · exact reading

/-- The modes of a `toMsg`, with the mode after its last poll. -/
structure Polls (rest : Nat → InputKey → Stream' InputKey → Mode)
    (timedOut : Stream' InputKey → Mode) : Prop where
  on : ∀ left key junk, rest left key junk ≠ .off
  feed : ∀ left key junk v item, Panel.feed ⟨rest left key junk, v⟩ item =
    ([], ⟨poll rest timedOut left (item.getD key) junk, v⟩)

/-- The start-up poll, which ends the program when it times out. -/
theorem polls_boot : Polls .boot bootOver := ⟨fun _ _ _ => nofun, fun _ _ _ _ _ => rfl⟩

/-- The poll under a message, which leads to the menu either way. -/
theorem polls_message : Polls .message .entering := ⟨fun _ _ _ => nofun, fun _ _ _ _ _ => rfl⟩

/-- One poll follows the machine when the polls after it do. -/
theorem poll_meets {rest : Nat → InputKey → Stream' InputKey → Mode}
    {timedOut : Stream' InputKey → Mode} (polls : Polls rest timedOut)
    {prog : String} {left i : Nat} {key : InputKey}
    {Q : UInt8 → Console → Result Action UInt64 (List (Option InputKey)) → Prop}
    (ended : Q 1 w.taken (expect (.entering w.taken.junk) w.taken))
    (on : ∀ k, ¬ dismisses k → (session n (pollKey prog left (i + 1) k) w.taken).Meets
      Console.register (expect (poll rest timedOut left k w.taken.junk) w.taken) Q) :
    (session n (pollKey prog (left + 1) i key) w).Meets Console.register
      (expect (rest left key w.junk) w) Q := by
  rw [session_pollKey]
  cases next : w.keys with
  | nil =>
    rw [session_take_blocked next, expect_nil (polls.on _ _ _) next]
    rfl
  | cons item items =>
    rw [session_take next, expect_cons (polls.on _ _ _) next (polls.feed _ _ _ _ item),
      Result.andThen_nil, Result.prepend_nil, ← Console.register_taken, ← w.junk_taken]
    by_cases hk : dismisses (item.getD key)
    · rw [if_pos hk, poll_ends hk]
      exact Result.meets_nil.mpr ended
    · rw [if_neg hk]
      exact on (item.getD key) hk

/-- **`toMsg` follows the machine**: by induction on the polls left. -/
theorem pollKey_meets {rest : Nat → InputKey → Stream' InputKey → Mode}
    {timedOut : Stream' InputKey → Mode} (polls : Polls rest timedOut)
    (prog : String) (left i : Nat) (key : InputKey) (w : Console) :
    (session n (pollKey prog (left + 1) i key) w).Meets Console.register
      (expect (rest left key w.junk) w) fun r w' e =>
        Later w w' ∧ e = expect (if r = 0 then timedOut w'.junk else .entering w'.junk) w' := by
  induction left generalizing i key w with
  | zero =>
    refine poll_meets polls ⟨.taken, rfl⟩ fun k hk => ?_
    rw [poll_over hk]
    exact Result.meets_nil.mpr ⟨.taken, rfl⟩
  | succ left ih =>
    refine poll_meets polls ⟨.taken, rfl⟩ fun k hk => ?_
    rw [poll_on hk]
    exact (ih (i + 1) k w.taken).mono fun r w' e ⟨later, said⟩ => ⟨Later.taken.trans later, said⟩

/-- The `toMsg` of `ConfirmAndWrite`: the menu comes next in any case. -/
theorem message_meets (msg : String) (w : Console) :
    (session n (toMsg msg 20 "") w).Meets Console.register
      (expect (.message 19 w.junk.head w.junk.tail) w)
      fun _ w' e => Later w w' ∧ e = expect (.entering w'.junk) w' := by
  unfold toMsg
  rw [session_seq session_keyLocal, session_seq (session_strOut msg)]
  have polled := @pollKey_meets n _ _ polls_message "" 19 0 w.junk.head w.declared
  refine polled.mono fun r w' e ⟨later, said⟩ => ?_
  rw [ite_self] at said
  exact ⟨Later.declared.trans later, said⟩

theorem session_asmWriteMsr64 (v : UInt64) :
    session n (asmWriteMsr64 powerCtl v) w =
      ⟨[.write v], { w with register := v }, .returned v⟩ := by
  have write : session n (wrmsr powerCtl v.toUInt32 (v >>> 32).toUInt32) w =
      ⟨[.write v], { w with register := (halves v).value }, .returned ()⟩ := play_perform rfl
  rw [value_halves] at write
  unfold asmWriteMsr64
  rw [session_bind, write]
  rfl

/-- **`ConfirmAndWrite` follows the machine.** -/
theorem confirmAndWrite_meets (c : Change) (msg : String) (w : Console) :
    (session n (confirmAndWrite (c.apply w.register) msg) w).Meets Console.register
      (expect (.confirm c w.junk) w)
      fun _ w' e => Later w w' ∧ e = expect (.entering w'.junk) w' := by
  have waiting : Waits (.confirm c w.junk) := trivial
  unfold confirmAndWrite
  rw [session_seq (session_strOut msgConfirm), session_bind]
  rcases waits_cases waiting w with ⟨stuck, blocked⟩ | ⟨w', key, waits, same, next, first, hj, hr⟩
  · rw [stuck, blocked]
    rfl
  · have declared : w'.declared.keys = some key :: w'.taken.keys := next
    rw [waits, Result.andThen_nil, session_seq session_keyLocal, session_seq (session_take declared),
      session_seq session_scrClear, same, ← hr, ← hj, Option.getD_some, Console.taken_declared]
    have answered : Mode.answered w'.junk =
        .message 19 w'.taken.declared.junk.head w'.taken.declared.junk.tail := by
      rw [← w'.junk_taken]
      rfl
    have on : Mode.confirm c w'.junk ≠ .off := nofun
    by_cases no : aborts key
    · have fed : Panel.feed ⟨.confirm c w'.junk, w'.register⟩ (some key) =
          ([], ⟨.answered w'.junk, w'.register⟩) := if_pos no
      rw [expect_cons on next fed, Result.prepend_nil, ← Console.register_taken, answered,
        if_pos no, session_bind]
      refine (message_meets msgAbort w'.taken.declared).andThen fun _ w'' e ⟨later, said⟩ => ?_
      exact Result.meets_nil.mpr
        ⟨first.trans (Later.taken.trans (Later.declared.trans later)), said⟩
    · have fed : Panel.feed ⟨.confirm c w'.junk, w'.register⟩ (some key) =
          ([.write (c.apply w'.register)], ⟨.answered w'.junk, c.apply w'.register⟩) := if_neg no
      obtain ⟨w₁, hw₁⟩ : ∃ w₁, w₁ = { w'.taken.declared with register := c.apply w'.register } :=
        ⟨_, rfl⟩
      have written : Later w' w₁ := by
        subst hw₁
        exact ⟨Later.taken.keys⟩
      have junk : w₁.junk = w'.taken.declared.junk := by rw [hw₁]
      have same : expect (.answered w'.junk) { w'.taken with register := c.apply w'.register } =
          expect (.message 19 w₁.junk.head w₁.junk.tail) w₁ := by
        rw [answered, junk, hw₁]
        rfl
      rw [expect_cons on next fed, if_neg no, session_bind, session_asmWriteMsr64, ← hw₁, same]
      refine Result.meets_said ?_
      rw [session_bind]
      refine (message_meets msg w₁).andThen fun _ w'' e ⟨later, said⟩ => ?_
      exact Result.meets_nil.mpr ⟨first.trans (written.trans later), said⟩

/-- The table shows nothing that counts. -/
theorem session_table (term : UInt64) (op : String) (result : UInt64) :
    session n (table term op result) w = ⟨[], w, .returned ()⟩ := by
  unfold table
  rw [session_seq (session_strRow op term), session_seq (session_strOut _),
    session_seq (session_strOut tblHL)]
  exact session_strRow _ result

/-- Option 2 is the panel at its question. -/
theorem clearProcHot_meets (w : Console) :
    (session n clearProcHot w).Meets Console.register (expect (.confirm .clear w.junk) w)
      fun _ w' e => Later w w' ∧ e = expect (.entering w'.junk) w' := by
  unfold clearProcHot
  rw [session_seq session_read0x1fc, session_seq (session_table _ _ _)]
  exact confirmAndWrite_meets .clear msgDisabled w

/-- Option 3 is the panel at its question. -/
theorem setProcHot_meets (w : Console) :
    (session n setProcHot w).Meets Console.register (expect (.confirm .set w.junk) w)
      fun _ w' e => Later w w' ∧ e = expect (.entering w'.junk) w' := by
  unfold setProcHot
  rw [session_seq session_read0x1fc, session_seq (session_table _ _ _)]
  exact confirmAndWrite_meets .set msgEnabled w

/-- Where `efi_main` stands between two calls of `menuloop`. -/
def resumed (choice : UInt8) (junk : Stream' InputKey) : Mode :=
  if choice = 0 then .off else .entering junk

/-- **`choose` follows the machine.** The wait of option 1 takes no item: what ends it is for the
menu. -/
theorem choose_meets (choice : UInt8) (w : Console) :
    (session n (choose choice) w).Meets Console.register
      ((expect (opens choice w.junk) w).prepend [.selected choice])
      fun _ w' e => Later w w' ∧ e = expect (resumed choice w'.junk) w' := by
  unfold choose
  rw [session_bind, session_select]
  refine Result.meets_said ?_
  by_cases h1 : choice = 1
  · subst h1
    have waiting : Waits (.entering w.junk) := trivial
    rw [if_pos rfl, session_seq session_read0x1fc]
    show (session n waitForEvent w).Meets Console.register (expect (.entering w.junk) w) _
    rcases waits_cases waiting w with ⟨stuck, blocked⟩ | ⟨w', key, waits, same, next, later, hj, hr⟩
    · rw [stuck, blocked]
      rfl
    · rw [waits, same, ← hj]
      exact Result.meets_nil.mpr ⟨later, rfl⟩
  by_cases h2 : choice = 2
  · subst h2
    exact clearProcHot_meets w
  by_cases h3 : choice = 3
  · subst h3
    exact setProcHot_meets w
  rw [if_neg h1, if_neg h2, if_neg h3]
  refine Result.meets_nil.mpr ⟨.refl, ?_⟩
  unfold opens resumed
  rw [if_neg h2, if_neg h3]
  rfl

/-- **`menuloop` follows the machine**: each round takes a key, so there are rounds enough. -/
theorem menuRounds_meets (m : Nat) (x : UInt8 × InputKey) (w : Console)
    (enough : w.keys.length < m) :
    (menuRounds n m x w).Meets Console.register (expect (.menu x.1 w.junk) w)
      fun choice w' e => Later w w' ∧ w'.keys.length < w.keys.length ∧
        e = (expect (opens choice w'.junk) w').prepend [.selected choice] := by
  refine @Result.meets_rounds _ _ _ _ _ _ _ _ _ _
    (fun k x w' e => k = w'.keys.length ∧ Later w w' ∧ e = expect (.menu x.1 w'.junk) w') ?_
    w.keys.length m enough x w ⟨rfl, .refl, rfl⟩
  rintro _ ⟨choice, key⟩ w₁ _ ⟨rfl, later, rfl⟩
  have waiting : Waits (.menu choice w₁.junk) := trivial
  rw [session_menuRound_wait]
  rcases waits_cases waiting w₁ with ⟨stuck, blocked⟩ | ⟨w', k, waits, same, next, first, hj, hr⟩
  · rw [stuck, blocked]
    rfl
  · have shorter : w'.taken.keys.length < w₁.keys.length := by
      have total := first.length_le
      rw [next, List.length_cons] at total
      omega
    have after : Later w w'.taken := later.trans (first.trans .taken)
    rw [waits, Result.andThen_nil, session_take next, Result.andThen_nil, Option.getD_some, same,
      ← hj, ← w'.junk_taken]
    have on : Mode.menu choice w'.taken.junk ≠ .off := nofun
    unfold turn
    cases pressed : press choice k with
    | inl choice' =>
      have fed : Panel.feed ⟨.menu choice w'.taken.junk, w'.register⟩ (some k) =
          ([], ⟨.menu choice' w'.taken.junk, w'.register⟩) := by
        simp only [Panel.feed, pressed]
      rw [expect_cons on next fed, ← Console.register_taken]
      exact Result.meets_nil.mpr ⟨_, shorter, rfl, after, rfl⟩
    | inr choice' =>
      have fed : Panel.feed ⟨.menu choice w'.taken.junk, w'.register⟩ (some k) =
          ([.selected choice'], ⟨opens choice' w'.taken.junk, w'.register⟩) := by
        simp only [Panel.feed, pressed]
      rw [expect_cons on next fed, ← Console.register_taken]
      exact Result.meets_nil.mpr ⟨after, by have := later.length_le; omega, rfl⟩

/-- **The loop of `efi_main` follows the machine**: each round takes a key. -/
theorem mainLoop_meets (w : Console) (enough : w.keys.length < n) :
    (session n (mainLoop 1) w).Meets Console.register (expect (.entering w.junk) w)
      fun _ w' e => e = ⟨[], w'.register, .returned w'.keys⟩ := by
  have loop : session n (mainLoop 1) w = mainRounds n n 1 w := play_iter mainRound 1 w
  rw [loop]
  refine @Result.meets_rounds _ _ _ _ _ _ _ _ _ _
    (fun k choice w' e => k = w'.keys.length ∧ Later w w' ∧ e = expect (resumed choice w'.junk) w')
    ?_ w.keys.length n enough 1 w ⟨rfl, .refl, rfl⟩
  rintro _ choice w₁ _ ⟨rfl, later, rfl⟩
  by_cases h0 : choice = 0
  · subst h0
    exact Result.meets_nil.mpr (expect_off w₁)
  · have fewer : w₁.declared.keys.length < n := Nat.lt_of_le_of_lt later.length_le enough
    rw [session_mainRound h0, session_menuloop, resumed, if_neg h0]
    refine (menuRounds_meets n (1, w₁.junk.head) w₁.declared fewer).andThen ?_
    rintro choice' w₂ _ ⟨first, shorter, rfl⟩
    refine (choose_meets choice' w₂).andThen ?_
    rintro _ w₃ _ ⟨second, rfl⟩
    exact Result.meets_nil.mpr ⟨_, Nat.lt_of_le_of_lt second.length_le shorter, rfl,
      later.trans (Later.declared.trans (first.trans second)), rfl⟩

end Prompts

/-- The machine before the first poll of the start-up `toMsg`, which makes ten. -/
def starting (junk : Stream' InputKey) : Mode := .boot 9 junk.head junk.tail

/-- **The program is the panel.** On every keyboard and register, with more rounds than there are
items, the session selects and writes what the panel does, leaves the same register and the same
items, and ends or waits as the panel does. -/
theorem efiMain_panel {n : Nat} (w : Console) (enough : w.keys.length < n) :
    seenOf (session n efiMain w) = expect (starting w.junk) w := by
  refine Result.Meets.report_eq ?_
  unfold efiMain toMsg
  rw [session_seq session_scrClear, session_bind, session_seq session_keyLocal,
    session_seq (session_strOut msgInteractive)]
  refine (pollKey_meets polls_boot "." 9 0 w.junk.head w.declared).andThen ?_
  rintro keypressed w₁ _ ⟨later, rfl⟩
  by_cases h0 : keypressed = 0
  · rw [if_pos h0, if_neg (not_not.mpr h0)]
    exact Result.meets_nil.mpr (expect_off w₁)
  · rw [if_neg h0, if_pos h0, session_bind]
    refine (mainLoop_meets w₁ (Nat.lt_of_le_of_lt later.length_le enough)).andThen ?_
    rintro _ w₂ _ rfl
    exact Result.meets_nil.mpr rfl

/-- **Every run is a run of the panel.** What a run of the program selects and writes is the beginning
of what the panel does, and all of it when the program has returned, with the same register and the
same items left; and there is a run that does all of it and returns if the panel stops. -/
theorem efiMain_runs (w : Console) :
    Follows console action Console.register (fun _ w => w.keys) efiMain w
      (expect (starting w.junk) w) :=
  follows_of_report fun _ enough => efiMain_panel w enough

end ZeroProcHot.Tmp
