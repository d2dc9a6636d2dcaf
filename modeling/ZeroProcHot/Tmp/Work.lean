import ZeroProcHot.Efi.Tariff
import ZeroProcHot.Tmp.Navigation
import ZeroProcHot.Tmp.Panel
import ZeroProcHot.Tmp.Polling
import ZeroProcHot.Tmp.Register

/-!
# The work between two keys

The interactive program never spins: whatever the firmware answers, it comes to its next wait for a
key after a bounded number of calls and a bounded time of its own stalling (`efiMain_prompt`), and all
its work is paid for by its reads (`efiMain_total`). So on a keyboard with so many items every run is
over, or waits, after a number of calls in proportion (`efiMain_finite`). The price of each function is
a linear form in the prices of the calls, so one calculation serves the calls and the time.
-/

namespace ZeroProcHot.Tmp

open Interact Efi

variable {t : Tariff} {pause : Pause} {full : Nat}

/-! ## Straight code -/

section Straight

theorem costs_strOut (s : String) : Costs (t.meter pause full) t.output (strOut s) := costs_outputString s

/-- Two texts and 64 digits. -/
theorem costs_strRow (head : String) (data : UInt64) :
    Costs (t.meter pause full) (66 * t.output) (strRow head data) := by
  have digits : Costs (t.meter pause full) (64 * t.output)
      (forM (List.range 64).reverse fun i =>
        strOut (if data &&& (1 <<< UInt64.ofNat i) ≠ 0 then "1" else "0")) := by
    have each := @costs_forM _ (t.meter pause full) t.output _ (List.range 64).reverse
      (fun i => strOut (if data &&& (1 <<< UInt64.ofNat i) ≠ 0 then "1" else "0"))
      fun i _ => costs_strOut _
    rw [List.length_reverse, List.length_range] at each
    exact each
  exact (costs_bind (costs_strOut _) fun _ => costs_bind (costs_strOut head) fun _ => digits).mono
    (by omega)

/-- Two rows and the two texts between them. -/
theorem costs_table (term : UInt64) (op : String) (result : UInt64) :
    Costs (t.meter pause full) (134 * t.output) (table term op result) :=
  (costs_bind (costs_strRow op term) fun _ => costs_bind (costs_strOut _) fun _ =>
    costs_bind (costs_strOut tblHL) fun _ => costs_strRow _ result).mono (by omega)

/-- Two texts and three for each of the four items. -/
theorem costs_menu (choice : UInt8) : Costs (t.meter pause full) (14 * t.output) (menu choice) := by
  have line (i : Nat) : Costs (t.meter pause full) (3 * t.output)
      (do
        if i = (choice.toNat + 3) % 4 then strOut "> " else strOut "  "
        strOut (menuLabel i)
        strOut "\r\n" : C Unit) := by
    split
    all_goals
      exact (costs_bind (costs_strOut _) fun _ => costs_bind (costs_strOut _) fun _ =>
        costs_strOut _).mono (by omega)
  have lines := @costs_forM _ (t.meter pause full) (3 * t.output) _ (List.range 4) _ fun i _ => line i
  exact (costs_bind (costs_strOut _) fun _ => costs_bind (costs_strOut _) fun _ => lines).mono
    (by rw [List.length_range]; omega)

theorem costs_asmReadMsr64 (addr : UInt32) :
    Costs (t.meter pause full) t.register (asmReadMsr64 addr) :=
  costs_bind (costs_rdmsr addr) fun _ => costs_pure _

theorem costs_asmWriteMsr64 (addr : UInt32) (val : UInt64) :
    Costs (t.meter pause full) t.register (asmWriteMsr64 addr val) :=
  costs_bind (costs_wrmsr addr _ _) fun _ => costs_pure _

theorem costs_read0x1fc : Costs (t.meter pause full) (t.register + 66 * t.output) read0x1fc :=
  costs_bind (costs_asmReadMsr64 powerCtl) fun _ =>
    costs_bind (costs_strRow _ _) fun _ => costs_pure _

/-- What a screen of the menu costs, up to its wait. -/
def screenCost (t : Tariff) : Nat := t.clear + 19 * t.output + t.register

/-- A round of `menuloop` up to its wait, and what follows. -/
theorem screen_andThen {α : Type} {choice : UInt8} {left : Nat} (pays : screenCost t ≤ left)
    {rest : C α} {Q : α → Nat → Prop}
    (next : ∀ left', left ≤ left' + screenCost t →
      Conforms (t.meter pause full).protocol rest Q left') :
    Conforms (t.meter pause full).protocol
      (do
        reach (.mnu choice)
        scrClear
        strOut head0
        strOut head1
        strOut "\r\n"
        strOut "BD_PROCHOT: "
        let val ← asmReadMsr64 powerCtl
        strOut (if val &&& 1 ≠ 0 then "1" else "0")
        menu choice
        rest) Q left := by
  unfold screenCost at pays next
  refine (costs_reach _).andThen (by omega) fun _ l₁ h₁ => ?_
  refine (costs_reset false).andThen (by omega) fun _ l₂ h₂ => ?_
  refine (costs_strOut head0).andThen (by omega) fun _ l₃ h₃ => ?_
  refine (costs_strOut head1).andThen (by omega) fun _ l₄ h₄ => ?_
  refine (costs_strOut _).andThen (by omega) fun _ l₅ h₅ => ?_
  refine (costs_strOut _).andThen (by omega) fun _ l₆ h₆ => ?_
  refine (costs_asmReadMsr64 powerCtl).andThen (by omega) fun val l₇ h₇ => ?_
  refine (costs_strOut _).andThen (by omega) fun _ l₈ h₈ => ?_
  exact (costs_menu choice).andThen (by omega) fun _ l₉ h₉ => next l₉ (by omega)

/-- The rows of a change, up to its question. -/
theorem rows_andThen {α : Type} {term : UInt64} {op : String} {f : UInt64 → UInt64} {left : Nat}
    (pays : t.register + 200 * t.output ≤ left) {rest : UInt64 → C α} {Q : α → Nat → Prop}
    (next : ∀ val left', left ≤ left' + (t.register + 200 * t.output) →
      Conforms (t.meter pause full).protocol (rest val) Q left') :
    Conforms (t.meter pause full).protocol
      (do
        let val ← read0x1fc
        table term op (f val)
        rest val) Q left := by
  refine costs_read0x1fc.andThen (by omega) fun val l₁ h₁ => ?_
  exact (costs_table term op (f val)).andThen (by omega) fun _ l₂ h₂ => next val l₂ (by omega)

/-- The marks of a round and of the rounds after it. -/
theorem marks_succ (i left : Nat) :
    marks i (left + 1) = (if i % 5 = 0 then 1 else 0) + marks (i + 1) left := by
  unfold marks
  split <;> omega

/-- By induction on the polls left. -/
theorem costs_pollKey (prog : String) (left i : Nat) (key : InputKey) :
    Costs (t.meter .wait full) (left * (t.read + t.stall defStall) + marks i left * t.output)
      (pollKey prog left i key) := by
  induction left generalizing i key with
  | zero => exact (costs_pure 0).mono (Nat.zero_le _)
  | succ left ih =>
    have rest := marks_succ i left
    have reading : Costs (t.meter .wait full)
        (t.read + (t.stall defStall + (left * (t.read + t.stall defStall) +
          marks (i + 1) left * t.output)))
        (do
          let key ← readKeyStroke key
          if dismisses key then return 1
          else do
            stall defStall
            pollKey prog left (i + 1) key) := by
      refine costs_bind (costs_readKeyStroke key) fun key => costs_ite ?_ ?_
      · exact (costs_pure 1).mono (Nat.zero_le _)
      · exact costs_bind (costs_stall defStall) fun _ => ih (i + 1) key
    rw [pollKey, rest, Nat.succ_mul]
    split
    · refine (costs_bind (costs_strOut prog) fun _ => reading).mono ?_
      rw [Nat.add_mul]
      omega
    · refine reading.mono ?_
      rw [Nat.zero_add]
      omega

/-- What the `toMsg` of `ConfirmAndWrite` costs at most. -/
def messageCost (t : Tariff) : Nat := 20 * (t.read + t.stall defStall) + 5 * t.output

/-- What the start-up `toMsg` costs at most. -/
def greetingCost (t : Tariff) : Nat := 10 * (t.read + t.stall defStall) + 3 * t.output

theorem costs_message (msg : String) : Costs (t.meter .wait full) (messageCost t) (toMsg msg 20 "") :=
  (costs_bind costs_keyLocal fun key => costs_bind (costs_strOut msg) fun _ =>
    costs_pollKey "" 20 0 key).mono (by
      have four : marks 0 20 = 4 := rfl
      rw [four]
      unfold messageCost
      omega)

theorem costs_greeting :
    Costs (t.meter .wait full) (greetingCost t) (toMsg msgInteractive 10 ".") :=
  (costs_bind costs_keyLocal fun key => costs_bind (costs_strOut _) fun _ =>
    costs_pollKey "." 10 0 key).mono (by
      have two : marks 0 10 = 2 := rfl
      rw [two]
      unfold greetingCost
      omega)

end Straight

/-! ## From wait to wait -/

/-- A full meter pays for each way from one wait to the next: the start, a key of the menu that takes
a change in hand, and an answer. -/
structure Enough (t : Tariff) (full : Nat) : Prop where
  start : t.clear + greetingCost t + screenCost t ≤ full
  change : t.read + t.register + 201 * t.output ≤ full
  answer : t.read + t.clear + t.register + messageCost t + screenCost t ≤ full

section Waits

variable {left : Nat}

/-- The wait of a round pays for what comes after it, and only the read has been spent of that. -/
theorem menuRound_pays (enough : Enough t full) (x : UInt8 × InputKey)
    (pays : screenCost t ≤ left) :
    Conforms (t.meter .wait full).protocol (menuRound x)
      (afterRound (fun _ left' => full ≤ left' + t.read) fun _ left' => full ≤ left' + t.read)
      left := by
  obtain ⟨choice, key⟩ := x
  unfold menuRound
  refine screen_andThen pays fun l₁ h₁ => ?_
  refine wait_andThen ?_
  have answer := enough.answer
  refine (costs_readKeyStroke key).andThen (by omega) fun key left' h => ?_
  cases press choice key with
  | inl choice => exact h
  | inr choice => exact h

/-- By the invariant that the next screen is paid for. -/
theorem menuloop_pays (enough : Enough t full) (pays : screenCost t ≤ left) :
    Conforms (t.meter .wait full).protocol menuloop (fun _ left' => full ≤ left' + t.read) left := by
  unfold menuloop
  refine costs_keyLocal.andThen (by omega) fun key l₁ h₁ => ?_
  have answer := enough.answer
  refine conforms_iter (fun _ left' => screenCost t ≤ left') (by omega) fun x l₂ h₂ => ?_
  refine conforms_mono (fun y l₃ h₃ => ?_) (menuRound_pays enough x h₂)
  cases y with
  | inl x =>
    have h₃ : full ≤ l₃ + t.read := h₃
    show screenCost t ≤ l₃
    omega
  | inr choice => exact h₃

/-- The wait pays for the message and for the next screen. -/
theorem confirmAndWrite_pays (enough : Enough t full) (val : UInt64) (msg : String)
    (pays : t.output ≤ left) :
    Conforms (t.meter .wait full).protocol (confirmAndWrite val msg)
      (fun _ left' => screenCost t ≤ left') left := by
  unfold confirmAndWrite
  refine (costs_strOut msgConfirm).andThen pays fun _ l₁ h₁ => ?_
  refine wait_andThen ?_
  have answer := enough.answer
  refine costs_keyLocal.andThen (by omega) fun key l₂ h₂ => ?_
  refine (costs_readKeyStroke key).andThen (by omega) fun key l₃ h₃ => ?_
  refine (costs_reset false).andThen (by omega) fun _ l₄ h₄ => ?_
  refine (conforms_ite _ _ _ _).mpr ?_
  split
  · refine (costs_message msgAbort).andThen (by omega) fun _ l₅ h₅ => ?_
    exact (conforms_pure _ _).mpr (by omega)
  · refine (costs_asmWriteMsr64 powerCtl val).andThen (by omega) fun _ l₅ h₅ => ?_
    refine (costs_message msg).andThen (by omega) fun _ l₆ h₆ => ?_
    exact (conforms_pure _ _).mpr (by omega)

/-- A change, from the key that selected it to the next screen of the menu. -/
theorem edit_pays (enough : Enough t full) {term : UInt64} {op msg : String} {f : UInt64 → UInt64}
    (pays : full ≤ left + t.read) :
    Conforms (t.meter .wait full).protocol
      (do
        let val ← read0x1fc
        table term op (f val)
        confirmAndWrite (f val) msg)
      (fun _ left' => screenCost t ≤ left') left := by
  have change := enough.change
  refine rows_andThen (by omega) fun val l₁ h₁ => ?_
  exact confirmAndWrite_pays enough (f val) msg (by omega)

/-- Every item leaves the price of the next screen. -/
theorem choose_pays (enough : Enough t full) (choice : UInt8) (pays : full ≤ left + t.read) :
    Conforms (t.meter .wait full).protocol (choose choice) (fun _ left' => screenCost t ≤ left') left := by
  have change := enough.change
  have answer := enough.answer
  unfold choose
  refine (costs_reach _).andThen (by omega) fun _ l₁ h₁ => ?_
  by_cases h1 : choice = 1
  · rw [if_pos h1]
    refine costs_read0x1fc.andThen (by omega) fun _ l₂ h₂ => ?_
    refine (conforms_waitForEvent _).mpr ⟨.inl rfl, ?_⟩
    rw [Meter.next_full (by rfl)]
    show screenCost t ≤ full
    omega
  by_cases h2 : choice = 2
  · rw [if_neg h1, if_pos h2]
    exact edit_pays enough (by omega)
  by_cases h3 : choice = 3
  · rw [if_neg h1, if_neg h2, if_pos h3]
    exact edit_pays enough (by omega)
  rw [if_neg h1, if_neg h2, if_neg h3]
  exact (conforms_pure _ _).mpr (by omega)

/-- **The program can be paid for from wait to wait**, whatever the prices. -/
theorem efiMain_pays (enough : Enough t full) :
    Conforms (t.meter .wait full).protocol efiMain (fun _ _ => True) full := by
  have start := enough.start
  have answer := enough.answer
  unfold efiMain
  refine (costs_reset false).andThen (by omega) fun _ l₁ h₁ => ?_
  refine costs_greeting.andThen (by omega) fun keypressed l₂ h₂ => ?_
  refine (conforms_ite _ _ _ _).mpr ?_
  split
  · refine (conforms_bind _ _ _).mpr (conforms_iter (fun _ left' => screenCost t ≤ left') (by omega) ?_)
    intro choice l₃ h₃
    unfold mainRound
    refine (conforms_ite _ _ _ _).mpr ?_
    split
    · refine (conforms_bind _ _ _).mpr (conforms_mono ?_ (menuloop_pays enough h₃))
      intro choice l₄ h₄
      refine (conforms_bind _ _ _).mpr (conforms_mono ?_ (choose_pays enough choice h₄))
      exact fun _ _ h => h
    · trivial
  · trivial

end Waits

/-! ## From read to read -/

/-- A full meter pays for each way from one read to the next: an answer up to the first poll of its
message, the screen of option 1 and the menu after it, a change up to its question, and a message
that ends with the menu. -/
structure Affords (t : Tariff) (full : Nat) : Prop where
  answer : t.clear + t.register + 2 * t.output ≤ full
  shown : t.register + 66 * t.output + t.wait + (screenCost t + t.wait) ≤ full
  change : t.register + 201 * t.output + t.wait ≤ full
  menu : t.stall defStall + (screenCost t + t.wait) ≤ full

section Reads

variable {left : Nat}

/-- By induction on the polls left: each poll but the last one is paid for by the one before it. -/
theorem pollKey_reads (affords : Affords t full) (prog : String) (polls i : Nat) (key : InputKey)
    (pays : t.output ≤ left) :
    Conforms (t.meter .read full).protocol (pollKey prog (polls + 1) i key)
      (fun _ left' => full ≤ left' + t.stall defStall) left := by
  have menu := affords.menu
  induction polls generalizing i key left with
  | zero =>
    have reading : ∀ left, Conforms (t.meter .read full).protocol
        (do
          let key ← readKeyStroke key
          if dismisses key then return 1
          else do
            stall defStall
            pollKey prog 0 (i + 1) key)
        (fun _ left' => full ≤ left' + t.stall defStall) left := by
      intro left
      refine read_andThen fun key => (conforms_ite _ _ _ _).mpr ?_
      split
      · exact (conforms_pure _ _).mpr (Nat.le_add_right _ _)
      · exact (costs_stall defStall).andThen (by omega) fun _ l₁ h₁ => (conforms_pure _ _).mpr h₁
    rw [pollKey]
    split
    · exact (costs_strOut prog).andThen pays fun _ l₁ _ => reading l₁
    · exact reading left
  | succ polls ih =>
    have reading : ∀ left, Conforms (t.meter .read full).protocol
        (do
          let key ← readKeyStroke key
          if dismisses key then return 1
          else do
            stall defStall
            pollKey prog (polls + 1) (i + 1) key)
        (fun _ left' => full ≤ left' + t.stall defStall) left := by
      intro left
      refine read_andThen fun key => (conforms_ite _ _ _ _).mpr ?_
      split
      · exact (conforms_pure _ _).mpr (Nat.le_add_right _ _)
      · refine (costs_stall defStall).andThen (by omega) fun _ l₁ h₁ => ih (i + 1) key ?_
        unfold screenCost at menu
        omega
    rw [pollKey]
    split
    · exact (costs_strOut prog).andThen pays fun _ l₁ _ => reading l₁
    · exact reading left

/-- The read of the last poll pays for everything; the stall after it may be spent. -/
theorem toMsg_reads (affords : Affords t full) (msg prog : String) (polls : Nat) {timeout : UInt64}
    (some : timeout.toNat = polls + 1) (pays : 2 * t.output ≤ left) :
    Conforms (t.meter .read full).protocol (toMsg msg timeout prog)
      (fun _ left' => full ≤ left' + t.stall defStall) left := by
  unfold toMsg
  refine costs_keyLocal.andThen (by omega) fun key l₁ h₁ => ?_
  refine (costs_strOut msg).andThen (by omega) fun _ l₂ h₂ => ?_
  rw [some]
  exact pollKey_reads affords prog polls 0 key (by omega)

/-- The read of the answer pays, and the message after it too. -/
theorem confirmAndWrite_reads (affords : Affords t full) (val : UInt64) (msg : String)
    (pays : t.output + t.wait ≤ left) :
    Conforms (t.meter .read full).protocol (confirmAndWrite val msg)
      (fun _ left' => screenCost t + t.wait ≤ left') left := by
  have answer := affords.answer
  have menu := affords.menu
  unfold confirmAndWrite
  refine (costs_strOut msgConfirm).andThen (by omega) fun _ l₁ h₁ => ?_
  refine costs_waitForEvent.andThen (by omega) fun _ l₂ h₂ => ?_
  refine costs_keyLocal.andThen (by omega) fun key l₃ h₃ => ?_
  refine read_andThen fun key => ?_
  refine (costs_reset false).andThen (by omega) fun _ l₄ h₄ => ?_
  refine (conforms_ite _ _ _ _).mpr ?_
  split
  · rw [conforms_bind]
    refine conforms_mono (fun _ l₅ h₅ => ?_) (toMsg_reads affords msgAbort "" 19 rfl (by omega))
    exact (conforms_pure _ _).mpr (by omega)
  · refine (costs_asmWriteMsr64 powerCtl val).andThen (by omega) fun _ l₅ h₅ => ?_
    rw [conforms_bind]
    refine conforms_mono (fun _ l₆ h₆ => ?_) (toMsg_reads affords msg "" 19 rfl (by omega))
    exact (conforms_pure _ _).mpr (by omega)

/-- A change, from the key that selected it to the next screen of the menu. -/
theorem edit_reads (affords : Affords t full) {term : UInt64} {op msg : String} {f : UInt64 → UInt64}
    (pays : full ≤ left) :
    Conforms (t.meter .read full).protocol
      (do
        let val ← read0x1fc
        table term op (f val)
        confirmAndWrite (f val) msg)
      (fun _ left' => screenCost t + t.wait ≤ left') left := by
  have change := affords.change
  refine rows_andThen (by omega) fun val l₁ h₁ => ?_
  exact confirmAndWrite_reads affords (f val) msg (by omega)

/-- A round that picks nothing has been paid by its own read. -/
theorem menuRound_reads (affords : Affords t full) (x : UInt8 × InputKey)
    (pays : screenCost t + t.wait ≤ left) :
    Conforms (t.meter .read full).protocol (menuRound x)
      (afterRound (fun _ left' => screenCost t + t.wait ≤ left') fun _ left' => full ≤ left')
      left := by
  obtain ⟨choice, key⟩ := x
  have menu := affords.menu
  unfold menuRound
  refine screen_andThen (by omega) fun l₁ h₁ => ?_
  refine costs_waitForEvent.andThen (by omega) fun _ l₂ h₂ => ?_
  refine read_andThen fun key => ?_
  cases press choice key with
  | inl choice =>
    show screenCost t + t.wait ≤ full
    omega
  | inr choice => exact Nat.le_refl full

theorem menuloop_reads (affords : Affords t full) (pays : screenCost t + t.wait ≤ left) :
    Conforms (t.meter .read full).protocol menuloop (fun _ left' => full ≤ left') left := by
  unfold menuloop
  refine costs_keyLocal.andThen (by omega) fun key l₁ h₁ => ?_
  exact conforms_iter (fun _ left' => screenCost t + t.wait ≤ left') (by omega) fun x l₂ h₂ =>
    menuRound_reads affords x h₂

theorem choose_reads (affords : Affords t full) (choice : UInt8) (pays : full ≤ left) :
    Conforms (t.meter .read full).protocol (choose choice)
      (fun _ left' => screenCost t + t.wait ≤ left') left := by
  have shown := affords.shown
  unfold choose
  refine (costs_reach _).andThen (by omega) fun _ l₁ h₁ => ?_
  by_cases h1 : choice = 1
  · rw [if_pos h1]
    refine costs_read0x1fc.andThen (by omega) fun _ l₂ h₂ => ?_
    exact conforms_mono (fun _ l₃ h₃ => by omega) (costs_waitForEvent l₂ (by omega))
  by_cases h2 : choice = 2
  · rw [if_neg h1, if_pos h2]
    exact edit_reads affords (by omega)
  by_cases h3 : choice = 3
  · rw [if_neg h1, if_neg h2, if_pos h3]
    exact edit_reads affords (by omega)
  rw [if_neg h1, if_neg h2, if_neg h3]
  exact (conforms_pure _ _).mpr (by omega)

/-- **The reads pay for the program**, whatever the prices; only the start is paid for beforehand. -/
theorem efiMain_reads (affords : Affords t full) (pays : t.clear + 2 * t.output ≤ left) :
    Conforms (t.meter .read full).protocol efiMain (fun _ _ => True) left := by
  have menu := affords.menu
  unfold efiMain
  refine (costs_reset false).andThen (by omega) fun _ l₁ h₁ => ?_
  rw [conforms_bind]
  refine conforms_mono (fun keypressed l₂ h₂ => ?_)
    (toMsg_reads affords msgInteractive "." 9 rfl (by omega))
  refine (conforms_ite _ _ _ _).mpr ?_
  split
  · refine (conforms_bind _ _ _).mpr
      (conforms_iter (fun _ left' => screenCost t + t.wait ≤ left') (by omega) ?_)
    intro choice l₃ h₃
    unfold mainRound
    refine (conforms_ite _ _ _ _).mpr ?_
    split
    · refine (conforms_bind _ _ _).mpr (conforms_mono ?_ (menuloop_reads affords h₃))
      intro choice l₄ h₄
      refine (conforms_bind _ _ _).mpr (conforms_mono ?_ (choose_reads affords choice h₄))
      exact fun _ _ h => h
    · trivial
  · trivial

end Reads

/-! ## No loop without a wait -/

section Lively

theorem straight_strRow (head : String) (data : UInt64) : (strRow head data).Straight := by
  refine Prog.straight_bind (Prog.straight_perform _) fun _ => ?_
  refine Prog.straight_bind (Prog.straight_perform _) fun _ => ?_
  exact Prog.straight_forM fun i _ => Prog.straight_perform _

theorem straight_table (term : UInt64) (op : String) (result : UInt64) :
    (table term op result).Straight := by
  refine Prog.straight_bind (straight_strRow op term) fun _ => ?_
  refine Prog.straight_bind (Prog.straight_perform _) fun _ => ?_
  exact Prog.straight_bind (Prog.straight_perform _) fun _ => straight_strRow _ result

theorem straight_read0x1fc : read0x1fc.Straight := by
  refine Prog.straight_bind (straight_asmReadMsr64 powerCtl) fun val => ?_
  exact Prog.straight_bind (straight_strRow _ val) fun _ => Prog.straight_pure _

theorem straight_confirmAndWrite (val : UInt64) (msg : String) :
    (confirmAndWrite val msg).Straight := by
  unfold confirmAndWrite
  iterate 3 refine Prog.straight_bind (Prog.straight_perform _) fun _ => ?_
  refine Prog.straight_bind (straight_readKeyStroke _) fun key => ?_
  refine Prog.straight_bind (Prog.straight_perform _) fun _ => Prog.straight_ite ?_ ?_
  · exact Prog.straight_bind (straight_toMsg msgAbort "" 20) fun _ => Prog.straight_pure _
  · refine Prog.straight_bind (Prog.straight_bind (Prog.straight_perform _) fun _ => ?_) fun _ => ?_
    · exact Prog.straight_pure _
    · exact Prog.straight_bind (straight_toMsg msg "" 20) fun _ => Prog.straight_pure _

/-- No item calls the menu or loops without a bound. -/
theorem straight_choose (choice : UInt8) : (choose choice).Straight := by
  refine Prog.straight_bind (Prog.straight_perform _) fun _ => Prog.straight_ite ?_ ?_
  · exact Prog.straight_bind straight_read0x1fc fun _ => Prog.straight_perform _
  refine Prog.straight_ite ?_ (Prog.straight_ite ?_ (Prog.straight_pure _))
  all_goals
    refine Prog.straight_bind straight_read0x1fc fun _ => ?_
    exact Prog.straight_bind (straight_table _ _ _) fun _ => straight_confirmAndWrite _ _

/-- A round of `menuloop` waits before it returns. -/
theorem menuRound_pauses {Q : (UInt8 × InputKey) ⊕ UInt8 → Prop} (x : UInt8 × InputKey) :
    (menuRound x).Unpaused IsWait Q := by
  obtain ⟨choice, key⟩ := x
  unfold menuRound
  iterate 6 refine (Prog.straight_perform _).unpaused_bind fun _ => ?_
  refine (straight_asmReadMsr64 powerCtl).unpaused_bind fun val => ?_
  refine (Prog.straight_perform _).unpaused_bind fun _ => ?_
  refine (straight_menu choice).unpaused_bind fun _ => ?_
  have wait : IsWait (.waitForEvent : Call Point) := rfl
  exact Prog.unpaused_perform wait _

/-- So `menuloop` does not return without a wait. -/
theorem menuloop_pauses {Q : UInt8 → Prop} : menuloop.Unpaused IsWait Q := by
  have straight : (keyLocal : C InputKey).Straight := Prog.straight_perform _
  exact straight.unpaused_bind fun key => menuRound_pauses (1, key)

/-- **No loop of the program goes round without a wait.** -/
theorem efiMain_lively : efiMain.Lively IsWait := by
  have menu : menuloop.Lively IsWait :=
    Prog.lively_bind (Prog.straight_perform _).lively fun key =>
      Prog.lively_iter (1, key) (fun x => (straight_menuRound x).lively) fun x => menuRound_pauses x
  have round (choice : UInt8) : (mainRound choice).Lively IsWait :=
    Prog.lively_ite
      (Prog.lively_bind menu fun choice =>
        Prog.lively_bind (straight_choose choice).lively fun _ => trivial)
      (Prog.straight_pure _).lively
  have pauses (choice : UInt8) : (mainRound choice).Unpaused IsWait
      (Sum.elim (fun _ => False) fun _ => True) := by
    unfold mainRound
    split
    · exact Prog.unpaused_bind menuloop_pauses
    · trivial
  refine Prog.lively_bind (Prog.straight_perform _).lively fun _ => ?_
  refine Prog.lively_bind (straight_toMsg _ _ _).lively fun keypressed => ?_
  have loop : (mainLoop 1).Lively IsWait := Prog.lively_iter 1 round pauses
  refine Prog.lively_ite (Prog.lively_bind loop fun _ => ?_) (Prog.straight_pure _).lively
  exact (Prog.straight_pure _).lively

end Lively

/-! ## The bounds -/

/-- **The program never spins.** In every run, whatever the firmware answers and wherever the run
stops, a stretch without a wait for a key makes at most 203 calls and stalls for at most two seconds;
and where the calls are answered, every run can go on without a wait to the end of the program or to
its next wait. -/
theorem efiMain_prompt {W : Type} {E : Env (firmware Point) W} {w w' : W}
    {tr : List (Step (firmware Point) W)} {out : Option Status}
    (run : Run E w efiMain tr w' out) :
    (∀ pre mid post, tr = pre ++ mid ++ post →
      (∀ st ∈ mid, st.event.call ≠ .waitForEvent) → effort mid ≤ 203 ∧ stalled mid ≤ 2000000) ∧
    (Answers E → ∃ more w'', (∀ st ∈ more, st.event.call ≠ .waitForEvent) ∧
      ((∃ status, Run E w efiMain (tr ++ more) w'' (some status)) ∨
        ∃ k, Stands E w efiMain (tr ++ more) w'' (.call .waitForEvent k))) := by
  have calls : Enough Tariff.calls 203 := ⟨by decide, by decide, by decide⟩
  have stalls : Enough Tariff.stalls 2000000 := ⟨by decide, by decide, by decide⟩
  exact ⟨fun pre mid post cut unattended =>
    ⟨effort_stretch run (efiMain_pays calls) cut unattended,
      stalled_stretch run (efiMain_pays stalls) cut unattended⟩,
    fun answers => reaches_wait efiMain_lively answers run⟩

/-- The steps of the session that clears the register. -/
def clearSteps : List (Step (firmware Point) UInt64) :=
  clearSession.steps.map (Step.map Script.register)

/-- From the wait of the menu to the question of `ConfirmAndWrite`. -/
def clearStretch : List (Step (firmware Point) UInt64) := (clearSteps.drop 29).take 204

/-- The bound on the calls is reached, and where the session stops it can go on to its next wait or to
its end. -/
theorem efiMain_prompt_clearStretch :
    (effort clearStretch = 203 ∧ effort clearStretch ≤ 203 ∧ stalled clearStretch ≤ 2000000) ∧
    ∃ more v, (∀ st ∈ more, st.event.call ≠ .waitForEvent) ∧
      ((∃ status, Run keeping 5 efiMain (clearSteps ++ more) v (some status)) ∨
        ∃ k, Stands keeping 5 efiMain (clearSteps ++ more) v (.call .waitForEvent k)) := by
  have cut : clearSteps = clearSteps.take 29 ++ clearStretch ++ (clearSteps.drop 29).drop 204 := by
    rw [List.append_assoc, clearStretch, List.take_append_drop, List.take_append_drop]
  have prompt := efiMain_prompt clearSession_run
  exact ⟨⟨by decide +kernel, prompt.1 _ _ _ cut (by decide +kernel)⟩, prompt.2 answers_keeping⟩

/-- **The reads pay for everything.** In every run, whatever the firmware answers and wherever the run
stops, there are at most 204 calls for each read of the keyboard and three more, and the program asks
to be stalled at most once, for a tenth of a second, for each read. -/
theorem efiMain_total {W : Type} {E : Env (firmware Point) W} {w w' : W}
    {tr : List (Step (firmware Point) W)} {out : Option Status}
    (run : Run E w efiMain tr w' out) :
    effort tr ≤ 3 + 204 * reads (events tr) ∧ stalled tr ≤ 100000 * reads (events tr) := by
  have calls : Affords Tariff.calls 203 := ⟨by decide, by decide, by decide, by decide⟩
  have stalls : Affords Tariff.stalls 100000 := ⟨by decide, by decide, by decide, by decide⟩
  have asked := stalled_total run (@efiMain_reads _ _ 0 stalls (by decide))
  rw [Nat.zero_add] at asked
  exact ⟨effort_total run (@efiMain_reads _ _ 3 calls (by decide)), asked⟩

theorem efiMain_total_clearSteps :
    effort clearSteps ≤ 3 + 204 * reads (events clearSteps) ∧
      stalled clearSteps ≤ 100000 * reads (events clearSteps) :=
  efiMain_total clearSession_run

/-- What a run on a keyboard stands before accesses no other register. -/
theorem stands_powerCtl {w w' : Console} {tr : List (Step (firmware Point) Console)}
    {c : Call Point} {k : Answer c → C Status}
    (stands : Stands console.env w efiMain tr w' (.call c k)) (addr : UInt32)
    (access : accesses c = some addr) : addr = powerCtl := by
  have kept := stands.follows efiMain_conforms
  cases c with
  | rdmsr _ => exact accesses_powerCtl (kept (⟨0, 0⟩ : Halves) _ rfl).1 access
  | wrmsr _ _ _ => exact accesses_powerCtl (kept () _ rfl).1 access
  | _ => cases access

/-- With more rounds than items no loop uses up its rounds. -/
theorem efiMain_settles {n : Nat} {w : Console} (enough : w.keys.length < n) :
    (exec console n efiMain w).outcome ≠ .unfinished := by
  intro unfinished
  have seen := congrArg Result.outcome (efiMain_panel w enough)
  have left : (seenOf (session n efiMain w)).outcome = .unfinished := by
    simp only [seenOf, session, play, Result.watch, Result.report, unfinished]
  rw [left] at seen
  have ends := panel.play_outcome ⟨starting w.junk, w.register⟩ w.keys
  rcases ends with waits | ⟨rest, stops⟩
  · cases seen.trans waits
  · cases seen.trans stops

/-- **No run goes on for ever.** On a keyboard with `k` items to come there is a run of at most
`204 * k` calls and three more, which asks to be stalled for at most `k` tenths of a second, and of
which every run is a beginning. It has ended: the program has returned, or it waits for a key and none
is to come, or it polls the keyboard and no item is left. -/
theorem efiMain_finite (w : Console) :
    ∃ whole w', Whole console.env w efiMain whole ∧ Ended w efiMain whole w' ∧
      effort whole ≤ 3 + 204 * w.keys.length ∧ stalled whole ≤ 100000 * w.keys.length := by
  have settled := @efiMain_settles (w.keys.length + 1) w (Nat.lt_succ_self _)
  have run := exec_run console (w.keys.length + 1) efiMain w
  refine ⟨_, _, exec_whole settled, exec_ended settled stands_powerCtl, ?_⟩
  have calls : Affords Tariff.calls 203 := ⟨by decide, by decide, by decide, by decide⟩
  have stalls : Affords Tariff.stalls 100000 := ⟨by decide, by decide, by decide, by decide⟩
  have made := effort_total run (@efiMain_reads _ _ 3 calls (by decide))
  have asked := stalled_total run (@efiMain_reads _ _ 0 stalls (by decide))
  have taken := reads_le run.path
  constructor <;> omega

end ZeroProcHot.Tmp
