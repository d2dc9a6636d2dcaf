import ZeroProcHot.Tmp.Session

/-!
# The program keeps to the session

Each function of the program makes only the calls that the state it is called in allows, whatever
the firmware answers, and leaves the state its caller goes on from. The laws follow the call graph
upwards, from printing to `efi_main` (`efiMain_conforms`).
-/

namespace ZeroProcHot.Tmp

open Interact Efi Session

variable {s : Session}

/-- Printing `str` is allowed and changes nothing. -/
def Quiet (s : Session) (str : String) : Prop :=
  s.allows (.outputString str) ∧ s.next ⟨.outputString str, ()⟩ = s

section Printing

/-- A text that is quiet in a state leaves the state. -/
theorem conforms_strOut {str : String} (quiet : Quiet s str) :
    Conforms protocol (strOut str) (fun _ s' => s = s') s :=
  (conforms_outputString str _).mpr ⟨quiet.1, quiet.2.symm⟩

theorem conforms_strRow {head : String} {data : UInt64}
    (quiet : ∀ str ∈ ["\r\n", head, "0", "1"], Quiet s str) :
    Conforms protocol (strRow head data) (fun _ s' => s = s') s := by
  simp only [List.forall_mem_cons] at quiet
  obtain ⟨crlf, hhead, zero, one, _⟩ := quiet
  simp only [strRow, conforms_bind]
  refine conforms_mono ?_ (conforms_strOut crlf)
  rintro _ _ rfl
  refine conforms_mono ?_ (conforms_strOut hhead)
  rintro _ _ rfl
  refine conforms_forM _ rfl ?_
  rintro i _ _ rfl
  split
  · exact conforms_strOut one
  · exact conforms_strOut zero

theorem conforms_table {term result : UInt64} {op : String}
    (quiet : ∀ str ∈ ["\r\n", op, tblHL, "RESULT: ", "0", "1"], Quiet s str) :
    Conforms protocol (table term op result) (fun _ s' => s = s') s := by
  simp only [List.forall_mem_cons] at quiet
  obtain ⟨crlf, hop, hl, hresult, zero, one, _⟩ := quiet
  simp only [table, conforms_bind]
  refine conforms_mono ?_ (conforms_strRow (by simp [crlf, hop, zero, one]))
  rintro _ _ rfl
  refine conforms_mono ?_ (conforms_strOut crlf)
  rintro _ _ rfl
  refine conforms_mono ?_ (conforms_strOut hl)
  rintro _ _ rfl
  exact conforms_strRow (by simp [crlf, hresult, zero, one])

/-- The menu is printed where every text is quiet. -/
theorem conforms_menu (choice : UInt8) (quiet : ∀ str, Quiet s str) :
    Conforms protocol (menu choice) (fun _ s' => s = s') s := by
  simp only [menu, conforms_bind]
  refine conforms_mono ?_ (conforms_strOut (quiet _))
  rintro _ _ rfl
  refine conforms_mono ?_ (conforms_strOut (quiet _))
  rintro _ _ rfl
  refine conforms_forM _ rfl ?_
  rintro i _ _ rfl
  split
  all_goals
    simp only [conforms_bind]
    refine conforms_mono ?_ (conforms_strOut (quiet _))
    rintro _ _ rfl
    refine conforms_mono ?_ (conforms_strOut (quiet _))
    rintro _ _ rfl
    exact conforms_strOut (quiet _)

end Printing

/-! ## `toMsg` -/

/-- The states of a `toMsg` with `n` polls left: what it prints and how long it stalls is free. -/
structure Polling (rest : Nat → InputKey → Session) : Prop where
  quiet : ∀ n key str, Quiet (rest n key) str
  stalls : ∀ n key us, (rest n key).allows (.stall us)
  stalled : ∀ n key us, (rest (n + 1) key).next ⟨.stall us, ()⟩ = rest (n + 1) key
  reads : ∀ n key, (rest (n + 1) key).allows .readKeyStroke
  read : ∀ n key r, (rest (n + 1) key).next ⟨.readKeyStroke, r⟩ = polled (rest n) (content key r)

/-- The start-up poll. -/
theorem polling_boot : Polling .boot where
  quiet _ _ _ := ⟨trivial, rfl⟩
  stalls _ _ _ := trivial
  stalled _ _ _ := rfl
  reads n _ := Nat.succ_pos n
  read _ _ _ := rfl

/-- The poll under a message after a confirmation. -/
theorem polling_message : Polling .message where
  quiet n _ _ := ⟨trivial, by cases n <;> rfl⟩
  stalls _ _ _ := trivial
  stalled _ _ _ := rfl
  reads n _ := Nat.succ_pos n
  read _ _ _ := rfl

/-- The state of a `toMsg` that has made its last poll for nothing. -/
def idle (rest : Nat → InputKey → Session) (key : InputKey) : Session :=
  (rest 0 key).next ⟨.stall defStall, ()⟩

/-- One poll: the loop goes on after the stall when the key does not end it. -/
theorem conforms_poll {rest : Nat → InputKey → Session} (poll : Polling rest) {prog : String}
    {left i : Nat} {key : InputKey} {Q : UInt8 → Session → Prop} (ended : Q 1 .entering)
    (on : ∀ k, Conforms protocol (pollKey prog left (i + 1) k) Q
      ((rest left k).next ⟨.stall defStall, ()⟩)) :
    Conforms protocol (pollKey prog (left + 1) i key) Q (rest (left + 1) key) := by
  have reading : Conforms protocol
      (do
        let key ← readKeyStroke key
        if dismisses key then return 1
        else do
          stall defStall
          pollKey prog left (i + 1) key) Q (rest (left + 1) key) := by
    simp only [conforms_bind, conforms_readKeyStroke]
    intro r
    refine ⟨poll.reads left key, ?_⟩
    rw [protocol_next, poll.read left key r, polled, conforms_ite]
    by_cases hk : dismisses (content key r)
    · rw [if_pos hk]
      exact (if_pos hk).mpr ended
    · rw [if_neg hk]
      refine (if_neg hk).mpr ?_
      rw [conforms_bind, conforms_stall]
      exact ⟨poll.stalls left _ _, on _⟩
  rw [pollKey]
  split
  · refine (conforms_bind _ _ _).mpr (conforms_mono ?_ (conforms_strOut (poll.quiet _ _ _)))
    rintro _ _ rfl
    exact reading
  · exact reading

/-- By induction on the polls left. -/
theorem conforms_pollKey {rest : Nat → InputKey → Session} (poll : Polling rest) (prog : String)
    (left i : Nat) (key : InputKey) :
    Conforms protocol (pollKey prog (left + 1) i key)
      (fun r s' => (r = 1 ∧ s' = .entering) ∨ (r = 0 ∧ ∃ k, s' = idle rest k))
      (rest (left + 1) key) := by
  induction left generalizing i key with
  | zero => exact conforms_poll poll (.inl ⟨rfl, rfl⟩) fun k => .inr ⟨rfl, k, rfl⟩
  | succ left ih =>
    refine conforms_poll poll (.inl ⟨rfl, rfl⟩) fun k => ?_
    rw [poll.stalled]
    exact ih (i + 1) k

/-! ## A change -/

/-- The `toMsg` that ends `ConfirmAndWrite`: the menu comes next. -/
theorem conforms_message (msg : String) {s : Session} (entry : s.allows .keyLocal)
    (enters : ∀ k, s.next ⟨.keyLocal, k⟩ = .message 20 k) :
    Conforms protocol (toMsg msg 20 "") (fun _ s' => s' = .entering) s := by
  simp only [toMsg, conforms_bind, conforms_keyLocal]
  intro k
  refine ⟨entry, ?_⟩
  rw [protocol_next, enters k]
  refine conforms_mono ?_ (conforms_strOut (polling_message.quiet 20 k msg))
  rintro _ _ rfl
  refine conforms_mono ?_ (conforms_pollKey polling_message "" 19 0 k)
  rintro _ _ (⟨_, rfl⟩ | ⟨_, _, rfl⟩)
  · rfl
  · rfl

/-- The question, and the write of the change after a yes. -/
theorem conforms_confirmAndWrite (c : Change) (val : UInt64) (msg : String) :
    Conforms protocol (confirmAndWrite (c.apply val) msg) (fun _ s' => s' = .entering)
      (.edited c val) := by
  simp only [confirmAndWrite, conforms_bind, strOut, scrClear, conforms_outputString,
    conforms_waitForEvent, conforms_keyLocal, conforms_readKeyStroke, conforms_reset]
  refine ⟨⟨_, rfl⟩, rfl, fun k => ⟨rfl, fun r => ⟨rfl, rfl, ?_⟩⟩⟩
  show Conforms protocol _ _ (.cleared c val (content k r))
  rw [conforms_ite]
  by_cases hk : aborts (content k r)
  · refine (if_pos hk).mpr ((conforms_bind _ _ _).mpr (conforms_message _ ?_ fun _ => rfl))
    exact (if_pos hk).mpr rfl
  · refine (if_neg hk).mpr ?_
    simp only [asmWriteMsr64, conforms_bind, conforms_wrmsr, conforms_pure]
    exact ⟨(if_neg hk).mpr rfl, conforms_message msg rfl fun _ => rfl⟩

/-- Reading the register and showing it, in a state that the read leads to `next`. -/
theorem conforms_read0x1fc {next : UInt64 → Session} (allowed : s.allows (.rdmsr powerCtl))
    (reads : ∀ r : Halves, s.next ⟨.rdmsr powerCtl, r⟩ = next r.value)
    (quiet : ∀ v, ∀ str ∈ ["\r\n", "\r\n 0x1FC: ", "0", "1"], Quiet (next v) str) :
    Conforms protocol read0x1fc (fun v s' => s' = next v) s := by
  simp only [read0x1fc, asmReadMsr64, conforms_bind, conforms_rdmsr, conforms_pure]
  intro r
  refine ⟨allowed, ?_⟩
  rw [protocol_next, reads r]
  refine conforms_mono ?_ (conforms_strRow (quiet r.value))
  rintro _ _ rfl
  rfl

/-- Every text but the question leaves the state of a change being shown. -/
theorem quiet_edited (c : Change) (val : UInt64) {str : String} (h : str ≠ msgConfirm) :
    Quiet (.edited c val) str :=
  ⟨⟨str, rfl⟩, if_neg h⟩

/-- Options 2 and 3 in one, from the read to the menu. -/
theorem conforms_edit (c : Change) {term : UInt64} {op msg : String} (hop : op ≠ msgConfirm) :
    Conforms protocol
      (do
        let val ← read0x1fc
        table term op (c.apply val)
        confirmAndWrite (c.apply val) msg)
      (fun _ s' => s' = .entering) (.editing c) := by
  simp only [conforms_bind]
  refine conforms_mono ?_ (conforms_read0x1fc rfl (fun _ => rfl) fun v str hstr => ?_)
  · rintro val _ rfl
    refine conforms_mono ?_ (conforms_table fun str hstr => quiet_edited c val ?_)
    · rintro _ _ rfl
      exact conforms_confirmAndWrite c val msg
    · simp only [List.mem_cons, List.not_mem_nil, or_false] at hstr
      rcases hstr with rfl | rfl | rfl | rfl | rfl | rfl
      · decide
      · exact hop
      all_goals decide
  · refine quiet_edited c v ?_
    simp only [List.mem_cons, List.not_mem_nil, or_false] at hstr
    rcases hstr with rfl | rfl | rfl | rfl <;> decide

/-! ## The menu -/

/-- `choose` ends where the next round of `efi_main` begins, or where its loop ends. -/
theorem conforms_choose (choice : UInt8) :
    Conforms protocol (choose choice)
      (fun _ s' => if choice = 0 then s' = .off else s' = .shown ∨ s' = .entering)
      (.picked choice) := by
  simp only [choose, conforms_bind, conforms_reach]
  refine ⟨rfl, ?_⟩
  show Conforms protocol _ _ (chosen choice)
  by_cases h1 : choice = 1
  · subst h1
    show Conforms protocol _ _ .shown
    have screen : Conforms protocol read0x1fc (fun _ s' => s' = .shown) .shown :=
      conforms_read0x1fc rfl (fun _ => rfl) fun _ _ _ => ⟨trivial, rfl⟩
    simp only [conforms_bind, conforms_waitForEvent, ↓reduceIte]
    refine conforms_mono ?_ screen
    rintro _ _ rfl
    exact ⟨trivial, .inl rfl⟩
  by_cases h2 : choice = 2
  · subst h2
    exact conforms_mono (fun _ _ h => .inr h) (conforms_edit .clear (by decide))
  by_cases h3 : choice = 3
  · subst h3
    exact conforms_mono (fun _ _ h => .inr h) (conforms_edit .set (by decide))
  rw [if_neg h1, if_neg h2, if_neg h3, chosen, if_neg h1, if_neg h2, if_neg h3]
  by_cases h0 : choice = 0
  · simp only [h0, ↓reduceIte, conforms_pure]
  · simp only [h0, ↓reduceIte, conforms_pure, or_true]

/-- A round either stays at the top of the menu with its new choice or picks one. -/
theorem conforms_menuRound (choice : UInt8) (key : InputKey) :
    Conforms protocol (menuRound (choice, key))
      (afterRound (fun x s' => s' = .top x.1 x.2) fun choice s' => s' = .picked choice)
      (.top choice key) := by
  have quiet : ∀ str, Quiet (.menu choice key) str := fun _ => ⟨trivial, rfl⟩
  simp only [menuRound, strOut, scrClear, asmReadMsr64, conforms_bind, conforms_reach,
    conforms_reset, conforms_outputString, conforms_rdmsr, conforms_waitForEvent,
    conforms_readKeyStroke, conforms_pure]
  refine ⟨rfl, trivial, trivial, trivial, trivial, trivial, fun _ => ⟨rfl, trivial, ?_⟩⟩
  show Conforms protocol _ _ (.menu choice key)
  refine conforms_mono ?_ (conforms_menu choice quiet)
  rintro _ _ rfl
  refine ⟨trivial, fun r => ⟨trivial, ?_⟩⟩
  show Conforms protocol _ _ (pressed choice (content key r))
  unfold pressed content
  cases press choice (r.stored.getD key) with
  | inl choice => rfl
  | inr choice => rfl

theorem conforms_menuloop (entry : s.allows .keyLocal)
    (enters : ∀ k, s.next ⟨.keyLocal, k⟩ = .top 1 k) :
    Conforms protocol menuloop (fun choice s' => s' = .picked choice) s := by
  simp only [menuloop, conforms_bind, conforms_keyLocal]
  intro k
  refine ⟨entry, ?_⟩
  rw [protocol_next, enters k]
  refine conforms_iter (fun x s' => s' = .top x.1 x.2) rfl ?_
  rintro ⟨choice, key⟩ _ rfl
  exact conforms_menuRound choice key

/-- By the invariant that a round of the loop starts where the menu is entered. -/
theorem conforms_mainLoop :
    Conforms protocol (mainLoop 1) (fun _ s' => s' = .off) .entering := by
  refine conforms_iter
    (fun choice s' => if choice = 0 then s' = .off else s' = .shown ∨ s' = .entering)
    (.inr rfl) fun choice s hs => ?_
  by_cases h : choice = 0
  · subst h
    exact hs
  · rw [if_neg h] at hs
    simp only [mainRound, ne_eq, h, not_false_eq_true, ↓reduceIte, conforms_bind, conforms_pure]
    have menu : Conforms protocol menuloop (fun choice s' => s' = .picked choice) s := by
      rcases hs with rfl | rfl
      · exact conforms_menuloop trivial fun _ => rfl
      · exact conforms_menuloop rfl fun _ => rfl
    refine conforms_mono ?_ menu
    rintro choice _ rfl
    exact conforms_choose choice

/-- **The program keeps to the session**, and returns only from a start-up poll that no key ended
or after `menuloop` returned 0. -/
theorem efiMain_conforms :
    Conforms protocol efiMain (fun _ s' => s' = .off ∨ ∃ k, s' = .boot 0 k) start := by
  simp only [efiMain, scrClear, toMsg, conforms_bind, conforms_reset, conforms_keyLocal]
  refine ⟨trivial, fun k => ⟨trivial, ?_⟩⟩
  show Conforms protocol _ _ (.boot 10 k)
  refine conforms_mono ?_ (conforms_strOut (polling_boot.quiet 10 k _))
  rintro _ _ rfl
  refine conforms_mono ?_ (conforms_pollKey polling_boot "." 9 0 k)
  rintro _ _ (⟨rfl, rfl⟩ | ⟨rfl, k, rfl⟩)
  · exact conforms_mono (fun _ _ h => .inl h) conforms_mainLoop
  · exact .inr ⟨k, rfl⟩

/-- **The invariants of a session**: what every step that a session allows keeps, of the events so
far and the state, holds at the end of every run of the program, whatever it runs on. -/
theorem session_law {W : Type} {E : Env (firmware Point) W} {w w' : W}
    {tr : List (Step (firmware Point) W)} {out : Option Status} (run : Run E w efiMain tr w' out)
    (Inv : List (Event (firmware Point)) → Session → Prop) (before : Inv [] start)
    (step : ∀ es s e, Inv es s → s.allows e.call → Inv (es ++ [e]) (s.next e)) :
    Inv (events tr) (protocol.state start (events tr)) := by
  refine (run.law efiMain_conforms (fun _ es => Inv es (protocol.state start es))
    (fun _ _ _ _ => True) before ?_).2
  intro _ es e _ inv allowed _
  refine ⟨trivial, ?_⟩
  rw [Protocol.state_append]
  exact step es _ e inv allowed

end ZeroProcHot.Tmp
