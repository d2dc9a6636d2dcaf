import ZeroProcHot.Efi.Platform
import ZeroProcHot.Efi.Tariff
import ZeroProcHot.MsrEdit.Editor

/-!
# The work of the editor between two keys

With any key reader made of passes, the editor comes to its next wait after a bounded number of calls,
the longest way being the thousand polls of `KeyTimeout` (`program_prompt`), and its reads of the
keyboard pay for everything it does, so that on a keyboard with so many items every run is over, or
waits, after a number of calls in proportion (`program_finite`).
-/

namespace ZeroProcHot.MsrEdit

open Interact Efi

variable {σ : Type} {t : Tariff} {pause : Pause} {full left : Nat}

/-! ## Straight code -/

section Straight

theorem costs_tcOPrint (s : String) : Costs (t.meter pause full) t.output (tcOPrint s) :=
  costs_outputString s

theorem costs_printXY (s : String) (x y : Nat) :
    Costs (t.meter pause full) (2 * t.output) (printXY s x y) :=
  (costs_bind (costs_setCursorPosition x y) fun _ => costs_tcOPrint s).mono (by omega)

/-- Two calls for the title and five for each of the five items. -/
theorem costs_printMenu : Costs (t.meter pause full) (27 * t.output) printMenu := by
  have row (i : Nat) : Costs (t.meter pause full) (5 * t.output)
      (do
        printXY (charset (i % 5)) 3 (9 + i)
        tcOPrint ". "
        tcOPrint (menuLabel (i % 5))
        tcOPrint crlf : C Unit) :=
    (costs_bind (costs_printXY _ _ _) fun _ => costs_bind (costs_tcOPrint _) fun _ =>
      costs_bind (costs_tcOPrint _) fun _ => costs_tcOPrint _).mono (by omega)
  have rows := @costs_forM _ (t.meter pause full) (5 * t.output) _ (List.range' 1 5) _
    fun i _ => row i
  refine (costs_bind (costs_setCursorPosition 0 8) fun _ => costs_bind (costs_tcOPrint "Menu:")
    fun _ => rows).mono ?_
  rw [List.length_range']
  omega

/-- Two calls for each of the five marks. -/
theorem costs_printArrows (selected : UInt8) :
    Costs (t.meter pause full) (10 * t.output) (printArrows selected) := by
  have arrow (i : Nat) : Costs (t.meter pause full) (2 * t.output)
      (do
        let arrow := slct (if i % 5 = selected.toNat then 1 else 0)
        printXY arrow 0 (9 + i) : C Unit) := costs_printXY _ _ _
  have arrows := @costs_forM _ (t.meter pause full) (2 * t.output) _ (List.range' 1 5) _
    fun i _ => arrow i
  refine arrows.mono ?_
  rw [List.length_range']
  omega

end Straight

/-! ## From wait to wait -/

/-- By induction on the polls left. -/
theorem costs_pollKey (left : Nat) :
    Costs (t.meter .wait full) (left * (t.read + t.stall 10000)) (pollKey left) := by
  induction left with
  | zero => exact (costs_pure 0).mono (Nat.zero_le _)
  | succ left ih =>
    have poll := costs_bind (@costs_keyLocal Point t .wait full) fun key =>
      costs_bind (costs_readKeyStroke key) fun key =>
        costs_ite (c := key.unicodeChar = charCarriageReturn ∨ key.scanCode = scanEsc)
          ((costs_pure (S := firmware Point) (1 : UInt8)).mono (Nat.zero_le _))
          (costs_bind (costs_stall 10000) fun _ => ih)
    refine poll.mono ?_
    rw [Nat.succ_mul]
    omega

/-- A full meter pays for each way from one wait to the next: the start, a redraw of the arrows, and
the end. -/
structure Enough (t : Tariff) (full : Nat) : Prop where
  start : 39 * t.output ≤ full
  redraw : t.read + 10 * t.output ≤ full
  close : t.read + t.output + 1000 * (t.read + t.stall 10000) ≤ full

section Waits

/-- A reader begins with a wait, whatever is in the meter. -/
theorem reader_pays (enough : Enough t full) (f : σ → InputKey → σ ⊕ UInt8) (s : σ) :
    Conforms (t.meter .wait full).protocol (Prog.iter (keyIn f) s : C UInt8)
      (fun _ left' => full ≤ left' + t.read) left := by
  have redraw := enough.redraw
  refine conforms_iter (fun _ _ => True) trivial fun s left _ => ?_
  unfold keyIn
  refine wait_andThen ?_
  refine costs_keyLocal.andThen (by omega) fun key l₁ h₁ => ?_
  refine (costs_readKeyStroke key).andThen (by omega) fun key l₂ h₂ => (conforms_pure _ _).mpr ?_
  cases f s key with
  | inl s => trivial
  | inr item =>
    show full ≤ l₂ + t.read
    omega

/-- Each selection redraws the marks, and the wait for its key pays for the next one. -/
theorem menu_pays (enough : Enough t full) (reader : Reader σ) (current : UInt8)
    (pays : 10 * t.output ≤ left) :
    Conforms (t.meter .wait full).protocol (Prog.iter (select reader.board) current)
      (fun _ left' => full ≤ left' + t.read) left := by
  have redraw := enough.redraw
  refine conforms_iter (fun _ left' => 10 * t.output ≤ left') pays fun current left pays => ?_
  unfold select
  refine (costs_reach _).andThen (by omega) fun _ l₁ h₁ => ?_
  refine (costs_printArrows current).andThen (by omega) fun _ l₂ h₂ => ?_
  refine (costs_reach _).andThen (by omega) fun _ l₃ h₃ => ?_
  rw [reader.passes, conforms_bind]
  refine conforms_mono (fun item l₄ h₄ => ?_) (reader_pays enough _ (reader.start current))
  rw [conforms_ite, conforms_ite]
  split
  · exact h₄
  split
  · exact h₄
  · show 10 * t.output ≤ l₄
    omega

/-- **The program can be paid for from wait to wait**, whatever the prices and the reader. -/
theorem program_pays (enough : Enough t full) (reader : Reader σ) :
    Conforms (t.meter .wait full).protocol (program reader.board) (fun _ _ => True) full := by
  have start := enough.start
  have close := enough.close
  unfold program menu
  refine (costs_tcOPrint head0).andThen (by omega) fun _ l₁ h₁ => ?_
  refine (costs_tcOPrint crlf).andThen (by omega) fun _ l₂ h₂ => ?_
  rw [conforms_bind]
  refine costs_printMenu.andThen (by omega) fun _ l₃ h₃ => ?_
  refine conforms_mono (fun selected l₄ h₄ => ?_) (menu_pays enough reader 1 (by omega))
  refine (costs_tcOPrint _).andThen (by omega) fun _ l₅ h₅ => ?_
  exact (costs_pollKey 1000).andThen (by omega) fun _ _ _ => trivial

end Waits

/-! ## No loop without a wait -/

section Lively

theorem straight_printXY (s : String) (x y : Nat) : (printXY s x y).Straight :=
  Prog.straight_bind (Prog.straight_perform _) fun _ => Prog.straight_perform _

theorem straight_printMenu : printMenu.Straight := by
  refine Prog.straight_bind (Prog.straight_perform _) fun _ => ?_
  refine Prog.straight_bind (Prog.straight_perform _) fun _ => Prog.straight_forM fun i _ => ?_
  refine Prog.straight_bind (straight_printXY _ _ _) fun _ => ?_
  refine Prog.straight_bind (Prog.straight_perform _) fun _ => ?_
  exact Prog.straight_bind (Prog.straight_perform _) fun _ => Prog.straight_perform _

theorem straight_printArrows (selected : UInt8) : (printArrows selected).Straight :=
  Prog.straight_forM fun _ _ => straight_printXY _ _ _

/-- One wait and one read. -/
theorem straight_keyIn {β : Type} (f : σ → InputKey → σ ⊕ β) (s : σ) : (keyIn f s).Straight := by
  refine Prog.straight_bind (Prog.straight_perform _) fun _ => ?_
  refine Prog.straight_bind (Prog.straight_perform _) fun key => ?_
  exact Prog.straight_bind (straight_readKeyStroke key) fun _ => Prog.straight_pure _

/-- By induction on the polls left. -/
theorem straight_pollKey (left : Nat) : (pollKey left).Straight := by
  induction left with
  | zero => exact Prog.straight_pure _
  | succ left ih =>
    refine Prog.straight_bind (Prog.straight_perform _) fun key => ?_
    refine Prog.straight_bind (straight_readKeyStroke key) fun key => ?_
    refine Prog.straight_ite (Prog.straight_pure _) ?_
    exact Prog.straight_bind (Prog.straight_perform _) fun _ => ih

/-- A pass begins with a wait. -/
theorem keyIn_pauses {β : Type} {Q : σ ⊕ β → Prop} (f : σ → InputKey → σ ⊕ β) (s : σ) :
    (keyIn f s).Unpaused IsWait Q := by
  have wait : IsWait (.waitForEvent : Call Point) := rfl
  exact Prog.unpaused_perform wait _

/-- A round of `menu` calls the reader, which waits. -/
theorem select_pauses {Q : UInt8 ⊕ UInt8 → Prop} (reader : Reader σ) (current : UInt8) :
    (select reader.board current).Unpaused IsWait Q := by
  unfold select
  refine (Prog.straight_perform _).unpaused_bind fun _ => ?_
  refine (straight_printArrows current).unpaused_bind fun _ => ?_
  refine (Prog.straight_perform _).unpaused_bind fun _ => ?_
  rw [reader.passes]
  exact Prog.unpaused_bind (keyIn_pauses _ _)

/-- **No loop of the editor goes round without a wait**, with any key reader made of passes. -/
theorem program_lively (reader : Reader σ) : (program reader.board).Lively IsWait := by
  have board (current : UInt8) : (reader.board current 4).Lively IsWait := by
    rw [reader.passes]
    exact Prog.lively_iter _ (fun s => (straight_keyIn _ s).lively) fun s => keyIn_pauses _ s
  have round (current : UInt8) : (select reader.board current).Lively IsWait := by
    unfold select
    refine Prog.lively_bind (Prog.straight_perform _).lively fun _ => ?_
    refine Prog.lively_bind (straight_printArrows current).lively fun _ => ?_
    refine Prog.lively_bind (Prog.straight_perform _).lively fun _ => ?_
    refine Prog.lively_bind (board current) fun item => ?_
    refine Prog.lively_ite (Prog.straight_pure _).lively ?_
    exact Prog.lively_ite (Prog.straight_pure _).lively (Prog.straight_pure _).lively
  unfold program menu
  refine Prog.lively_bind (Prog.straight_perform _).lively fun _ => ?_
  refine Prog.lively_bind (Prog.straight_perform _).lively fun _ => ?_
  refine Prog.lively_bind (Prog.lively_bind straight_printMenu.lively fun _ => ?_) fun selected => ?_
  · exact Prog.lively_iter 1 round fun current => select_pauses reader current
  refine Prog.lively_bind (Prog.straight_perform _).lively fun _ => ?_
  exact Prog.lively_bind (straight_pollKey 1000).lively fun _ => (Prog.straight_pure _).lively

end Lively

/-- **The editor never spins.** With any key reader made of passes, in every run, whatever the firmware
answers and wherever the run stops, a stretch without a wait for a key makes at most 2002 calls and
stalls for at most ten seconds; and where the calls are answered, every run can go on without a wait to
the end of the program or to its next wait. -/
theorem program_prompt (reader : Reader σ) {W : Type} {E : Env (firmware Point) W} {w w' : W}
    {tr : List (Step (firmware Point) W)} {out : Option Status}
    (run : Run E w (program reader.board) tr w' out) :
    (∀ pre mid post, tr = pre ++ mid ++ post →
      (∀ st ∈ mid, st.event.call ≠ .waitForEvent) → effort mid ≤ 2002 ∧ stalled mid ≤ 10000000) ∧
    (Answers E → ∃ more w'', (∀ st ∈ more, st.event.call ≠ .waitForEvent) ∧
      ((∃ status, Run E w (program reader.board) (tr ++ more) w'' (some status)) ∨
        ∃ k, Stands E w (program reader.board) (tr ++ more) w'' (.call .waitForEvent k))) := by
  have calls : Enough Tariff.calls 2002 := ⟨by decide, by decide, by decide⟩
  have stalls : Enough Tariff.stalls 10000000 := ⟨by decide, by decide, by decide⟩
  exact ⟨fun pre mid post cut unattended =>
    ⟨effort_stretch run (program_pays calls reader) cut unattended,
      stalled_stretch run (program_pays stalls reader) cut unattended⟩,
    fun answers => reaches_wait (program_lively reader) answers run⟩

/-- An item is chosen, and then nobody is there to close the program. -/
def enterAndGone : Execution (firmware Point) Console Status :=
  exec console 6 (program Reader.library.board)
    ⟨[], some ⟨0, charCarriageReturn⟩ :: .replicate 1000 none, .const ⟨0, 0⟩, 0⟩

/-- From the wait of `HexBoard` to the end of `KeyTimeout`. -/
def goneStretch : List (Step (firmware Point) Console) := enterAndGone.steps.drop 42

/-- The bound on the calls is reached, and where nothing has been done yet the program can come to its
first wait. -/
theorem program_prompt_goneStretch :
    (effort goneStretch = 2002 ∧ effort goneStretch ≤ 2002 ∧ stalled goneStretch ≤ 10000000) ∧
    ∃ more v, (∀ st ∈ more, st.event.call ≠ .waitForEvent) ∧
      ((∃ status, Run keeping 5 (program Reader.library.board) more v (some status)) ∨
        ∃ k, Stands keeping 5 (program Reader.library.board) more v (.call .waitForEvent k)) := by
  have cut : enterAndGone.steps = enterAndGone.steps.take 42 ++ goneStretch ++ [] := by
    rw [List.append_nil, goneStretch, List.take_append_drop]
  have prompt := program_prompt .library
    (exec_run console 6 (program Reader.library.board)
      ⟨[], some ⟨0, charCarriageReturn⟩ :: .replicate 1000 none, .const ⟨0, 0⟩, 0⟩)
  have unstarted := program_prompt .library
    (.stop : Run keeping 5 (program Reader.library.board) [] 5 none)
  have facts : effort goneStretch = 2002 ∧ ∀ st ∈ goneStretch, st.event.call ≠ .waitForEvent := by
    decide +kernel
  exact ⟨⟨facts.1, prompt.1 _ _ _ cut facts.2⟩, unstarted.2 answers_keeping⟩

/-! ## From read to read -/

/-- By induction on the polls left. -/
theorem pollKey_reads (pays : t.stall 10000 ≤ full) (polls : Nat) :
    Conforms (t.meter .read full).protocol (pollKey polls) (fun _ _ => True) left := by
  induction polls generalizing left with
  | zero => trivial
  | succ polls ih =>
    rw [pollKey]
    refine costs_keyLocal.andThen (by omega) fun key l₁ h₁ => ?_
    refine read_andThen fun key => ?_
    rw [conforms_ite]
    split
    · trivial
    · exact (costs_stall 10000).andThen pays fun _ _ _ => ih

/-- A full meter pays for each way from one read to the next: a redraw of the arrows and a wait, the
number that is printed at the end, and a poll. -/
structure Affords (t : Tariff) (full : Nat) : Prop where
  redraw : 10 * t.output + t.wait ≤ full
  close : t.stall 10000 ≤ full

section Reads

/-- Each round of a reader has a read of its own. -/
theorem reader_reads (affords : Affords t full) (f : σ → InputKey → σ ⊕ UInt8) (s : σ)
    (pays : t.wait ≤ left) :
    Conforms (t.meter .read full).protocol (Prog.iter (keyIn f) s : C UInt8)
      (fun _ left' => full ≤ left') left := by
  have redraw := affords.redraw
  refine conforms_iter (fun _ left' => t.wait ≤ left') pays fun s left pays => ?_
  unfold keyIn
  refine costs_waitForEvent.andThen pays fun _ l₁ h₁ => ?_
  refine costs_keyLocal.andThen (by omega) fun key l₂ h₂ => ?_
  refine read_andThen fun key => (conforms_pure _ _).mpr ?_
  cases f s key with
  | inl s =>
    show t.wait ≤ full
    omega
  | inr item => exact Nat.le_refl full

/-- By the invariant that the redraw and the wait of the next round are paid for. -/
theorem menu_reads (affords : Affords t full) (reader : Reader σ) (current : UInt8)
    (pays : 10 * t.output + t.wait ≤ left) :
    Conforms (t.meter .read full).protocol (Prog.iter (select reader.board) current)
      (fun _ left' => full ≤ left') left := by
  have redraw := affords.redraw
  refine conforms_iter (fun _ left' => 10 * t.output + t.wait ≤ left') pays
    fun current left pays => ?_
  unfold select
  refine (costs_reach _).andThen (by omega) fun _ l₁ h₁ => ?_
  refine (costs_printArrows current).andThen (by omega) fun _ l₂ h₂ => ?_
  refine (costs_reach _).andThen (by omega) fun _ l₃ h₃ => ?_
  rw [reader.passes, conforms_bind]
  refine conforms_mono (fun item l₄ h₄ => ?_)
    (reader_reads affords _ (reader.start current) (by omega))
  rw [conforms_ite, conforms_ite]
  split
  · exact h₄
  split
  · exact h₄
  · show 10 * t.output + t.wait ≤ l₄
    omega

/-- **The reads pay for the program**, whatever the prices and the reader; only the start is paid for
beforehand. -/
theorem program_reads (affords : Affords t full) (reader : Reader σ)
    (pays : 39 * t.output + t.wait ≤ left) :
    Conforms (t.meter .read full).protocol (program reader.board) (fun _ _ => True) left := by
  have redraw := affords.redraw
  unfold program menu
  refine (costs_tcOPrint head0).andThen (by omega) fun _ l₁ h₁ => ?_
  refine (costs_tcOPrint crlf).andThen (by omega) fun _ l₂ h₂ => ?_
  rw [conforms_bind]
  refine costs_printMenu.andThen (by omega) fun _ l₃ h₃ => ?_
  refine conforms_mono (fun selected l₄ h₄ => ?_) (menu_reads affords reader 1 (by omega))
  refine (costs_tcOPrint _).andThen (by omega) fun _ l₅ h₅ => ?_
  refine (conforms_bind _ _ _).mpr (conforms_mono ?_ (pollKey_reads affords.close 1000))
  exact fun _ _ _ => trivial

end Reads

/-! ## The end of every run -/

/-- With only the accesses to a register priced, nothing has to be paid. -/
def accessTariff : Tariff := ⟨0, 0, 0, 0, fun _ => 0, 1⟩

/-- The editor accesses no register, wherever it stands. -/
theorem stands_accesses (reader : Reader σ) {w w' : Console}
    {tr : List (Step (firmware Point) Console)} {c : Call Point} {k : Answer c → C Status}
    (stands : Stands console.env w (program reader.board) tr w' (.call c k)) (addr : UInt32)
    (access : accesses c = some addr) : addr = powerCtl := by
  have free : Enough accessTariff 0 := ⟨by decide, by decide, by decide⟩
  have kept := stands.follows (program_pays free reader)
  have empty := @Meter.state_le _ (accessTariff.meter .wait 0) (events tr)
  have dear (r : Answer c) (price : accessTariff.price c = 1) (dry : Pause.wait.fills c = false) :
      False := by
    rcases (kept r _ rfl).1 with fills | paid
    · exact Bool.false_ne_true (dry.symm.trans fills)
    · have none : accessTariff.price c ≤ 0 := Nat.le_trans paid empty
      omega
  cases c with
  | rdmsr _ => exact (dear ⟨0, 0⟩ rfl rfl).elim
  | wrmsr _ _ _ => exact (dear () rfl rfl).elim
  | _ => cases access

/-- With more rounds than items no loop uses up its rounds. -/
theorem program_settles (reader : Reader σ) {n : Nat} {w : Console} (enough : w.keys.length < n) :
    (exec console n (program reader.board) w).outcome ≠ .unfinished := by
  intro unfinished
  have seen := congrArg Result.outcome (@program_desk _ reader _ w enough)
  have left : (seenOf (session n (program reader.board) w)).outcome = .unfinished := by
    simp only [seenOf, session, play, Result.watch, Result.report, unfinished]
  rw [left] at seen
  have ends := (desk reader).play_outcome (.reading 1 (reader.start 1) w.junk) w.keys
  rcases ends with waits | ⟨rest, stops⟩
  · cases seen.trans waits
  · cases seen.trans stops

/-- **No run of the editor goes on for ever.** With any key reader made of passes, on a keyboard with
`k` items to come there is a run of at most `12 * k` calls and forty more, which asks to be stalled for
at most `k` hundredths of a second, and of which every run is a beginning. It has ended: the program
has returned, or it waits for a key and none is to come, or it polls the keyboard and no item is
left. -/
theorem program_finite (reader : Reader σ) (w : Console) :
    ∃ whole w', Whole console.env w (program reader.board) whole ∧
      Ended w (program reader.board) whole w' ∧
      effort whole ≤ 40 + 12 * w.keys.length ∧ stalled whole ≤ 10000 * w.keys.length := by
  have settled := @program_settles _ reader (w.keys.length + 1) w (Nat.lt_succ_self _)
  have run := exec_run console (w.keys.length + 1) (program reader.board) w
  refine ⟨_, _, exec_whole settled, exec_ended settled (stands_accesses reader), ?_⟩
  have calls : Affords Tariff.calls 11 := ⟨by decide, by decide⟩
  have stalls : Affords Tariff.stalls 10000 := ⟨by decide, by decide⟩
  have made := effort_total run (@program_reads _ _ _ 40 calls reader (by decide))
  have asked := stalled_total run (@program_reads _ _ _ 0 stalls reader (by decide))
  have taken := reads_le run.path
  constructor <;> omega

end ZeroProcHot.MsrEdit
