import ZeroProcHot.Efi.Platform
import ZeroProcHot.Tmp.Screen

/-!
# The window between the read and the write

The firmware may change bits 1 to 63 of the register while the program is inside one of its calls.
A change is computed from the read that fills its `0x1FC:` row, and the table, the question and the
wait for the answer lie between that read and the write. What is written is the `RESULT:` row as
shown: bits 1 to 63 go back to what they were at the read (`efiMain_restores`), so a write leaves
them as it finds them exactly when the firmware has changed none of them in between.

The proof remembers the events since the last marked point. At a write they are the call of `choose`
that selected the change, the read, the row of its value, and events without an access.
-/

namespace ZeroProcHot.Tmp

open Interact Efi

/-- The platform whose firmware may change bits 1 to 63 of the register in each of its calls. -/
def shared : Env (firmware Point) UInt64 := platform fun v v' => bit 0 v' = bit 0 v

/-- A change keeps the bits above bit 0. -/
theorem sameAbove_apply (c : Change) (v : UInt64) : SameAbove (c.apply v) v := by
  intro i _ hi
  have bits := Change.bit_applyAll [c] v i
  rw [if_neg hi] at bits
  exact bits

/-! ## The events since the last marked point -/

/-- An event that neither accesses the register nor marks a point. -/
def Uneventful (c : Call Point) : Prop := accesses c = none ∧ ∀ p, c ≠ .reach p

/-- Printing is uneventful. -/
theorem uneventful_outputString (s : String) : Uneventful (.outputString s) :=
  ⟨rfl, fun _ h => nomatch h⟩

/-- What is remembered after an event. -/
def remember (es : List (Event (firmware Point))) (e : Event (firmware Point)) :
    List (Event (firmware Point)) :=
  match e with
  | ⟨.reach p, r⟩ => [⟨.reach p, r⟩]
  | e => es ++ [e]

/-- An uneventful event is added to what is remembered. -/
theorem remember_uneventful (es : List (Event (firmware Point))) {e : Event (firmware Point)}
    (h : Uneventful e.call) : remember es e = es ++ [e] := by
  obtain ⟨c, r⟩ := e
  cases c with
  | reach p => exact absurd rfl (h.2 p)
  | _ => rfl

/-- What is remembered are the last events. -/
theorem remembered (es₀ es : List (Event (firmware Point))) :
    ∃ before, es₀ ++ es = before ++ es.foldl remember es₀ := by
  induction es generalizing es₀ with
  | nil => exact ⟨[], List.append_nil es₀⟩
  | cons e es ih =>
    obtain ⟨before, split⟩ := ih (remember es₀ e)
    obtain ⟨c, r⟩ := e
    cases c with
    | reach p =>
      refine ⟨es₀ ++ before, ?_⟩
      rw [List.append_assoc, List.foldl_cons, ← split]
      rfl
    | _ =>
      refine ⟨before, ?_⟩
      rw [List.foldl_cons, ← split]
      exact (List.append_assoc es₀ [_] es).symm

/-- The printing of a text. -/
def printing (s : String) : Event (firmware Point) := ⟨.outputString s, ()⟩

/-- **A change was computed from the read of its row**: since the call of `choose` that selected it
there is one access, the read of the value, and the row of that value is printed right after it. -/
structure FromRow (es : List (Event (firmware Point))) (c : Change) (v : UInt64) : Prop where
  split : ∃ (r : Halves) (rest : List (Event (firmware Point))),
    es = ⟨.reach (.choose c.item), ()⟩ :: ⟨.rdmsr powerCtl, r⟩ ::
      ((rowOf "\r\n 0x1FC: " v).map printing ++ rest) ∧
    r.value = v ∧ ∀ e ∈ rest, Uneventful e.call

/-- What follows the row may grow by uneventful events. -/
theorem FromRow.next {es : List (Event (firmware Point))} {c : Change} {v : UInt64}
    (h : FromRow es c v) {e : Event (firmware Point)} (plain : Uneventful e.call) :
    FromRow (remember es e) c v := by
  obtain ⟨r, rest, rfl, value, quiet⟩ := h.split
  refine ⟨r, rest ++ [e], ?_, value, ?_⟩
  · rw [remember_uneventful _ plain, List.cons_append, List.cons_append, List.append_assoc]
  · exact List.forall_mem_append.mpr ⟨quiet, List.forall_mem_singleton.mpr plain⟩

/-- What is written is a change of the value in its row. -/
def window : Protocol (firmware Point) (List (Event (firmware Point))) where
  next := remember
  allows es e :=
    match e.call with
    | .wrmsr addr low high =>
      addr = powerCtl ∧ ∃ c v, FromRow es c v ∧ Halves.value ⟨low, high⟩ = c.apply v
    | _ => True

/-! ## Programs that need no memory -/

/-- A program that keeps to the window whatever is remembered: it writes nothing, or writes a change
that it has read itself. -/
def Closed {α : Type} (p : C α) : Prop := ∀ es, Conforms window p (fun _ _ => True) es

section Closed

variable {α β σ : Type}

/-- A return calls nothing. -/
theorem closed_pure (a : α) : Closed (pure a) := fun _ => trivial

/-- Every call but a write is allowed, whatever is remembered. -/
theorem closed_invoke {c : Call Point} (h : ∀ addr low high, c ≠ .wrmsr addr low high) :
    Closed (invoke c) := by
  intro es r es' _
  refine ⟨?_, trivial⟩
  cases c with
  | wrmsr addr low high => exact absurd rfl (h addr low high)
  | _ => trivial

/-- The second program needs no more than any other memory. -/
theorem closed_bind {p : C α} {f : α → C β} (first : Closed p) (rest : ∀ a, Closed (f a)) :
    Closed (p >>= f) := fun es =>
  (conforms_bind p f _).mpr (conforms_mono (fun a es' _ => rest a es') (first es))

theorem closed_ite {c : Prop} [Decidable c] {p q : C α} (hp : Closed p) (hq : Closed q) :
    Closed (if c then p else q) := by
  split
  · exact hp
  · exact hq

/-- A loop over a list keeps to the window when its body does. -/
theorem closed_forM {ι : Type} {xs : List ι} {f : ι → C PUnit} (body : ∀ x, Closed (f x)) :
    Closed (forM xs f) := fun _ => conforms_forM (fun _ => True) trivial fun x _ es _ => body x es

/-- A loop without a bound keeps to the window when its round does. -/
theorem closed_iter {body : σ → C (σ ⊕ β)} (s : σ) (round : ∀ s, Closed (body s)) :
    Closed (Prog.iter body s) := by
  refine fun _ => conforms_iter (fun _ _ => True) trivial fun s es _ => ?_
  refine conforms_mono ?_ (round s es)
  rintro (_ | _) _ _ <;> trivial

theorem closed_strOut (s : String) : Closed (strOut s) :=
  closed_invoke fun _ _ _ h => nomatch h

theorem closed_scrClear : Closed scrClear := closed_invoke fun _ _ _ h => nomatch h

theorem closed_waitForEvent : Closed (waitForEvent : C Unit) :=
  closed_invoke fun _ _ _ h => nomatch h

theorem closed_stall (us : Nat) : Closed (stall us : C Unit) :=
  closed_invoke fun _ _ _ h => nomatch h

theorem closed_reach (p : Point) : Closed (reach p) := closed_invoke fun _ _ _ h => nomatch h

theorem closed_keyLocal : Closed (keyLocal : C InputKey) :=
  closed_invoke fun _ _ _ h => nomatch h

theorem closed_readKeyStroke (key : InputKey) : Closed (readKeyStroke key : C InputKey) :=
  closed_bind (closed_invoke fun _ _ _ h => nomatch h) fun _ => closed_pure _

/-- A read of the register is allowed anywhere. -/
theorem closed_asmReadMsr64 (addr : UInt32) : Closed (asmReadMsr64 addr) :=
  closed_bind (closed_invoke fun _ _ _ h => nomatch h) fun _ => closed_pure _

theorem closed_strRow (head : String) (data : UInt64) : Closed (strRow head data) :=
  closed_bind (closed_strOut _) fun _ => closed_bind (closed_strOut _) fun _ =>
    closed_forM fun _ => closed_strOut _

theorem closed_read0x1fc : Closed read0x1fc :=
  closed_bind (closed_asmReadMsr64 _) fun _ => closed_bind (closed_strRow _ _) fun _ =>
    closed_pure _

theorem closed_menu (choice : UInt8) : Closed (menu choice) := by
  refine closed_bind (closed_strOut _) fun _ => closed_bind (closed_strOut _) fun _ => ?_
  refine closed_forM fun i => ?_
  split
  all_goals
    exact closed_bind (closed_strOut _) fun _ => closed_bind (closed_strOut _) fun _ =>
      closed_strOut _

/-- By induction on the polls left. -/
theorem closed_pollKey (prog : String) (left i : Nat) (key : InputKey) :
    Closed (pollKey prog left i key) := by
  induction left generalizing i key with
  | zero => exact closed_pure 0
  | succ left ih =>
    have reading : Closed
        (do
          let key ← readKeyStroke key
          if dismisses key then return 1
          else do
            stall defStall
            pollKey prog left (i + 1) key) := by
      refine closed_bind (closed_readKeyStroke key) fun key => ?_
      refine closed_ite (closed_pure 1) ?_
      exact closed_bind (closed_stall defStall) fun _ => ih (i + 1) key
    rw [pollKey]
    split
    · exact closed_bind (closed_strOut prog) fun _ => reading
    · exact reading

/-- A message and its poll write nothing. -/
theorem closed_toMsg (msg : String) (timeout : UInt64) (prog : String) :
    Closed (toMsg msg timeout prog) :=
  closed_bind closed_keyLocal fun key => closed_bind (closed_strOut msg) fun _ =>
    closed_pollKey prog _ 0 key

/-- A round of the menu reads the register and writes nothing. -/
theorem closed_menuRound (x : UInt8 × InputKey) : Closed (menuRound x) := by
  obtain ⟨choice, key⟩ := x
  refine closed_bind (closed_reach _) fun _ => closed_bind closed_scrClear fun _ => ?_
  refine closed_bind (closed_strOut head0) fun _ => ?_
  refine closed_bind (closed_strOut head1) fun _ => ?_
  refine closed_bind (closed_strOut _) fun _ => closed_bind (closed_strOut _) fun _ => ?_
  refine closed_bind (closed_asmReadMsr64 _) fun _ => closed_bind (closed_strOut _) fun _ => ?_
  refine closed_bind (closed_menu choice) fun _ => ?_
  refine closed_bind closed_waitForEvent fun _ => ?_
  refine closed_bind (closed_readKeyStroke key) fun key => ?_
  cases press choice key <;> exact closed_pure _

/-- The menu writes nothing. -/
theorem closed_menuloop : Closed menuloop :=
  closed_bind closed_keyLocal fun key => closed_iter (1, key) closed_menuRound

end Closed

/-! ## A change -/

section Changes

variable {es : List (Event (firmware Point))} {c : Change} {v : UInt64}

/-- Between the row and the write there may be printing. -/
theorem fromRow_strOut (h : FromRow es c v) (s : String) :
    Conforms window (strOut s) (fun _ es => FromRow es c v) es :=
  (conforms_outputString s _).mpr ⟨trivial, h.next (e := printing s) (uneventful_outputString s)⟩

/-- A row of the table is printing. -/
theorem fromRow_strRow (h : FromRow es c v) (head : String) (data : UInt64) :
    Conforms window (strRow head data) (fun _ es => FromRow es c v) es := by
  unfold strRow
  refine (conforms_bind _ _ _).mpr (conforms_mono (fun _ es h => ?_) (fromRow_strOut h _))
  refine (conforms_bind _ _ _).mpr (conforms_mono (fun _ es h => ?_) (fromRow_strOut h head))
  exact conforms_forM (fun es => FromRow es c v) h fun i _ es h => fromRow_strOut h _

/-- So is the table. -/
theorem fromRow_table (h : FromRow es c v) (term : UInt64) (op : String) (result : UInt64) :
    Conforms window (table term op result) (fun _ es => FromRow es c v) es := by
  unfold table
  refine (conforms_bind _ _ _).mpr (conforms_mono (fun _ es h => ?_) (fromRow_strRow h op term))
  refine (conforms_bind _ _ _).mpr (conforms_mono (fun _ es h => ?_) (fromRow_strOut h _))
  refine (conforms_bind _ _ _).mpr (conforms_mono (fun _ es h => ?_) (fromRow_strOut h tblHL))
  exact fromRow_strRow h _ result

/-- What `strRow` adds to the events is its row. -/
theorem window_strRow (head : String) (data : UInt64) :
    Conforms window (strRow head data)
      (fun _ es' => es' = es ++ (rowOf head data).map printing) es := by
  have folded (es : List (Event (firmware Point))) (ss : List String) :
      (ss.map printing).foldl remember es = es ++ ss.map printing := by
    induction ss generalizing es with
    | nil => exact (List.append_nil es).symm
    | cons s ss ih => exact (ih (es ++ [printing s])).trans (List.append_assoc es [printing s] _)
  unfold strRow
  refine (conforms_bind _ _ _).mpr ((conforms_outputString _ _).mpr ⟨trivial, ?_⟩)
  refine (conforms_bind _ _ _).mpr ((conforms_outputString head _).mpr ⟨trivial, ?_⟩)
  refine wp_forM_foldl
    (fun es i => remember es (printing (if data &&& (1 <<< UInt64.ofNat i) ≠ 0 then "1" else "0")))
    (fun i es Q hQ => (conforms_outputString _ _).mpr ⟨trivial, hQ⟩) ?_
  have whole := folded es (rowOf head data)
  rw [rowOf, List.map_cons, List.map_cons, digits_eq, List.map_map, List.foldl_cons,
    List.foldl_cons, List.foldl_map] at whole
  rw [rowOf, List.map_cons, List.map_cons, digits_eq, List.map_map]
  exact whole

/-- `read_0x1fc`, right after the call of `choose`, leaves its read and its row. -/
theorem fromRow_read0x1fc :
    Conforms window read0x1fc (fun v es => FromRow es c v) [⟨.reach (.choose c.item), ()⟩] := by
  simp only [read0x1fc, asmReadMsr64, conforms_bind, conforms_rdmsr, conforms_pure]
  refine fun r => ⟨trivial, conforms_mono ?_ (window_strRow _ r.value)⟩
  rintro _ _ rfl
  refine ⟨r, [], ?_, rfl, fun _ h => absurd h List.not_mem_nil⟩
  rw [List.append_nil]
  rfl

/-- The question, the wait and the read of the answer are uneventful, so a write after a yes still
has the row behind it. -/
theorem window_confirmAndWrite (h : FromRow es c v) (msg : String) :
    Conforms window (confirmAndWrite (c.apply v) msg) (fun _ _ => True) es := by
  simp only [confirmAndWrite, conforms_bind, scrClear, conforms_waitForEvent, conforms_keyLocal,
    conforms_readKeyStroke, conforms_reset]
  refine conforms_mono (fun _ es h => ?_) (fromRow_strOut h msgConfirm)
  refine ⟨trivial, fun key => ⟨trivial, fun r => ⟨trivial, trivial, ?_⟩⟩⟩
  have waited := h.next (e := ⟨.waitForEvent, ()⟩) ⟨rfl, fun _ h => by cases h⟩
  have asked := waited.next (e := ⟨.keyLocal, key⟩) ⟨rfl, fun _ h => by cases h⟩
  have answered := asked.next (e := ⟨.readKeyStroke, r⟩) ⟨rfl, fun _ h => by cases h⟩
  have cleared := answered.next (e := ⟨.reset false, ()⟩) ⟨rfl, fun _ h => by cases h⟩
  split
  · exact closed_bind (closed_toMsg msgAbort 20 "") (fun _ => closed_pure _) _
  · simp only [asmWriteMsr64, conforms_bind, conforms_wrmsr, conforms_pure]
    have value : Halves.value ⟨(c.apply v).toUInt32, (c.apply v >>> 32).toUInt32⟩ = c.apply v :=
      value_halves _
    exact ⟨⟨rfl, c, v, cleared, value⟩, closed_toMsg msg 20 "" _⟩

/-- Options 2 and 3 in one: the row, the table and the question. -/
theorem window_edit (c : Change) (term : UInt64) (op msg : String) :
    Conforms window
      (do
        let val ← read0x1fc
        table term op (c.apply val)
        confirmAndWrite (c.apply val) msg)
      (fun _ _ => True) [⟨.reach (.choose c.item), ()⟩] := by
  refine (conforms_bind _ _ _).mpr (conforms_mono (fun val es h => ?_) fromRow_read0x1fc)
  refine (conforms_bind _ _ _).mpr (conforms_mono (fun _ es h => ?_) (fromRow_table h term op _))
  exact window_confirmAndWrite h msg

/-- `choose` marks its point first, so all that counts for its write is behind that mark. -/
theorem closed_choose (choice : UInt8) : Closed (choose choice) := by
  intro es
  simp only [choose, conforms_bind, conforms_reach]
  refine ⟨trivial, ?_⟩
  show Conforms window _ _ [⟨.reach (.choose choice), ()⟩]
  by_cases h1 : choice = 1
  · rw [if_pos h1]
    exact closed_bind closed_read0x1fc (fun _ => closed_waitForEvent) _
  by_cases h2 : choice = 2
  · subst h2
    exact window_edit .clear clearZero "   AND: " msgDisabled
  by_cases h3 : choice = 3
  · subst h3
    exact window_edit .set setZero "    OR: " msgEnabled
  rw [if_neg h1, if_neg h2, if_neg h3]
  trivial

end Changes

/-- Every write of the program is a change of the value in its row. -/
theorem efiMain_window : Conforms window efiMain (fun _ _ => True) [] := by
  have round (choice : UInt8) : Closed (mainRound choice) := by
    refine closed_ite ?_ (closed_pure _)
    exact closed_bind closed_menuloop fun choice => closed_bind (closed_choose choice)
      fun _ => closed_pure _
  refine closed_bind closed_scrClear (fun _ => ?_) []
  refine closed_bind (closed_toMsg msgInteractive 10 ".") fun keypressed => ?_
  split
  · exact closed_bind (closed_iter 1 round) fun _ => closed_pure _
  · exact closed_pure _

/-- **A write restores what the change read.** At every write of every run there is the call of
`choose` that selected the change, right after it the read that fills the `0x1FC:` row of that
change, and behind the row only calls that neither access the register nor select anything. What is
written is the change of the value read, so bits 1 to 63 are after the write what they were at that
read. They are what they were right before the write exactly when they had not changed since. -/
theorem efiMain_restores {v₀ v : UInt64} {tr : List (Step (firmware Point) UInt64)}
    {out : Option Status} (run : Run shared v₀ efiMain tr v out)
    {pre post : List (Step (firmware Point) UInt64)} {st : Step (firmware Point) UInt64}
    (cut : tr = pre ++ st :: post) {addr low high : UInt32}
    (write : st.event.call = .wrmsr addr low high) :
    ∃ (c : Change) (before : List (Step (firmware Point) UInt64))
        (selected rd : Step (firmware Point) UInt64)
        (row between : List (Step (firmware Point) UInt64)),
      pre = before ++ selected :: rd :: (row ++ between) ∧
      selected.event.call = .reach (.choose c.item) ∧ rd.event.call = .rdmsr powerCtl ∧
      row.map (fun st' => st'.event.call) =
        (rowOf "\r\n 0x1FC: " rd.before).map .outputString ∧
      (∀ st' ∈ row ++ between, accesses st'.event.call = none ∧ ∀ p, st'.event.call ≠ .reach p) ∧
      st.after = c.apply rd.before ∧ SameAbove st.after rd.before ∧
      (SameAbove st.after st.before ↔ SameAbove rd.before st.before) := by
  have steps := run.path.each
  have allowed := (run.follows efiMain_window).1 pre st post cut
  rw [cut] at steps
  obtain ⟨b, ⟨call, answer⟩, a⟩ := st
  obtain rfl := write
  obtain ⟨rfl, c, val, from_row, written⟩ := allowed
  obtain ⟨r, rest, remembers, value, quiet⟩ := from_row.split
  obtain ⟨first, split⟩ := remembered [] (events pre)
  have state : (events pre).foldl remember [] = _ := remembers
  rw [List.nil_append, state] at split
  obtain ⟨before, tail, rfl, _, tail_eq⟩ := List.map_eq_append_iff.mp split
  obtain ⟨selected, tail, rfl, selected_eq, tail_eq⟩ := List.map_eq_cons_iff.mp tail_eq
  obtain ⟨rd, tail, rfl, rd_eq, tail_eq⟩ := List.map_eq_cons_iff.mp tail_eq
  obtain ⟨row, between, rfl, row_eq, rfl⟩ := List.map_eq_append_iff.mp tail_eq
  have read : r = halves rd.before := by
    have step := steps rd (by simp)
    rw [rd_eq] at step
    exact step.1 rfl
  obtain rfl : val = rd.before := by rw [← value, read, value_halves]
  have after : a = c.apply rd.before := by
    have step := steps ⟨b, ⟨.wrmsr powerCtl low high, answer⟩, a⟩ (by simp)
    exact (step.trans (if_pos rfl)).trans written
  have restored : SameAbove a rd.before := by
    rw [after]
    exact sameAbove_apply c rd.before
  have calls : row.map (fun st' => st'.event.call) =
      (rowOf "\r\n 0x1FC: " rd.before).map .outputString := by
    have printed := congrArg (List.map Event.call) row_eq
    rw [List.map_map, List.map_map] at printed
    exact printed
  refine ⟨c, before, selected, rd, row, between, rfl, congrArg Event.call selected_eq,
    congrArg Event.call rd_eq, calls, ?_, after, restored, ?_⟩
  · refine List.forall_mem_append.mpr ⟨fun st' h => ?_, fun st' h => ?_⟩
    · have mem := List.mem_map_of_mem (f := fun st' => st'.event.call) h
      rw [calls] at mem
      obtain ⟨s, _, printed⟩ := List.mem_map.mp mem
      rw [← printed]
      exact uneventful_outputString s
    · exact quiet st'.event (List.mem_map_of_mem h)
  · constructor
    · intro kept i hi h0
      exact (restored i hi h0).symm.trans (kept i hi h0)
    · intro kept i hi h0
      exact (restored i hi h0).trans (kept i hi h0)

/-! ## A change that is lost -/

/-- Firmware that turns bit 1 of the register over in each wait. -/
def flipping (c : Call Point) (v : UInt64) : UInt64 := if c = .waitForEvent then v ^^^ 2 else v

theorem bit_flipping (c : Call Point) (v : UInt64) : bit 0 (flipping c v) = bit 0 v := by
  unfold flipping
  split
  · have xor : bit 0 (v ^^^ 2) = (bit 0 v ^^ bit 0 2) := BitVec.getLsbD_xor
    rw [xor]
    exact Bool.xor_false _
  · rfl

/-- Esc, option 2, a yes. -/
def rollbackScript : Script := ⟨[scanned scanEsc, typed '2', typed 'y'], ⟨0, 0⟩, 5⟩

/-- The session on the scripted machine whose firmware turns bit 1 over. -/
def rollbackSession : Execution (firmware Point) Script Status :=
  exec (script flipping) 10 efiMain rollbackScript

/-- The steps of the session with the register before and after each. -/
def rollbackSteps : List (Step (firmware Point) UInt64) :=
  rollbackSession.steps.map (Step.map Script.register)

/-- The session is a run on a platform that keeps bit 0 alone. -/
theorem rollbackSession_run :
    Run shared 5 efiMain rollbackSteps rollbackSession.world.register
      rollbackSession.outcome.value? := by
  unfold rollbackSteps rollbackSession
  exact @script_run _ _ flipping (fun v v' => bit 0 v' = bit 0 v) bit_flipping 10 efiMain
    rollbackScript

theorem rollbackSteps_length : 237 < rollbackSteps.length := by decide +kernel

/-- The write of the session. -/
def rollbackWrite : Step (firmware Point) UInt64 := rollbackSteps.get ⟨237, rollbackSteps_length⟩

/-- The session clears bit 0 of the 7 that it read and writes 6. -/
theorem rollbackWrite_call : rollbackWrite.event.call = .wrmsr powerCtl 6 0 := by decide +kernel

/-- The write sets bit 1, which the firmware had cleared since the read. -/
theorem rollback_write :
    ¬ ∀ (v₀ v : UInt64) (tr : List (Step (firmware Point) UInt64)) (out : Option Status),
      Run shared v₀ efiMain tr v out →
        ∀ pre st post, tr = pre ++ st :: post →
          ∀ addr low high, st.event.call = .wrmsr addr low high →
            SameAbove st.after st.before := by
  intro kept
  have same := kept _ _ _ _ rollbackSession_run _ rollbackWrite _ (cut_at _ _) _ _ _
    rollbackWrite_call
  revert same
  decide +kernel

theorem efiMain_restores_rollbackSession :
    rollbackWrite.before = 5 ∧ rollbackWrite.after = 6 ∧
    ∃ (c : Change) (before : List (Step (firmware Point) UInt64))
        (selected rd : Step (firmware Point) UInt64)
        (row between : List (Step (firmware Point) UInt64)),
      rollbackSteps.take 237 = before ++ selected :: rd :: (row ++ between) ∧
      selected.event.call = .reach (.choose c.item) ∧ rd.event.call = .rdmsr powerCtl ∧
      row.map (fun st => st.event.call) =
        (rowOf "\r\n 0x1FC: " rd.before).map .outputString ∧
      (∀ st ∈ row ++ between, accesses st.event.call = none ∧ ∀ p, st.event.call ≠ .reach p) ∧
      rollbackWrite.after = c.apply rd.before ∧ SameAbove rollbackWrite.after rd.before ∧
      (SameAbove rollbackWrite.after rollbackWrite.before ↔
        SameAbove rd.before rollbackWrite.before) :=
  ⟨by decide +kernel, by decide +kernel,
    efiMain_restores rollbackSession_run (cut_at _ rollbackSteps_length) rollbackWrite_call⟩

end ZeroProcHot.Tmp
