import Mathlib.Data.List.TakeWhile
import ZeroProcHot.Efi.Platform
import ZeroProcHot.Tmp.Protocol

/-!
# Reads that fail

Every read may fail, and then the key variable keeps what it held: what it was left with by the read
before, or what an uninitialised local happens to hold. No prompt looks at the status, so a failed
read counts as that key once more. `Confirmed` is the rule that no failed read may break;
`efiMain_confirmed` shows that the program breaks it only where a failed read finds a key in the
variable that means something to the prompt (`Harmless`), and `unconfirmedSession` is a run in which
the register is written that way.
-/

namespace ZeroProcHot.Tmp

open Interact Efi Session

/-! ## The rule -/

/-- The result of a read. -/
def readResult : Event (firmware Point) → Option ReadResult
  | ⟨.readKeyStroke, (r : ReadResult)⟩ => some r
  | _ => none

/-- The key that an event delivered: a read which reports success and stores it. -/
def delivered (e : Event (firmware Point)) : Option InputKey :=
  (readResult e).bind fun r => if r.status = .success then r.stored else none

/-- A read that reports a failure. -/
def Failed (e : Event (firmware Point)) : Prop := ∃ r ∈ readResult e, r.status ≠ .success

instance (e : Event (firmware Point)) : Decidable (Failed e) :=
  inferInstanceAs (Decidable (∃ r ∈ readResult e, _))

/-- A read reports success exactly when it stores a key. -/
def Reports (e : Event (firmware Point)) : Prop :=
  ∀ r ∈ readResult e, (r.status = .success ↔ r.stored.isSome)

instance (e : Event (firmware Point)) : Decidable (Reports e) :=
  inferInstanceAs (Decidable (∀ r ∈ readResult e, _))

/-- The marked point that an event reaches. -/
def mark (e : Event (firmware Point)) : Option Point :=
  match e.call with
  | .reach p => some p
  | _ => none

/-- The marked point that was reached last: it says which function reads the next key. -/
def lastMark (es : List (Event (firmware Point))) : Option Point := (es.filterMap mark).getLast?

/-- The events before the first marked point, all of the start-up `toMsg`. -/
def opening (es : List (Event (firmware Point))) : List (Event (firmware Point)) :=
  es.takeWhile fun e => (mark e).isNone

/-- The events end with a prompt of `ConfirmAndWrite` whose own read delivered a yes. -/
def answeredYes (es : List (Event (firmware Point))) : Bool :=
  match es.reverse with
  | ⟨.reset _, _⟩ :: read :: ⟨.keyLocal, _⟩ :: ⟨.waitForEvent, _⟩ :: ⟨.outputString s, _⟩ :: _ =>
    s = msgConfirm && (delivered read).any fun key => ¬ aborts key
  | _ => false

/-- A key that ends `toMsg` was delivered to the start-up `toMsg`. -/
def admitted (es : List (Event (firmware Point))) : Bool :=
  (opening es).any fun e => (delivered e).any fun key => dismisses key

/-- The last event is a read that failed in `menuloop`; the choice of the round. -/
def missed (es : List (Event (firmware Point))) : Option UInt8 :=
  match es.getLast?, lastMark es with
  | some e, some (.mnu choice) => if Failed e then some choice else none
  | _, _ => none

/-- **The rule for an event after others**: a write follows a yes delivered to its own prompt; the
menu is entered only after a key has admitted the user; and after a read that failed in `menuloop`
the next round has the same choice. -/
def Confirmed (es : List (Event (firmware Point))) (e : Event (firmware Point)) : Prop :=
  (∀ addr low high, e.call = .wrmsr addr low high → answeredYes es) ∧
  (∀ choice, e.call = .reach (.mnu choice) → admitted es) ∧
  ∀ choice, missed es = some choice → e.call = .reach (.mnu choice)

/-- The platform of `keeping`, whose failed reads store nothing and whose other reads store a key. -/
def failing : Env (firmware Point) UInt64 := fun v e v' => keeping v e v' ∧ Reports e

/-- What the key variable may hold when a read fails: nothing that ends the start-up `toMsg`, in the
menu a key that the menu ignores, and at the question a no. -/
def Harmless : Session → Prop
  | .boot _ key => ¬ dismisses key
  | .menu choice key => press choice key = .inl choice
  | .asked _ _ key => aborts key
  | _ => True

instance : DecidablePred Harmless
  | .boot _ _ => inferInstanceAs (Decidable (¬ _))
  | .menu _ _ => inferInstanceAs (Decidable (_ = _))
  | .asked _ _ key => inferInstanceAs (Decidable (aborts key))
  | .entering | .top _ _ | .picked _ | .shown | .editing _ | .edited _ _ | .prompted _ _
  | .waited _ _ | .answered _ _ _ | .cleared _ _ _ | .written | .message _ _ | .off =>
    inferInstanceAs (Decidable True)

/-- Every failed read among the events after a state finds a harmless key in the variable. -/
def AllHarmless : Session → List (Event (firmware Point)) → Prop
  | _, [] => True
  | s, e :: es => (Failed e → Harmless s) ∧ AllHarmless (s.next e) es

instance : (s : Session) → (es : List (Event (firmware Point))) → Decidable (AllHarmless s es)
  | _, [] => inferInstanceAs (Decidable True)
  | s, e :: es =>
    have := instDecidableAllHarmless (s.next e) es
    inferInstanceAs (Decidable (_ ∧ _))

/-- The condition at one failed read. -/
theorem AllHarmless.at {s : Session} {pre post : List (Event (firmware Point))}
    {e : Event (firmware Point)} (h : AllHarmless s (pre ++ e :: post)) (failed : Failed e) :
    Harmless (protocol.state s pre) := by
  induction pre generalizing s with
  | nil => exact h.1 failed
  | cons e' pre ih => exact ih h.2

/-! ## The events behind a state -/

/-- The question of `ConfirmAndWrite`. -/
def question : Event (firmware Point) := ⟨.outputString msgConfirm, ()⟩

/-- The way from the question to a state, the last event first. A key that is not a no has been
delivered. -/
def Trail : Session → List (Event (firmware Point)) → Prop
  | .prompted _ _, es => ∃ pre, es = question :: pre
  | .waited _ _, es => ∃ pre, es = ⟨.waitForEvent, ()⟩ :: question :: pre
  | .asked _ _ key, es => ∃ pre, es = ⟨.keyLocal, key⟩ :: ⟨.waitForEvent, ()⟩ :: question :: pre
  | .answered _ _ key, es => ∃ pre read k,
      es = read :: ⟨.keyLocal, k⟩ :: ⟨.waitForEvent, ()⟩ :: question :: pre ∧
      (aborts key ∨ delivered read = some key)
  | .cleared _ _ key, es => ∃ pre read k,
      es = ⟨.reset false, ()⟩ :: read :: ⟨.keyLocal, k⟩ :: ⟨.waitForEvent, ()⟩ :: question :: pre ∧
      (aborts key ∨ delivered read = some key)
  | _, _ => True

/-- Where the reads of a state are made. -/
def Placed : Session → Option Point → Prop
  | .boot _ _, p => p = none
  | .menu choice _, p => p = some (.mnu choice)
  | .entering, _ | .top _ _, _ | .picked _, _ | .off, _ => True
  | _, p => ∃ choice, p = some (.choose choice)

/-- What the events so far say, as long as every failed read was harmless. -/
structure Followed (es : List (Event (firmware Point))) (s : Session) : Prop where
  trail : Trail s es.reverse
  placed : Placed s (lastMark es)
  admitted : (∀ left key, s ≠ .boot left key) → admitted es
  missed : ∀ choice, missed es = some choice → ∃ key, s = .top choice key

/-- An event that marks a point is the last mark. -/
theorem lastMark_concat (es : List (Event (firmware Point))) (e : Event (firmware Point)) :
    lastMark (es ++ [e]) = (mark e).or (lastMark es) := by
  unfold lastMark
  rw [List.filterMap_append]
  cases h : mark e with
  | none =>
    rw [List.filterMap_cons_none h, List.filterMap_nil, List.append_nil]
    rfl
  | some p =>
    rw [List.filterMap_cons_some h, List.filterMap_nil]
    exact List.getLast?_concat

/-- Before the first marked point nothing is marked. -/
theorem unmarked_of_lastMark {es : List (Event (firmware Point))} (h : lastMark es = none) :
    ∀ e ∈ es, mark e = none :=
  List.filterMap_eq_nil_iff.mp (List.getLast?_eq_none_iff.mp h)

theorem admitted_mono {es : List (Event (firmware Point))} (e : Event (firmware Point))
    (h : admitted es) : admitted (es ++ [e]) := by
  unfold admitted opening at h ⊢
  rw [List.takeWhile_append]
  split
  · next all =>
    have whole := (List.takeWhile_prefix fun e => (mark e).isNone).eq_of_length all
    rw [whole] at h
    rw [List.any_append, h]
    rfl
  · exact h

/-- A key delivered before the first marked point admits the user. -/
theorem admitted_now {es : List (Event (firmware Point))} {e : Event (firmware Point)}
    {key : InputKey} (unmarked : ∀ e ∈ es, mark e = none) (read : mark e = none)
    (now : delivered e = some key) (ends : dismisses key) : admitted (es ++ [e]) := by
  have whole : opening (es ++ [e]) = es ++ [e] := by
    refine List.takeWhile_eq_self_iff.mpr fun e' h => ?_
    rcases List.mem_append.mp h with before | last
    · rw [unmarked e' before]
      rfl
    · rw [List.mem_singleton.mp last, read]
      rfl
  unfold admitted
  rw [whole, List.any_append]
  simp only [List.any_cons, now, Option.any_some, ends, decide_true, List.any_nil, Bool.or_true,
    Bool.or_false]

/-- A failed read marks no point. -/
theorem mark_of_failed {e : Event (firmware Point)} (failed : Failed e) : mark e = none := by
  obtain ⟨call, r⟩ := e
  obtain ⟨_, read, _⟩ := failed
  cases call with
  | readKeyStroke => rfl
  | _ => cases read

/-- A menu whose read failed is the one last marked. -/
theorem missed_concat {es : List (Event (firmware Point))} {e : Event (firmware Point)}
    {choice : UInt8} (h : missed (es ++ [e]) = some choice) :
    Failed e ∧ lastMark es = some (.mnu choice) := by
  unfold missed at h
  rw [List.getLast?_concat] at h
  by_cases failed : Failed e
  · rw [lastMark_concat, mark_of_failed failed, Option.none_or] at h
    cases last : lastMark es with
    | none =>
      rw [last] at h
      cases h
    | some p =>
      rw [last] at h
      cases p with
      | mnu c =>
        have same : some c = some choice := (if_pos failed).symm.trans h
        cases same
        exact ⟨failed, rfl⟩
      | choose c => cases h
  · cases last : lastMark (es ++ [e]) with
    | none =>
      rw [last] at h
      cases h
    | some p =>
      rw [last] at h
      cases p with
      | mnu c => exact absurd ((if_neg failed).symm.trans h) (by simp)
      | choose c => cases h

/-- A read delivers what the key variable then holds, or it fails and the variable is as before. -/
theorem content_cases {key : InputKey} {r : ReadResult}
    (reports : Reports ⟨.readKeyStroke, r⟩) :
    (¬ Failed ⟨.readKeyStroke, r⟩ ∧ delivered ⟨.readKeyStroke, r⟩ = some (content key r)) ∨
    (Failed ⟨.readKeyStroke, r⟩ ∧ content key r = key) := by
  obtain ⟨status, stored⟩ := r
  cases stored with
  | some k =>
    have success : status = .success := (reports _ rfl).mpr rfl
    refine .inl ⟨fun failed => ?_, if_pos success⟩
    obtain ⟨_, read, failed⟩ := failed
    cases read
    exact failed success
  | none =>
    refine .inr ⟨⟨_, rfl, fun success => ?_⟩, rfl⟩
    have stored := (reports _ rfl).mp success
    cases stored

/-! ## One step -/

variable {es : List (Event (firmware Point))} {e : Event (firmware Point)} {s s' : Session}

/-- One more event keeps the trail, given the condition at a failed read. -/
theorem trail_move (trail : Trail s es.reverse) (step : Move s e s')
    (reports : Reports e)
    (harmless : Failed e → Harmless s) : Trail s' (es ++ [e]).reverse := by
  rw [List.reverse_concat]
  cases step with
  | plain isOpen _ =>
    cases s with
    | boot | menu | shown | edited | message => trivial
    | _ => exact isOpen.elim
  | bootRead =>
    rcases polled_cases (.boot _) _ with ⟨_, same⟩ | ⟨_, same⟩ <;> rw [same] <;> trivial
  | messageRead =>
    rcases polled_cases (.message _) _ with ⟨_, same⟩ | ⟨_, same⟩ <;> rw [same] <;> trivial
  | menuRead =>
    rcases pressed_cases _ _ with ⟨_, _, same⟩ | ⟨_, _, same⟩ <;> rw [same] <;> trivial
  | choose =>
    rcases chosen_cases _ with ⟨_, same⟩ | same | same | ⟨_, same⟩ <;> rw [same] <;> trivial
  | prompt => exact ⟨es.reverse, rfl⟩
  | wait =>
    obtain ⟨pre, before⟩ := trail
    exact ⟨pre, congrArg _ before⟩
  | ask =>
    obtain ⟨pre, before⟩ := trail
    exact ⟨pre, congrArg _ before⟩
  | @answer c val key r =>
    obtain ⟨pre, before⟩ := trail
    refine ⟨pre, ⟨.readKeyStroke, r⟩, key, congrArg _ before, ?_⟩
    rcases @content_cases key r reports with ⟨_, now⟩ | ⟨failed, same⟩
    · exact .inr now
    · rw [same]
      exact .inl (harmless failed)
  | clear =>
    obtain ⟨pre, read, k, before, answer⟩ := trail
    exact ⟨pre, read, k, congrArg _ before, answer⟩
  | _ => trivial

/-- One more event keeps the mark of the place. -/
theorem placed_move (placed : Placed s (lastMark es)) (step : Move s e s') :
    Placed s' (lastMark (es ++ [e])) := by
  rw [lastMark_concat]
  cases step with
  | plain _ plain =>
    have unmarked : mark e = none := by
      obtain ⟨call, r⟩ := e
      cases call with
      | reach p => exact plain.elim
      | _ => rfl
    rw [unmarked]
    exact placed
  | bootRead =>
    rcases polled_cases (.boot _) _ with ⟨_, same⟩ | ⟨_, same⟩ <;> rw [same]
    · trivial
    · exact placed
  | messageRead =>
    rcases polled_cases (.message _) _ with ⟨_, same⟩ | ⟨_, same⟩ <;> rw [same]
    · trivial
    · exact placed
  | menuRead =>
    rcases pressed_cases _ _ with ⟨_, _, same⟩ | ⟨_, _, same⟩ <;> rw [same] <;> trivial
  | @choose choice =>
    rcases chosen_cases choice with ⟨_, same⟩ | same | same | ⟨_, same⟩ <;> rw [same]
    · trivial
    · exact ⟨choice, rfl⟩
    · trivial
    · exact ⟨choice, rfl⟩
  | draw => rfl
  | enter => trivial
  | dismiss => trivial
  | messageEnd => trivial
  | _ => exact placed

theorem admitted_move (booting : ∀ left key, s = .boot left key → lastMark es = none)
    (before : (∀ left key, s ≠ .boot left key) → admitted es) (step : Move s e s')
    (reports : Reports e)
    (harmless : Failed e → Harmless s) (beyond : ∀ left key, s' ≠ .boot left key) :
    admitted (es ++ [e]) := by
  by_cases hs : ∃ left key, s = .boot left key
  · obtain ⟨left, key, rfl⟩ := hs
    cases step with
    | plain _ _ => exact absurd rfl (beyond left key)
    | bootLocal => exact absurd rfl (beyond _ _)
    | @bootRead left key r =>
      rcases polled_cases (.boot left) (content key r) with ⟨ends, _⟩ | ⟨_, same⟩
      · rcases @content_cases key r reports with ⟨_, now⟩ | ⟨failed, same⟩
        · exact admitted_now (unmarked_of_lastMark (booting _ _ rfl)) rfl now ends
        · rw [same] at ends
          exact absurd ends (harmless failed)
      · exact absurd same (beyond left _)
  · exact admitted_mono e (before fun left key h => hs ⟨left, key, h⟩)

/-- After a failed read in the menu the program is at the top of the menu again. -/
theorem missed_move {choice : UInt8} (placed : Placed s (lastMark es)) (step : Move s e s')
    (reports : Reports e)
    (harmless : Failed e → Harmless s) (missing : missed (es ++ [e]) = some choice) :
    ∃ key, s' = .top choice key := by
  obtain ⟨failed, last⟩ := missed_concat missing
  obtain ⟨_, read, _⟩ := id failed
  rw [last] at placed
  cases step with
  | plain _ plain =>
    obtain ⟨call, r⟩ := e
    cases call with
    | readKeyStroke => exact plain.elim
    | _ => cases read
  | bootRead => cases placed
  | messageRead =>
    obtain ⟨_, placed⟩ := placed
    cases placed
  | answer =>
    obtain ⟨_, placed⟩ := placed
    cases placed
  | @menuRead choice key r =>
    cases placed
    have ignored : press choice key = .inl choice := harmless failed
    have same : content key r = key := by
      rcases @content_cases key r reports with ⟨delivered, _⟩ | ⟨_, same⟩
      · exact absurd failed delivered
      · exact same
    refine ⟨key, ?_⟩
    rw [same, pressed, ignored]
  | _ => cases read

/-- **What one step keeps.** -/
theorem followed_step (followed : Followed es s) (allowed : s.allows e.call)
    (reports : Reports e) (harmless : Failed e → Harmless s) :
    Followed (es ++ [e]) (s.next e) := by
  have step := move allowed
  have waiting : ∀ left key, s = .boot left key → lastMark es = none := by
    intro left key h
    have placed := followed.placed
    rw [h] at placed
    exact placed
  constructor
  case trail => exact trail_move followed.trail step reports harmless
  case placed => exact placed_move followed.placed step
  case admitted => exact admitted_move waiting followed.admitted step reports harmless
  case missed => exact fun _ => missed_move followed.placed step reports harmless

/-- **What a step that a session allows does not break.** -/
theorem confirmed_step (followed : Followed es s) (allowed : s.allows e.call) :
    Confirmed es e := by
  have step := move allowed
  generalize s.next e = s' at step
  refine ⟨fun addr low high write => ?_, fun choice enter => ?_, fun choice missing => ?_⟩
  · cases step with
    | plain _ plain =>
      rw [write] at plain
      exact plain.elim
    | write yes =>
      obtain ⟨pre, read, k, before, answer⟩ := followed.trail
      rcases answer with no | now
      · exact absurd no yes
      · unfold answeredYes
        rw [before]
        simp only [question, now, Option.any_some, yes, not_false_eq_true, decide_true,
          Bool.and_self]
    | _ => cases write
  · refine followed.admitted fun left key boot => ?_
    rw [boot] at allowed
    obtain ⟨call, r⟩ := e
    cases enter
    exact allowed
  · obtain ⟨key, rfl⟩ := followed.missed choice missing
    exact allowed

/-- **No write without a confirmation, as long as every failed read is harmless**: in every run whose
failed reads all find a harmless key in the variable, no event breaks the rule. -/
theorem efiMain_confirmed {v₀ v : UInt64} {tr : List (Step (firmware Point) UInt64)}
    {out : Option Status} (run : Run failing v₀ efiMain tr v out)
    (harmless : AllHarmless start (events tr)) :
    ∀ pre st post, tr = pre ++ st :: post → Confirmed (events pre) st.event := by
  have allowed := (run.follows efiMain_conforms).1
  have before : Followed [] start := by
    refine ⟨trivial, rfl, fun beyond => absurd rfl (beyond _ _), fun _ missing => ?_⟩
    cases missing
  have known : ∀ pre st post, tr = pre ++ st :: post → Failed st.event →
      Harmless (protocol.state start (events pre)) := by
    intro pre st post cut failed
    rw [cut, events_append, events_cons] at harmless
    exact harmless.at failed
  refine (run.path.law
    (fun _ es e _ => (protocol.state start es).allows e.call ∧
      (Failed e → Harmless (protocol.state start es)))
    (fun _ es e _ => Confirmed es e) (fun _ es => Followed es (protocol.state start es))
    (fun pre st post cut => ⟨allowed pre st post cut, known pre st post cut⟩) before ?_).1
  intro _ es e _ followed known step
  refine ⟨confirmed_step followed known.1, ?_⟩
  rw [Protocol.state_append]
  exact followed_step followed known.1 step.2 known.2

/-- The script machine is a failing platform when the reads of the script report what they do. -/
theorem script_failing {n : Nat} {w : Script}
    (reports : ∀ st ∈ (exec (script fun _ v => v) n efiMain w).steps, Reports st.event) :
    Run failing w.register efiMain
      ((exec (script fun _ v => v) n efiMain w).steps.map (Step.map Script.register))
      (exec (script fun _ v => v) n efiMain w).world.register
      (exec (script fun _ v => v) n efiMain w).outcome.value? := by
  have run := @script_run _ _ (fun _ v => v) (fun v v' => v' = v) (fun _ _ => rfl) n efiMain w
  refine run.restrict fun st hst => ?_
  obtain ⟨st', h, rfl⟩ := List.mem_map.mp hst
  exact reports st' h

/-- A poll with nothing pending, Esc, a failed read in the menu, option 2, a yes, a failed poll. -/
def stutterScript : Script :=
  ⟨[nothing, scanned scanEsc, ⟨.deviceError, none⟩, typed '2', typed 'y', nothing], ⟨0, 0⟩, 5⟩

/-- Its session: the failed read finds a key in the variable that the menu ignores. -/
def stutterSession : Execution (firmware Point) Script Status :=
  exec (script fun _ v => v) 10 efiMain stutterScript

theorem stutterSession_run :
    Run failing 5 efiMain (stutterSession.steps.map (Step.map Script.register))
      stutterSession.world.register stutterSession.outcome.value? := by
  unfold stutterSession
  exact @script_failing 10 stutterScript (by decide +kernel)

theorem efiMain_confirmed_stutterSession :
    stutterSession.world.register = 4 ∧
    ∀ pre st post, stutterSession.steps.map (Step.map Script.register) = pre ++ st :: post →
      Confirmed (events pre) st.event := by
  have harmless : AllHarmless start (events stutterSession.steps) := by decide +kernel
  rw [← events_map Script.register] at harmless
  exact ⟨by decide +kernel, efiMain_confirmed stutterSession_run harmless⟩

/-! ## A run that breaks it -/

/-- Esc, option 2, and a read that fails at the question, where the local happens to hold no key. -/
def unansweredScript : Script :=
  ⟨[scanned scanEsc, typed '2', ⟨.deviceError, none⟩], ⟨0, 0⟩, 5⟩

/-- Its session, which writes. -/
def unansweredSession : Execution (firmware Point) Script Status :=
  exec (script fun _ v => v) 10 efiMain unansweredScript

theorem unansweredSession_run :
    Run failing 5 efiMain (unansweredSession.steps.map (Step.map Script.register))
      unansweredSession.world.register unansweredSession.outcome.value? := by
  unfold unansweredSession
  exact @script_failing 10 unansweredScript (by decide +kernel)

theorem unansweredSession_length :
    237 < (unansweredSession.steps.map (Step.map Script.register)).length := by decide +kernel

/-- The register is written although the read of the question failed. -/
theorem unanswered_write :
    ¬ ∀ (v₀ v : UInt64) (tr : List (Step (firmware Point) UInt64)) (out : Option Status),
      Run failing v₀ efiMain tr v out →
        ∀ pre st post, tr = pre ++ st :: post → Confirmed (events pre) st.event := by
  intro rule
  have confirmed := rule _ _ _ _ unansweredSession_run _ _ _
    (cut_at _ unansweredSession_length)
  have yes := confirmed.1 powerCtl 4 0 (by decide +kernel)
  revert yes
  decide +kernel

end ZeroProcHot.Tmp
