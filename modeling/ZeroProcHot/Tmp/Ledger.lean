import ZeroProcHot.Tmp.Dismiss
import ZeroProcHot.Tmp.Register

/-!
# The log of a session as a ledger

The actions of a session, the selections and the writes, kept in their order. `post` enters one
action: a write is entered only if it is the write of the change selected last, computed from the
register as the ledger has it. `efiMain_balances` shows that every log of every run can be entered
to its end, and that the register of the ledger is then the register of the machine.
-/

namespace ZeroProcHot.Tmp

open Interact Efi Session

/-- The change that may still be written, whether the session is over, and the register. -/
structure Ledger where
  offer : Option Change
  closed : Bool
  register : UInt64
  deriving DecidableEq, Repr

/-- The change that an item offers. -/
def offered (choice : UInt8) : Option Change :=
  if choice = 2 then some .clear else if choice = 3 then some .set else none

/-- Enter an action. -/
def post (l : Ledger) : Action → Option Ledger
  | .selected choice =>
    if l.closed then none else some ⟨offered choice, choice = 0, l.register⟩
  | .wrote addr low high =>
    match l.offer with
    | some c =>
      if addr = powerCtl ∧ halves (c.apply l.register) = ⟨low, high⟩ then
        some ⟨none, l.closed, c.apply l.register⟩
      else none
    | none => none

/-- The ledger before a session. -/
def opened (v : UInt64) : Ledger := ⟨none, false, v⟩

/-- The change a state is about. -/
def inHand : Session → Option Change
  | .editing c | .edited c _ | .prompted c _ | .waited c _ => some c
  | .asked c _ _ | .answered c _ _ | .cleared c _ _ => some c
  | _ => none

/-- What the ledger says of the machine at a state. -/
structure Agrees (l : Ledger) (v : UInt64) (s : Session) : Prop where
  register : l.register = v
  offer : ∀ c, inHand s = some c → l.offer = some c
  closed : l.closed = true → s = .off

/-- The log of some events can be entered, and the ledger agrees with the machine. -/
def Balanced (v₀ v : UInt64) (es : List (Event (firmware Point))) (s : Session) : Prop :=
  ∃ l, (es.filterMap action).foldlM post (opened v₀) = some l ∧ Agrees l v s

section Entering

variable {v₀ v v' : UInt64} {es : List (Event (firmware Point))} {e : Event (firmware Point)}
  {s s' : Session} {l : Ledger}

/-- An event that is no action is not entered. -/
theorem log_silent (silent : action e = none) :
    (es ++ [e]).filterMap action = es.filterMap action := by
  rw [List.filterMap_append, List.filterMap_cons_none silent, List.filterMap_nil, List.append_nil]

theorem post_last {a : Action} {l' : Ledger} (acts : action e = some a)
    (before : (es.filterMap action).foldlM post (opened v₀) = some l) (now : post l a = some l') :
    ((es ++ [e]).filterMap action).foldlM post (opened v₀) = some l' := by
  rw [List.filterMap_append, List.filterMap_cons_some acts, List.filterMap_nil, List.foldlM_append,
    before]
  show (post l a).bind some = some l'
  rw [now]
  rfl

theorem action_plain (plain : Plain e.call) : action e = none := by
  obtain ⟨call, r⟩ := e
  cases call with
  | reach p => exact plain.elim
  | wrmsr addr low high => exact plain.elim
  | _ => rfl

theorem ne_off (step : Move s e s') : s ≠ .off := by
  rintro rfl
  cases step with
  | plain isOpen _ => exact isOpen

/-- After a silent step the ledger agrees as before, when no change is newly in hand. -/
theorem agrees_silent (agrees : Agrees l v s) (step : Move s e s')
    (same : ∀ c, inHand s' = some c → inHand s = some c) : Agrees l v s' :=
  ⟨agrees.register, fun c h => agrees.offer c (same c h),
    fun closed => absurd (agrees.closed closed) (ne_off step)⟩

/-- The change in hand is the one that was selected. -/
theorem offered_of_chosen {choice : UInt8} {c : Change} (h : inHand (chosen choice) = some c) :
    offered choice = some c := by
  unfold chosen at h
  by_cases h1 : choice = 1
  · rw [if_pos h1] at h
    cases h
  rw [if_neg h1] at h
  unfold offered
  by_cases h2 : choice = 2
  · rw [if_pos h2] at h ⊢
    exact h
  rw [if_neg h2] at h ⊢
  by_cases h3 : choice = 3
  · rw [if_pos h3] at h ⊢
    exact h
  rw [if_neg h3] at h
  split at h <;> cases h

/-- Everything that is no selection and no write takes no change in hand. -/
theorem inHand_move (step : Move s e s') (silent : action e = none) {c : Change}
    (h : inHand s' = some c) : inHand s = some c := by
  cases step with
  | plain _ _ => exact h
  | bootRead =>
    rcases polled_cases (.boot _) _ with ⟨_, same⟩ | ⟨_, same⟩ <;> cases same ▸ h
  | messageRead =>
    rcases polled_cases (.message _) _ with ⟨_, same⟩ | ⟨_, same⟩ <;> cases same ▸ h
  | menuRead =>
    rcases pressed_cases _ _ with ⟨_, _, same⟩ | ⟨_, _, same⟩ <;> cases same ▸ h
  | choose => cases silent
  | write _ => cases silent
  | read | prompt | wait | ask | answer | clear => exact h
  | _ => cases h

/-- **One step**: a selection and a write can be entered, and the ledger agrees after them. -/
theorem balanced_step (kept : Kept v₀ v es) (balanced : Balanced v₀ v es (protocol.state start es))
    (allowed : (protocol.state start es).allows e.call) (step : keeping v e v') :
    Balanced v₀ v' (es ++ [e]) ((protocol.state start es).next e) := by
  obtain ⟨l, entered, agrees⟩ := balanced
  have moved := move allowed
  cases acts : action e with
  | none =>
    have same : v' = v := by
      refine keeping_same step fun addr low high write => ?_
      obtain ⟨call, r⟩ := e
      cases write
      cases acts
    refine ⟨l, (log_silent acts).symm ▸ entered, ?_⟩
    rw [same]
    exact agrees_silent agrees moved fun c h => inHand_move moved acts h
  | some a =>
    have current := kept.current
    generalize protocol.state start es = s at *
    generalize s.next e = s' at *
    cases moved with
    | @choose choice =>
      cases acts
      have same : v' = v := keeping_same step fun _ _ _ h => nomatch h
      have isOpen : l.closed = false := by
        cases hl : l.closed with
        | false => rfl
        | true => cases agrees.closed hl
      refine ⟨⟨offered choice, choice = 0, l.register⟩, post_last rfl entered ?_, ?_⟩
      · simp only [post, isOpen, Bool.false_eq_true, ↓reduceIte]
      · refine ⟨agrees.register.trans same.symm, fun c h => offered_of_chosen h, fun exit => ?_⟩
        rw [of_decide_eq_true exit]
        rfl
    | @write c val key yes =>
      cases acts
      obtain rfl := current val rfl
      obtain ⟨offer, closed, register⟩ := l
      obtain rfl : register = val := agrees.register
      obtain rfl : offer = some c := agrees.offer c rfl
      have after : v' = c.apply register := step.trans ((if_pos rfl).trans (value_halves _))
      refine ⟨⟨none, closed, c.apply register⟩, post_last rfl entered (if_pos ⟨rfl, rfl⟩), ?_⟩
      exact ⟨after.symm, nofun, fun h => nomatch agrees.closed h⟩
    | plain _ plain =>
      rw [action_plain plain] at acts
      cases acts
    | _ => cases acts

end Entering

/-- **The log balances.** On a platform where only the program changes the register, whatever the keys
and however a run is cut short, its log can be entered from the first action to the last: every write
is the one write of the change selected right before it. The ledger's register is the machine's. -/
theorem efiMain_balances {v₀ v : UInt64} {tr : List (Step (firmware Point) UInt64)}
    {out : Option Status} (run : Run keeping v₀ efiMain tr v out) :
    ∃ l, ((events tr).filterMap action).foldlM post (opened v₀) = some l ∧ l.register = v := by
  have start : Kept v₀ v₀ [] ∧ Balanced v₀ v₀ [] start :=
    ⟨⟨rfl, fun _ h => nomatch h⟩, opened v₀, rfl, rfl, nofun, nofun⟩
  have law := (run.law efiMain_conforms
    (fun v es => Kept v₀ v es ∧ Balanced v₀ v es (protocol.state Session.start es))
    (fun _ _ _ _ => True) start fun _ es e _ inv allowed step => ⟨trivial, ?_⟩).2
  · obtain ⟨_, l, entered, agrees⟩ := law
    exact ⟨l, entered, agrees.register⟩
  · rw [Protocol.state_append]
    exact ⟨kept_step inv.1 allowed step, balanced_step inv.1 inv.2 allowed step⟩

theorem efiMain_balances_clearSession :
    ∃ l, ((events (clearSession.steps.map (Step.map Script.register))).filterMap action).foldlM post
      (opened 5) = some l ∧ l.register = clearSession.world.register :=
  efiMain_balances clearSession_run

end ZeroProcHot.Tmp
