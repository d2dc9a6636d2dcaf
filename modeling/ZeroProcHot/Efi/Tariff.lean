import ZeroProcHot.Efi.Console
import ZeroProcHot.Interact.Work

/-!
# What the calls of the firmware cost

A tariff prices each kind of call; the marks of the model and the declaration of a local cost nothing.
The meter is filled by a pause of the program: either by the waits for a key or by the reads of the
keyboard.
-/

namespace ZeroProcHot.Efi

open Interact

variable {P α : Type}

/-- The prices: of a text or cursor output, of clearing the screen, of a read of the keyboard, of a
wait for a key, of a stall by its length, and of an access to a register. -/
structure Tariff where
  output : Nat
  clear : Nat
  read : Nat
  wait : Nat
  stall : Nat → Nat
  register : Nat

/-- A wait for a key. -/
def IsWait (c : Call P) : Prop := c = .waitForEvent

/-- What fills the meter. -/
inductive Pause where
  | wait
  | read
  deriving DecidableEq, Repr

/-- The calls that are a pause. -/
def Pause.fills : Pause → Call P → Bool
  | .wait, .waitForEvent => true
  | .read, .readKeyStroke => true
  | _, _ => false

namespace Tariff

/-- What a call costs. -/
def price (t : Tariff) : Call P → Nat
  | .outputString _ | .setCursorPosition _ _ => t.output
  | .reset _ => t.clear
  | .readKeyStroke => t.read
  | .waitForEvent => t.wait
  | .stall us => t.stall us
  | .rdmsr _ | .wrmsr _ _ _ => t.register
  | .keyLocal | .reach _ => 0

/-- The meter with these prices. -/
def meter (t : Tariff) (pause : Pause) (full : Nat) : Meter (firmware P) :=
  ⟨fun e => t.price e.call, fun e => pause.fills e.call = true, fun _ => inferInstance, full⟩

/-- Every call counts once. -/
def calls : Tariff := ⟨1, 1, 1, 1, fun _ => 1, 1⟩

/-- Only the time counts that a stall asks for, in microseconds. -/
def stalls : Tariff := ⟨0, 0, 0, 0, fun us => us, 0⟩

end Tariff

section Rules

variable {t : Tariff} {pause : Pause} {full left : Nat}

/-- A call that is no pause costs its price. -/
theorem costs_invoke {c : Call P} (h : pause.fills c = false) :
    Costs (t.meter pause full) (t.price c) (invoke c : Prog (firmware P) (Answer c)) :=
  costs_perform (fun _ fills => Bool.false_ne_true (h.symm.trans fills)) fun _ => Nat.le_refl _

/-- The price of a text. -/
theorem costs_outputString (s : String) :
    Costs (t.meter pause full) t.output (outputString s : Prog (firmware P) Unit) :=
  @costs_invoke P t pause full (.outputString s) (by cases pause <;> rfl)

theorem costs_setCursorPosition (column row : Nat) :
    Costs (t.meter pause full) t.output (setCursorPosition column row : Prog (firmware P) Unit) :=
  @costs_invoke P t pause full (.setCursorPosition column row) (by cases pause <;> rfl)

theorem costs_reset (x : Bool) :
    Costs (t.meter pause full) t.clear (reset x : Prog (firmware P) Unit) :=
  @costs_invoke P t pause full (.reset x) (by cases pause <;> rfl)

/-- The price of a stall, by its length. -/
theorem costs_stall (us : Nat) :
    Costs (t.meter pause full) (t.stall us) (stall us : Prog (firmware P) Unit) :=
  @costs_invoke P t pause full (.stall us) (by cases pause <;> rfl)

theorem costs_rdmsr (addr : UInt32) :
    Costs (t.meter pause full) t.register (rdmsr addr : Prog (firmware P) Halves) :=
  @costs_invoke P t pause full (.rdmsr addr) (by cases pause <;> rfl)

theorem costs_wrmsr (addr low high : UInt32) :
    Costs (t.meter pause full) t.register (wrmsr addr low high : Prog (firmware P) Unit) :=
  @costs_invoke P t pause full (.wrmsr addr low high) (by cases pause <;> rfl)

/-- A declaration costs nothing. -/
theorem costs_keyLocal :
    Costs (t.meter pause full) 0 (keyLocal : Prog (firmware P) InputKey) :=
  @costs_invoke P t pause full .keyLocal (by cases pause <;> rfl)

theorem costs_reach (p : P) :
    Costs (t.meter pause full) 0 (reach p : Prog (firmware P) Unit) :=
  @costs_invoke P t pause full (.reach p) (by cases pause <;> rfl)

/-- Between two waits a read is paid for. -/
theorem costs_readKeyStroke (key : InputKey) :
    Costs (t.meter .wait full) t.read (readKeyStroke key : Prog (firmware P) InputKey) := by
  have read : Costs (t.meter .wait full) t.read
      (invoke .readKeyStroke : Prog (firmware P) ReadResult) :=
    @costs_invoke P t .wait full .readKeyStroke rfl
  exact costs_bind read fun r => costs_pure (r.stored.getD key)

/-- Between two reads a wait is paid for. -/
theorem costs_waitForEvent :
    Costs (t.meter .read full) t.wait (waitForEvent : Prog (firmware P) Unit) :=
  @costs_invoke P t .read full .waitForEvent rfl

/-- A wait fills the meter. -/
theorem wait_andThen {f : Unit → Prog (firmware P) α} {Q : α → Nat → Prop}
    (next : Conforms (t.meter .wait full).protocol (f ()) Q full) :
    Conforms (t.meter .wait full).protocol (waitForEvent >>= f) Q left := by
  rw [conforms_bind, conforms_waitForEvent]
  exact ⟨.inl rfl, by rw [Meter.next_full (by rfl)]; exact next⟩

/-- A read fills the meter. -/
theorem read_andThen {key : InputKey} {f : InputKey → Prog (firmware P) α} {Q : α → Nat → Prop}
    (next : ∀ key, Conforms (t.meter .read full).protocol (f key) Q full) :
    Conforms (t.meter .read full).protocol (readKeyStroke key >>= f) Q left := by
  rw [conforms_bind, conforms_readKeyStroke]
  intro r
  refine ⟨.inl rfl, ?_⟩
  rw [Meter.next_full (by rfl)]
  exact next _

end Rules

/-! ## The bounds -/

section Bounds

variable {W : Type} {E : Env (firmware P) W} {w w' : W} {p : Prog (firmware P) α}
  {Q : α → Nat → Prop} {tr pre mid post : List (Step (firmware P) W)} {out : Option α}
  {full left : Nat}

/-- The calls of a stretch of a run, without the marks of the model. -/
def effort (tr : List (Step (firmware P) W)) : Nat :=
  ((events tr).map fun e => Tariff.calls.price e.call).sum

/-- The microseconds a stretch of a run asks to be stalled. -/
def stalled (tr : List (Step (firmware P) W)) : Nat :=
  ((events tr).map fun e => Tariff.stalls.price e.call).sum

/-- The reads among some events. -/
def reads (es : List (Event (firmware P))) : Nat := es.countP fun e => Pause.read.fills e.call

theorem dry_of_unattended {t : Tariff} (unattended : ∀ st ∈ mid, st.event.call ≠ .waitForEvent) :
    ∀ st ∈ mid, ¬ (t.meter .wait full).fills st.event := by
  intro st mem fills
  have wait : Pause.wait.fills st.event.call = true := fills
  refine unattended st mem ?_
  generalize st.event.call = c at wait
  cases c with
  | waitForEvent => rfl
  | _ => cases wait

/-- A stretch without a wait costs no more than a full meter. -/
theorem effort_stretch (run : Run E w p tr w' out)
    (pays : Conforms (Tariff.calls.meter .wait full).protocol p Q full) (cut : tr = pre ++ mid ++ post)
    (unattended : ∀ st ∈ mid, st.event.call ≠ .waitForEvent) : effort mid ≤ full :=
  Meter.stretch run pays cut (dry_of_unattended unattended)

/-- The time of a stretch without a wait is bounded by what a wait fills the budget to. -/
theorem stalled_stretch (run : Run E w p tr w' out)
    (pays : Conforms (Tariff.stalls.meter .wait full).protocol p Q full)
    (cut : tr = pre ++ mid ++ post)
    (unattended : ∀ st ∈ mid, st.event.call ≠ .waitForEvent) : stalled mid ≤ full :=
  Meter.stretch run pays cut (dry_of_unattended unattended)

/-- Where the calls are answered, a run of a program without a loop that goes round without a wait can
go on, without a wait, to the end of the program or to its next wait. -/
theorem reaches_wait (lively : p.Lively IsWait) (answers : Answers E) (run : Run E w p tr w' out) :
    ∃ more w'', (∀ st ∈ more, st.event.call ≠ .waitForEvent) ∧
      ((∃ a, Run E w p (tr ++ more) w'' (some a)) ∨
        ∃ k, Stands E w p (tr ++ more) w'' (.call .waitForEvent k)) := by
  obtain ⟨more, w'', unattended, place⟩ := lively.goes_on answers run
  refine ⟨more, w'', unattended, ?_⟩
  rcases place with ⟨a, stands⟩ | ⟨c, k, rfl, stands⟩
  · have returned := stands.run .ret
    rw [List.append_nil] at returned
    exact .inl ⟨a, returned⟩
  · exact .inr ⟨k, stands⟩

/-- What fills the budget of a program that is paid by its reads are its reads. -/
theorem fillings_read (t : Tariff) (full : Nat) (es : List (Event (firmware P))) :
    (t.meter .read full).fillings es = reads es := by
  unfold Meter.fillings reads
  congr 1
  funext e
  exact Bool.decide_eq_true

/-- A read is the only filling between two reads. -/
theorem price_fills {t : Tariff} (e : Event (firmware P)) (fills : (t.meter .read full).fills e) :
    (t.meter .read full).price e ≤ t.read := by
  obtain ⟨call, r⟩ := e
  cases call with
  | readKeyStroke => exact Nat.le_refl _
  | _ => cases fills

/-- The calls of a whole run, when its reads pay for it. -/
theorem effort_total (run : Run E w p tr w' out)
    (pays : Conforms (Tariff.calls.meter .read full).protocol p Q left) :
    effort tr ≤ left + (full + 1) * reads (events tr) := by
  have made := Meter.total run pays price_fills
  rw [fillings_read] at made
  exact made

/-- The time of a run is bounded by its reads. -/
theorem stalled_total (run : Run E w p tr w' out)
    (pays : Conforms (Tariff.stalls.meter .read full).protocol p Q left) :
    stalled tr ≤ left + full * reads (events tr) := by
  have asked := Meter.total run pays price_fills
  rw [fillings_read] at asked
  exact asked

end Bounds

/-! ## Reads of a keyboard -/

/-- Every read takes an item. -/
theorem console_keys {w w' : Console} {e : Event (firmware P)} (step : console.env w e w') :
    reads [e] + w'.keys.length ≤ w.keys.length := by
  obtain ⟨call, r⟩ := e
  have same (quiet : reads [(⟨call, r⟩ : Event (firmware P))] = 0) (keys : w'.keys = w.keys) :
      reads [(⟨call, r⟩ : Event (firmware P))] + w'.keys.length ≤ w.keys.length := by
    rw [quiet, keys, Nat.zero_add]
  have answer : console w call = some (r, w') := step
  cases call with
  | readKeyStroke =>
    have one : reads [(⟨.readKeyStroke, r⟩ : Event (firmware P))] = 1 := rfl
    rw [console_read] at answer
    cases next : w.keys with
    | nil =>
      rw [next] at answer
      cases answer
    | cons item items =>
      rw [next] at answer
      cases answer
      rw [one, Console.keys_taken, next, List.tail_cons, List.length_cons]
      omega
  | waitForEvent =>
    have none : reads [(⟨.waitForEvent, r⟩ : Event (firmware P))] = 0 := rfl
    rw [console_waitForEvent] at answer
    rcases w.waited_cases with ⟨never, _⟩ | ⟨w₁, quiet, key, waits, split, _⟩
    · rw [never] at answer
      cases answer
    · rw [waits] at answer
      cases answer
      rw [none, split, List.length_append]
      omega
  | rdmsr addr =>
    refine same rfl ?_
    simp only [console] at answer
    split at answer <;> cases answer
    rfl
  | wrmsr addr low high =>
    refine same rfl ?_
    simp only [console] at answer
    split at answer <;> cases answer
    rfl
  | _ =>
    refine same rfl ?_
    cases answer
    rfl

/-- No run reads more items than there are. -/
theorem reads_le {w w' : Console} {tr : List (Step (firmware P) Console)}
    (path : Path console.env w tr w') : reads (events tr) + w'.keys.length ≤ w.keys.length := by
  induction path with
  | nil => exact Nat.le_of_eq (Nat.zero_add _)
  | @cons w w₁ w₂ e tr step rest ih =>
    have first := console_keys step
    have split : reads (events (⟨w, e, w₁⟩ :: tr)) = reads [e] + reads (events tr) :=
      @List.countP_append _ _ [e] _
    rw [split]
    omega

end ZeroProcHot.Efi
