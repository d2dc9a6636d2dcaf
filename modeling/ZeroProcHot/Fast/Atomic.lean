import ZeroProcHot.Fast.Agreement
import ZeroProcHot.Tmp.Window

/-!
# The fast program has no window

Nothing lies between the read of the fast program and its write. So on every platform, whatever the
firmware does to the register inside its calls, the two are one step: a write finds the register as
the read did, it finds bit 0 set, and it clears bit 0 and nothing else (`efiMain_atomic`). The firmware
loses no change to it, as it may to the interactive program (`rollback_write`).
-/

namespace ZeroProcHot.Fast

open Interact Efi Tmp

variable {during : UInt64 → UInt64 → Prop} {g : Globals}

/-- What is remembered from one event to the next: the number of writes, and the value of the register
if the event read it. -/
def remember (s : Nat × Option UInt64) (e : Event (firmware Empty)) : Nat × Option UInt64 :=
  (count s.1 e,
    match e with
    | ⟨.rdmsr addr, (r : Halves)⟩ => if addr = powerCtl then some r.value else none
    | _ => none)

/-- A write is the change `clear`, made of the register as the event before it has read it. -/
def Atomic : Env (firmware Empty) (UInt64 × Nat × Option UInt64) := fun w e w' =>
  match e.call with
  | .wrmsr _ _ _ => w.2.2 = some w.1 ∧ bit 0 w.1 = true ∧ w'.1 = Change.clear.apply w.1
  | _ => True

/-- What the program writes is what `clear` makes of the register that it has read. -/
theorem value_clear (v : UInt64) :
    Halves.value ⟨(halves v).low &&& zerobitzero, (halves v).high⟩ = Change.clear.apply v := by
  rw [← halves_clear, value_halves]

/-- The one call of the firmware comes first; the register is then cleared in one step. -/
theorem wp_efiMain_atomic (g : Globals) (v : UInt64) :
    wp (observe (platform during) remember) Atomic (efiMain g)
      (fun _ w => ∃ u, during v u ∧ w.1 = Change.clear.apply u ∧ w.2.1 = if bit 0 u then 1 else 0)
      (v, 0, none) := by
  unfold efiMain printHead asmWriteMsr64 asmReadMsr64
  simp only [wp_bind, wp_outputString, wp_rdmsr, wp_wrmsr, wp_pure, wp_ite, observe, Prod.forall]
  rintro u n o ⟨header, seen⟩
  obtain ⟨rfl, rfl⟩ := Prod.mk.inj seen
  refine ⟨trivial, ?_⟩
  rintro r w₁ n o ⟨first, seen⟩
  obtain ⟨rfl, rfl⟩ := Prod.mk.inj seen
  obtain ⟨rfl, rfl⟩ : r = halves u ∧ w₁ = u := ⟨first.1 rfl, first.2⟩
  refine ⟨trivial, ?_⟩
  by_cases flag : bit 0 w₁ = true
  · rw [if_pos ((low_odd w₁).mpr flag)]
    have recalled : (some (halves w₁).value : Option UInt64) = some w₁ := by rw [value_halves]
    rintro w₂ n o ⟨write, seen⟩
    obtain ⟨rfl, rfl⟩ := Prod.mk.inj seen
    have written : w₂ = Change.clear.apply w₁ := by
      rw [← value_clear]
      exact Eq.trans write (if_pos rfl)
    refine ⟨⟨recalled, flag, written⟩, ?_⟩
    rintro r' w₃ n o ⟨again, seen⟩
    obtain ⟨rfl, rfl⟩ := Prod.mk.inj seen
    refine ⟨trivial, w₁, header, again.2.trans written, ?_⟩
    rw [if_pos flag]
    rfl
  · rw [if_neg fun odd => flag ((low_odd w₁).mp odd)]
    refine ⟨w₁, header, (clear_eq (Bool.eq_false_iff.mpr flag)).symm, ?_⟩
    rw [if_neg flag]
    rfl

/-- The writes that are remembered. -/
theorem after_remember (n : Nat) (o : Option UInt64) (tr : List (Step (firmware Empty) UInt64)) :
    (after remember (n, o) tr).1 = after count n tr := by
  induction tr generalizing n o with
  | nil => rfl
  | cons st tr ih =>
    rw [after_cons, after_cons]
    exact ih _ _

/-- What is remembered of some events is remembered of the last. -/
theorem read_last {n : Nat} {tr : List (Step (firmware Empty) UInt64)} {val : UInt64}
    (recalled : (after remember (n, none) tr).2 = some val) :
    ∃ before rd, tr = before ++ [rd] ∧ ∃ r : Halves, rd.event = ⟨.rdmsr powerCtl, r⟩ ∧
      r.value = val := by
  induction tr using List.reverseRecOn with
  | nil => cases recalled
  | append_singleton before rd _ =>
    refine ⟨before, rd, rfl, ?_⟩
    rw [after_append, after_cons, after_nil] at recalled
    obtain ⟨_, ⟨call, r⟩, _⟩ := rd
    cases call with
    | rdmsr addr =>
      by_cases known : addr = powerCtl
      · subst known
        have val : some (Halves.value r) = some val := recalled
        exact ⟨r, rfl, Option.some.inj val⟩
      · cases (if_neg known).symm.trans recalled
    | _ => cases recalled

/-- **Read and write are one step.** On every platform, in every run of the fast program and wherever it
stops, a write comes right after a read of the register, finds the register with bit 0 set, and leaves
it with that bit cleared and no other bit changed. A run that returns has cleared bit 0 of what the
firmware made of the register while it printed the header, with one write or none. -/
theorem efiMain_atomic {v v' : UInt64} {tr : List (Step (firmware Empty) UInt64)}
    {out : Option (Status × Globals)} (run : Run (platform during) v (efiMain g) tr v' out) :
    (∀ pre st post, tr = pre ++ st :: post → ∀ addr low high, st.event.call = .wrmsr addr low high →
      (∃ before rd, pre = before ++ [rd] ∧ rd.event.call = .rdmsr powerCtl ∧
        rd.before = st.before) ∧
      bit 0 st.before = true ∧ bit 0 st.after = false ∧ SameAbove st.after st.before) ∧
    ∀ x, out = some x → ∃ u, during v u ∧ v' = Change.clear.apply u ∧
      writes tr = if bit 0 u then 1 else 0 := by
  obtain ⟨steps, result⟩ := run.observed (wp_efiMain_atomic g v)
  constructor
  · intro pre st post cut addr low high write
    have law := steps pre st post cut
    have each := run.path.each
    unfold Atomic at law
    rw [write] at law
    obtain ⟨recalled, flag, cleared⟩ := law
    obtain ⟨before, rd, rfl, r, event, value⟩ := read_last recalled
    have read := each rd (by rw [cut]; simp)
    rw [event] at read
    have same : rd.before = st.before := by
      rw [read.1 rfl, value_halves] at value
      exact value
    refine ⟨⟨before, rd, rfl, congrArg Event.call event, same⟩, flag, ?_, ?_⟩
    · exact (congrArg (bit 0) cleared).trans (bit_clear st.before 0)
    · intro i hi h0
      exact (congrArg (bit i) cleared).trans ((bit_clear st.before i).trans (if_neg h0))
  · intro x returned
    obtain ⟨u, header, left, written⟩ := result x returned
    refine ⟨u, header, left, ?_⟩
    exact (after_remember 0 none tr).symm.trans written

/-- The program on a register whose bit 1 the firmware turns over while it prints. -/
def turningRun : Execution (firmware Empty) Script (Status × Globals) :=
  exec (script fun _ v => v ^^^ 2) 0 (efiMain ⟨7, 7⟩) ⟨[], ⟨0, 0⟩, 5⟩

def turningSteps : List (Step (firmware Empty) UInt64) :=
  turningRun.steps.map (Step.map Script.register)

theorem turningRun_run :
    Run (platform fun v v' => v' = v ^^^ 2) 5 (efiMain ⟨7, 7⟩) turningSteps
      turningRun.world.register (some (.success, ⟨6, 0⟩)) := by
  unfold turningSteps turningRun
  exact @script_run _ _ (fun _ v => v ^^^ 2) (fun v v' => v' = v ^^^ 2) (fun _ _ => rfl) 0
    (efiMain ⟨7, 7⟩) ⟨[], ⟨0, 0⟩, 5⟩

/-- The firmware's change is kept. -/
theorem efiMain_atomic_turningRun :
    turningRun.world.register = 6 ∧ ∃ u, u = 5 ^^^ 2 ∧
      turningRun.world.register = Change.clear.apply u ∧
      writes turningSteps = if bit 0 u then 1 else 0 :=
  ⟨by decide +kernel, (efiMain_atomic turningRun_run).2 _ rfl⟩

end ZeroProcHot.Fast
