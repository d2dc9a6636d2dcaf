import Mathlib.Logic.Basic

/-!
# Programs that call their environment

A program over a call signature makes one call at a time, gets one answer to each call, and goes
on from the answer. `Prog.loop` is a loop with no bound on its rounds: the state either goes round
again (`.inl`) or leaves the loop (`.inr`).

An environment is a relation: which answer it may give to a call in a world, and which world it
leaves. `Run` is the run of a program against an environment, written as the list of its steps. A
run may stop anywhere, so the runs of a program are closed under prefixes: a law of every run is a
law of every point of every run, also of the runs that never return.
-/

namespace ZeroProcHot.Interact

/-- A call signature: the calls a program makes and the answers each call may get. -/
structure Signature where
  Call : Type
  Answer : Call → Type

/-- A call together with its answer. -/
structure Event (S : Signature) where
  call : S.Call
  answer : S.Answer call

/-- A program over a signature. -/
inductive Prog (S : Signature) : Type → Type 1 where
  | ret {α : Type} (a : α) : Prog S α
  | call {α : Type} (c : S.Call) (k : S.Answer c → Prog S α) : Prog S α
  | loop {α β σ : Type} (body : σ → Prog S (σ ⊕ β)) (s : σ) (k : β → Prog S α) : Prog S α

variable {S : Signature} {W V α β σ : Type}

namespace Prog

/-- Run the first program, then the program its result names. -/
def bind {α β : Type} : Prog S α → (α → Prog S β) → Prog S β
  | .ret a, f => f a
  | .call c k, f => .call c fun r => (k r).bind f
  | .loop body s k, f => .loop body s fun b => (k b).bind f

instance : Monad (Prog S) where
  pure := .ret
  bind := .bind

/-- Make one call and return its answer. -/
def perform (c : S.Call) : Prog S (S.Answer c) := .call c .ret

/-- Go round `body` from `s` until it leaves. -/
def iter (body : σ → Prog S (σ ⊕ β)) (s : σ) : Prog S β := .loop body s .ret

theorem bind_eq (p : Prog S α) (f : α → Prog S β) : p >>= f = p.bind f := rfl

end Prog

/-- One step of a run: the world before the call, the call with its answer, the world after. -/
structure Step (S : Signature) (W : Type) where
  before : W
  event : Event S
  after : W

/-- The events of a run, without the worlds. -/
def events (tr : List (Step S W)) : List (Event S) := tr.map (·.event)

@[simp] theorem events_nil : events ([] : List (Step S W)) = [] := rfl

@[simp] theorem events_cons (st : Step S W) (tr : List (Step S W)) :
    events (st :: tr) = st.event :: events tr := rfl

@[simp] theorem events_append (tr tr' : List (Step S W)) :
    events (tr ++ tr') = events tr ++ events tr' := List.map_append

/-- An environment: the answers it may give in a world, and the worlds it may leave. -/
abbrev Env (S : Signature) (W : Type) := W → Event S → W → Prop

/-- A run of a program against an environment: the steps, the world at the end, and the result if
the program returned. -/
inductive Run (E : Env S W) : {α : Type} → W → Prog S α → List (Step S W) → W → Option α → Prop
  | stop {α : Type} {w : W} {p : Prog S α} : Run E w p [] w none
  | ret {α : Type} {w : W} {a : α} : Run E w (.ret a) [] w (some a)
  | call {α : Type} {w w' w'' : W} {c : S.Call} {k : S.Answer c → Prog S α} {r : S.Answer c}
      {tr : List (Step S W)} {out : Option α} :
      E w ⟨c, r⟩ w' → Run E w' (k r) tr w'' out →
      Run E w (.call c k) (⟨w, ⟨c, r⟩, w'⟩ :: tr) w'' out
  | loopNext {α β σ : Type} {w w' w'' : W} {body : σ → Prog S (σ ⊕ β)} {s s' : σ}
      {k : β → Prog S α} {tr tr' : List (Step S W)} {out : Option α} :
      Run E w (body s) tr w' (some (.inl s')) → Run E w' (.loop body s' k) tr' w'' out →
      Run E w (.loop body s k) (tr ++ tr') w'' out
  | loopDone {α β σ : Type} {w w' w'' : W} {body : σ → Prog S (σ ⊕ β)} {s : σ} {b : β}
      {k : β → Prog S α} {tr tr' : List (Step S W)} {out : Option α} :
      Run E w (body s) tr w' (some (.inr b)) → Run E w' (k b) tr' w'' out →
      Run E w (.loop body s k) (tr ++ tr') w'' out
  | loopStop {α β σ : Type} {w w' : W} {body : σ → Prog S (σ ⊕ β)} {s : σ}
      {k : β → Prog S α} {tr : List (Step S W)} :
      Run E w (body s) tr w' none → Run E w (.loop body s k) tr w' none

/-- Steps that follow one another in an environment, with no word of the program that made them. -/
inductive Path (E : Env S W) : W → List (Step S W) → W → Prop
  | nil {w : W} : Path E w [] w
  | cons {w w' w'' : W} {e : Event S} {tr : List (Step S W)} :
      E w e w' → Path E w' tr w'' → Path E w (⟨w, e, w'⟩ :: tr) w''

/-- One path after another. -/
theorem Path.append {E : Env S W} {w w' w'' : W} {tr tr' : List (Step S W)} (h : Path E w tr w')
    (h' : Path E w' tr' w'') : Path E w (tr ++ tr') w'' := by
  induction h with
  | nil => exact h'
  | cons step _ ih => exact .cons step (ih h')

/-- Each step of a path is a step of the environment. -/
theorem Path.each {E : Env S W} {w w' : W} {tr : List (Step S W)} (h : Path E w tr w') :
    ∀ st ∈ tr, E st.before st.event st.after := by
  induction h with
  | nil => exact fun _ h => absurd h List.not_mem_nil
  | cons step _ ih => exact List.forall_mem_cons.mpr ⟨step, ih⟩

/-- The steps of a run are a path. -/
theorem Run.path {E : Env S W} {w w' : W} {p : Prog S α} {tr : List (Step S W)} {out : Option α}
    (run : Run E w p tr w' out) : Path E w tr w' := by
  induction run with
  | stop => exact .nil
  | ret => exact .nil
  | call step _ ih => exact .cons step ih
  | loopNext _ _ ihRound ih => exact ihRound.append ih
  | loopDone _ _ ihRound ih => exact ihRound.append ih
  | loopStop _ ihRound => exact ihRound

/-- A step seen through a map of the worlds. -/
def Step.map (f : W → V) (st : Step S W) : Step S V := ⟨f st.before, st.event, f st.after⟩

@[simp] theorem events_map (f : W → V) (tr : List (Step S W)) :
    events (tr.map (Step.map f)) = events tr := by
  simp only [events, List.map_map]
  rfl

/-- A run is a run of every environment that a map of the worlds leads to. -/
theorem Run.project {E : Env S W} {E' : Env S V} (f : W → V)
    (h : ∀ w e w', E w e w' → E' (f w) e (f w')) {w w' : W} {p : Prog S α}
    {tr : List (Step S W)} {out : Option α} (run : Run E w p tr w' out) :
    Run E' (f w) p (tr.map (Step.map f)) (f w') out := by
  induction run with
  | stop => exact .stop
  | ret => exact .ret
  | call step _ ih => exact .call (h _ _ _ step) ih
  | loopNext _ _ ihRound ih =>
    rw [List.map_append]
    exact .loopNext ihRound ih
  | loopDone _ _ ihRound ih =>
    rw [List.map_append]
    exact .loopDone ihRound ih
  | loopStop _ ihRound => exact .loopStop ihRound

/-- What every step of a run satisfies can be asked of the environment. -/
theorem Run.restrict {E R : Env S W} {w w' : W} {p : Prog S α} {tr : List (Step S W)}
    {out : Option α} (run : Run E w p tr w' out)
    (h : ∀ st ∈ tr, R st.before st.event st.after) :
    Run (fun w e w' => E w e w' ∧ R w e w') w p tr w' out := by
  induction run with
  | stop => exact .stop
  | ret => exact .ret
  | call step _ ih =>
    obtain ⟨first, rest⟩ := List.forall_mem_cons.mp h
    exact .call ⟨step, first⟩ (ih rest)
  | loopNext _ _ ihRound ih =>
    obtain ⟨round, rest⟩ := List.forall_mem_append.mp h
    exact .loopNext (ihRound round) (ih rest)
  | loopDone _ _ ihRound ih =>
    obtain ⟨round, rest⟩ := List.forall_mem_append.mp h
    exact .loopDone (ihRound round) (ih rest)
  | loopStop _ ihRound => exact .loopStop (ihRound h)

/-- The program returns `a` in `w'`: some run of it ends so. -/
def Returns (E : Env S W) (w : W) (p : Prog S α) (w' : W) (a : α) : Prop :=
  ∃ tr, Run E w p tr w' (some a)

/-- A run of a sequence: the first program returns and the second runs on, or the first stops. -/
theorem Run.bind {E : Env S W} {w w' w'' : W} {p : Prog S α} {f : α → Prog S β} {a : α}
    {tr tr' : List (Step S W)} {out : Option β} (first : Run E w p tr w' (some a))
    (second : Run E w' (f a) tr' w'' out) : Run E w (p >>= f) (tr ++ tr') w'' out := by
  simp only [Prog.bind_eq]
  generalize hout : some a = o at first
  induction first with
  | stop => cases hout
  | ret =>
    cases hout
    exact second
  | call step _ ih => exact .call step (ih second hout)
  | loopNext round _ _ ih =>
    rw [List.append_assoc]
    exact .loopNext round (ih second hout)
  | loopDone round _ _ ih =>
    rw [List.append_assoc]
    exact .loopDone round (ih second hout)
  | loopStop => cases hout

/-- A program returns after another that returns. -/
theorem Returns.bind {E : Env S W} {w w' w'' : W} {p : Prog S α} {f : α → Prog S β} {a : α} {b : β}
    (first : Returns E w p w' a) (second : Returns E w' (f a) w'' b) :
    Returns E w (p >>= f) w'' b := by
  obtain ⟨tr, first⟩ := first
  obtain ⟨tr', second⟩ := second
  exact ⟨tr ++ tr', first.bind second⟩

/-- An environment that leaves no choice: the call settles the answer and the next world. -/
def Deterministic (E : Env S W) : Prop :=
  ∀ ⦃w c r w' r' w''⦄, E w ⟨c, r⟩ w' → E w ⟨c, r'⟩ w'' → r = r' ∧ w' = w''

/-- Against a deterministic environment a program returns in one way only. -/
theorem Run.unique {E : Env S W} (det : Deterministic E) {w w₁ w₂ : W} {p : Prog S α} {a₁ a₂ : α}
    {tr₁ tr₂ : List (Step S W)} (run₁ : Run E w p tr₁ w₁ (some a₁))
    (run₂ : Run E w p tr₂ w₂ (some a₂)) : tr₁ = tr₂ ∧ w₁ = w₂ ∧ a₁ = a₂ := by
  generalize hout : some a₁ = out at run₁
  induction run₁ generalizing tr₂ w₂ with
  | stop => cases hout
  | ret =>
    cases hout
    cases run₂
    exact ⟨rfl, rfl, rfl⟩
  | call step _ ih =>
    cases run₂ with
    | call step' rest =>
      obtain ⟨rfl, rfl⟩ := det step step'
      obtain ⟨rfl, rfl, rfl⟩ := ih rest hout
      exact ⟨rfl, rfl, rfl⟩
  | loopNext round _ ihRound ih =>
    cases run₂ with
    | loopNext round' rest =>
      obtain ⟨rfl, rfl, h⟩ := ihRound round' rfl
      cases h
      obtain ⟨rfl, rfl, rfl⟩ := ih rest hout
      exact ⟨rfl, rfl, rfl⟩
    | loopDone round' _ =>
      obtain ⟨_, _, h⟩ := ihRound round' rfl
      cases h
  | loopDone round _ ihRound ih =>
    cases run₂ with
    | loopNext round' _ =>
      obtain ⟨_, _, h⟩ := ihRound round' rfl
      cases h
    | loopDone round' rest =>
      obtain ⟨rfl, rfl, h⟩ := ihRound round' rfl
      cases h
      obtain ⟨rfl, rfl, rfl⟩ := ih rest hout
      exact ⟨rfl, rfl, rfl⟩
  | loopStop => cases hout

/-- Against a deterministic environment a program returns in one way. -/
theorem Returns.unique {E : Env S W} (det : Deterministic E) {w w₁ w₂ : W} {p : Prog S α}
    {a₁ a₂ : α} (first : Returns E w p w₁ a₁) (second : Returns E w p w₂ a₂) :
    w₁ = w₂ ∧ a₁ = a₂ := by
  obtain ⟨_, run₁⟩ := first
  obtain ⟨_, run₂⟩ := second
  exact (run₁.unique det run₂).2

end ZeroProcHot.Interact
