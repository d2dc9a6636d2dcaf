import ZeroProcHot.Interact.Prog

/-!
# Running a program

A handler answers a call or, where the program would wait for ever, does not. `exec h n` runs a
program against a handler, with at most `n` rounds of each loop, and keeps its steps. What it finds
is a run of the program against the handler's environment (`exec_run`), and it runs a sequence part
by part (`exec_bind`), so that it can be computed by rewriting as well as evaluated.
-/

namespace ZeroProcHot.Interact

variable {S : Signature} {L O W α β γ σ : Type}

/-- A handler: the answer to a call in a world and the next world, or none. -/
abbrev Handler (S : Signature) (W : Type) := W → (c : S.Call) → Option (S.Answer c × W)

/-- The environment a handler makes. -/
def Handler.env (h : Handler S W) : Env S W := fun w e w' => h w e.call = some (e.answer, w')

/-- A handler answers a call in one way. -/
theorem Handler.deterministic (h : Handler S W) : Deterministic h.env := by
  intro w c r w' r' w'' first second
  have same : some (r, w') = some (r', w'') := first.symm.trans second
  cases same
  exact ⟨rfl, rfl⟩

/-- How a run ended: the program returned, its call was not answered, or a loop had used up its
rounds. -/
inductive Outcome (α : Type) where
  | returned (a : α)
  | blocked
  | unfinished
  deriving DecidableEq

/-- The result, if the program returned. -/
def Outcome.value? : Outcome α → Option α
  | .returned a => some a
  | _ => none

/-- What running a program finds: steps of some kind, the last world and how the run ended. -/
structure Result (L W α : Type) where
  steps : List L
  world : W
  outcome : Outcome α
  deriving DecidableEq

/-- Go on from a result, when the program returned. -/
def Result.andThen (r : Result L W α) (f : α → W → Result L W β) : Result L W β :=
  match r.outcome with
  | .returned a => ⟨r.steps ++ (f a r.world).steps, (f a r.world).world, (f a r.world).outcome⟩
  | .blocked => ⟨r.steps, r.world, .blocked⟩
  | .unfinished => ⟨r.steps, r.world, .unfinished⟩

/-- At most `n` rounds of a loop. -/
def rounds (f : σ → W → Result L W (σ ⊕ β)) : Nat → σ → W → Result L W β
  | 0, _, w => ⟨[], w, .unfinished⟩
  | n + 1, s, w => (f s w).andThen fun x w' =>
    match x with
    | .inl s' => rounds f n s' w'
    | .inr b => ⟨[], w', .returned b⟩

/-- The result of running a program, step by step. -/
abbrev Execution (S : Signature) (W α : Type) := Result (Step S W) W α

/-- Run a program, with at most `n` rounds of each loop. -/
def exec (h : Handler S W) (n : Nat) : {α : Type} → Prog S α → W → Execution S W α
  | _, .ret a, w => ⟨[], w, .returned a⟩
  | _, .call c k, w =>
    match h w c with
    | none => ⟨[], w, .blocked⟩
    | some (r, w') =>
      ⟨⟨w, ⟨c, r⟩, w'⟩ :: (exec h n (k r) w').steps, (exec h n (k r) w').world,
        (exec h n (k r) w').outcome⟩
  | _, .loop body s k, w =>
    (rounds (fun s w => exec h n (body s) w) n s w).andThen fun b w' => exec h n (k b) w'

/-- Three parts in a row. -/
theorem Result.andThen_assoc (r : Result L W α) (f : α → W → Result L W β)
    (g : β → W → Result L W γ) :
    (r.andThen f).andThen g = r.andThen fun a w => (f a w).andThen g := by
  obtain ⟨steps, w, out⟩ := r
  cases out with
  | returned a =>
    simp only [andThen]
    cases (f a w).outcome <;> simp only [List.append_assoc]
  | blocked => rfl
  | unfinished => rfl

@[simp] theorem Result.andThen_nil (w : W) (a : α) (f : α → W → Result L W β) :
    (⟨[], w, .returned a⟩ : Result L W α).andThen f = f a w := rfl

@[simp] theorem Result.andThen_returned (steps : List L) (w : W) (a : α)
    (f : α → W → Result L W β) :
    (⟨steps, w, .returned a⟩ : Result L W α).andThen f =
      ⟨steps ++ (f a w).steps, (f a w).world, (f a w).outcome⟩ := rfl

@[simp] theorem Result.andThen_blocked (steps : List L) (w : W) (f : α → W → Result L W β) :
    (⟨steps, w, .blocked⟩ : Result L W α).andThen f = ⟨steps, w, .blocked⟩ := rfl

variable {h : Handler S W} {n : Nat}

/-- A call that is answered. -/
theorem exec_perform {c : S.Call} {r : S.Answer c} {w w' : W} (answer : h w c = some (r, w')) :
    exec h n (Prog.perform c) w = ⟨[⟨w, ⟨c, r⟩, w'⟩], w', .returned r⟩ := by
  simp only [Prog.perform, exec, answer]

/-- A call that is not answered. -/
theorem exec_perform_blocked {c : S.Call} {w : W} (answer : h w c = none) :
    exec h n (Prog.perform c) w = ⟨[], w, .blocked⟩ := by
  simp only [Prog.perform, exec, answer]

/-- A program after another is run from where the first one ended. -/
theorem exec_bind (p : Prog S α) (f : α → Prog S β) (w : W) :
    exec h n (p >>= f) w = (exec h n p w).andThen fun a w' => exec h n (f a) w' := by
  rw [Prog.bind_eq]
  induction p generalizing w with
  | ret a => rfl
  | call c k ih =>
    simp only [Prog.bind, exec]
    cases hc : h w c with
    | none => rfl
    | some answer =>
      obtain ⟨r, w'⟩ := answer
      simp only [ih r f w', Result.andThen]
      cases (exec h n (k r) w').outcome <;> rfl
  | loop body s k _ ih =>
    simp only [Prog.bind, exec, ih, Result.andThen_assoc]

/-- A loop is run round by round. -/
theorem exec_iter (body : σ → Prog S (σ ⊕ β)) (s : σ) (w : W) :
    exec h n (Prog.iter body s) w = rounds (fun s w => exec h n (body s) w) n s w := by
  simp only [Prog.iter, exec]
  obtain ⟨steps, w', out⟩ := rounds (fun s w => exec h n (body s) w) n s w
  cases out <;> simp only [Result.andThen, List.append_nil]

/-- **What running finds is a run.** -/
theorem exec_run (h : Handler S W) (n : Nat) (p : Prog S α) (w : W) :
    Run h.env w p (exec h n p w).steps (exec h n p w).world (exec h n p w).outcome.value? := by
  induction p generalizing w with
  | ret a => exact .ret
  | call c k ih =>
    simp only [exec]
    cases hc : h w c with
    | none => exact .stop
    | some answer =>
      obtain ⟨r, w'⟩ := answer
      exact .call hc (ih r w')
  | loop body s k ihBody ih =>
    simp only [exec]
    generalize hm : n = m
    suffices key : ∀ s w, Run h.env w (.loop body s k)
        ((rounds (fun s w => exec h n (body s) w) m s w).andThen fun b w' => exec h n (k b) w').steps
        ((rounds (fun s w => exec h n (body s) w) m s w).andThen fun b w' => exec h n (k b) w').world
        ((rounds (fun s w => exec h n (body s) w) m s w).andThen
          fun b w' => exec h n (k b) w').outcome.value? by
      subst hm
      exact key s w
    clear hm
    induction m with
    | zero =>
      intro s w
      exact .stop
    | succ m ihm =>
      intro s w
      have round := ihBody s w
      simp only [rounds, Result.andThen_assoc]
      generalize exec h n (body s) w = r at round ⊢
      obtain ⟨steps, w', out⟩ := r
      cases out with
      | returned x =>
        cases x with
        | inl s' => exact .loopNext round (ihm s' w')
        | inr b => exact .loopDone round (ih b w')
      | blocked => exact .loopStop round
      | unfinished => exact .loopStop round

/-! ## What is seen of a run -/

/-- What an observer sees of a result: some of its events, the last world and how the run ended. -/
def Result.watch (obs : Event S → Option O) (r : Execution S W α) : Result O W α :=
  ⟨(events r.steps).filterMap obs, r.world, r.outcome⟩

theorem Result.watch_andThen (obs : Event S → Option O) (r : Execution S W α)
    (f : α → W → Execution S W β) :
    (r.andThen f).watch obs = (r.watch obs).andThen fun a w => (f a w).watch obs := by
  obtain ⟨steps, w, out⟩ := r
  cases out with
  | returned a => simp only [watch, andThen_returned, events_append, List.filterMap_append]
  | blocked => rfl
  | unfinished => rfl

/-- The rounds of a loop are seen one by one. -/
theorem watch_rounds (obs : Event S → Option O) (f : σ → W → Execution S W (σ ⊕ β)) (n : Nat)
    (s : σ) (w : W) :
    (rounds f n s w).watch obs = rounds (fun s w => (f s w).watch obs) n s w := by
  induction n generalizing s w with
  | zero => rfl
  | succ n ih =>
    simp only [rounds, Result.watch_andThen]
    congr 1
    funext x w'
    cases x with
    | inl s' => exact ih s' w'
    | inr b => rfl

/-- The loop depends on its state only through the rounds. -/
theorem rounds_congr {f : σ → W → Result L W (σ ⊕ β)} {s s' : σ} {w : W} (n : Nat)
    (same : f s w = f s' w) : rounds f n s w = rounds f n s' w := by
  cases n with
  | zero => rfl
  | succ n => simp only [rounds, same]

/-- What an observer sees of running a program. -/
def play (h : Handler S W) (n : Nat) (obs : Event S → Option O) (p : Prog S α) (w : W) :
    Result O W α := (exec h n p w).watch obs

variable {obs : Event S → Option O}

/-- What is seen of a program after another. -/
theorem play_bind (p : Prog S α) (f : α → Prog S β) (w : W) :
    play h n obs (p >>= f) w = (play h n obs p w).andThen fun a w' => play h n obs (f a) w' := by
  rw [play, exec_bind, Result.watch_andThen]
  rfl

/-- A program that is seen to return, and the program after it. -/
theorem play_seq {p : Prog S α} {f : α → Prog S β} {w w' : W} {os : List O} {a : α}
    (first : play h n obs p w = ⟨os, w', .returned a⟩) :
    play h n obs (p >>= f) w =
      (⟨os, w', .returned a⟩ : Result O W α).andThen fun a w' => play h n obs (f a) w' := by
  rw [play_bind, first]

/-- What is seen of a call that is answered. -/
theorem play_perform {c : S.Call} {r : S.Answer c} {w w' : W} (answer : h w c = some (r, w')) :
    play h n obs (Prog.perform c) w = ⟨(obs ⟨c, r⟩).toList, w', .returned r⟩ := by
  rw [play, exec_perform answer]
  simp only [Result.watch, events_cons, events_nil]
  cases hobs : obs ⟨c, r⟩ with
  | none => rw [List.filterMap_cons_none hobs]; rfl
  | some o => rw [List.filterMap_cons_some hobs]; rfl

/-- What is seen of a call that is not answered. -/
theorem play_perform_blocked {c : S.Call} {w : W} (answer : h w c = none) :
    play h n obs (Prog.perform c) w = ⟨[], w, .blocked⟩ := by
  rw [play, exec_perform_blocked answer]
  rfl

/-- What is seen of a loop. -/
theorem play_iter (body : σ → Prog S (σ ⊕ β)) (s : σ) (w : W) :
    play h n obs (Prog.iter body s) w = rounds (fun s w => play h n obs (body s) w) n s w := by
  rw [play, exec_iter, watch_rounds]
  rfl

/-- A loop over a list whose body leaves the world as it is. -/
theorem play_forM {ι : Type} {xs : List ι} {f : ι → Prog S PUnit} {os : ι → List O} {w : W}
    (body : ∀ x ∈ xs, play h n obs (f x) w = ⟨os x, w, .returned ()⟩) :
    play h n obs (forM xs f) w = ⟨xs.flatMap os, w, .returned ()⟩ := by
  induction xs with
  | nil => rfl
  | cons x xs ih =>
    have rest := ih fun y hy => body y (List.mem_cons_of_mem x hy)
    rw [List.forM_cons, play_seq (body x List.mem_cons_self), Result.andThen_returned, rest]
    rfl

/-- A program that is seen to return returns in the handler's environment. -/
theorem returns_of_play {p : Prog S α} {w w' : W} {os : List O} {a : α}
    (found : play h n obs p w = ⟨os, w', .returned a⟩) : Returns h.env w p w' a := by
  have run := exec_run h n p w
  obtain ⟨_, world, outcome⟩ := Result.mk.inj found
  rw [world, outcome] at run
  exact ⟨_, run⟩

/-! ## The same run in a larger world -/

/-- What returned came of a part that returned and of what followed it. -/
theorem Result.andThen_eq_returned {r : Result L W α} {f : α → W → Result L W β} {os : List L}
    {w' : W} {b : β} (found : r.andThen f = ⟨os, w', .returned b⟩) :
    ∃ os₁ w₁ a os₂, r = ⟨os₁, w₁, .returned a⟩ ∧ f a w₁ = ⟨os₂, w', .returned b⟩ ∧
      os = os₁ ++ os₂ := by
  obtain ⟨os₁, w₁, out⟩ := r
  cases out with
  | returned a =>
    rw [andThen_returned] at found
    have parts := Result.mk.inj found
    exact ⟨os₁, w₁, a, (f a w₁).steps, rfl,
      by rw [← parts.2.1, ← parts.2.2], parts.1.symm⟩
  | blocked => exact absurd (Result.mk.inj found).2.2 nofun
  | unfinished => exact absurd (Result.mk.inj found).2.2 nofun

/-- A result goes on: what was seen is seen again first, and a program that returned returned so.
`g` leads to the larger world. -/
def Result.Grows (g : W → W) (r r' : Result O W α) : Prop :=
  r.steps <+: r'.steps ∧ ∀ a, r.outcome = .returned a → r' = ⟨r.steps, g r.world, .returned a⟩

/-- What had used up its rounds may go on. -/
theorem Result.Grows.of_unfinished {g : W → W} {w : W} {r : Result O W α} :
    Grows g ⟨[], w, .unfinished⟩ r := ⟨List.nil_prefix, nofun⟩

/-- What was blocked may go on. -/
theorem Result.Grows.of_blocked {g : W → W} {w : W} {r : Result O W α} :
    Grows g ⟨[], w, .blocked⟩ r := ⟨List.nil_prefix, nofun⟩

theorem Result.steps_andThen (r : Result O W α) (f : α → W → Result O W β) :
    r.steps <+: (r.andThen f).steps := by
  obtain ⟨steps, w, out⟩ := r
  cases out with
  | returned a => exact List.prefix_append _ _
  | blocked => exact List.prefix_rfl
  | unfinished => exact List.prefix_rfl

/-- Both parts may go on. -/
theorem Result.Grows.andThen {g : W → W} {r r' : Result O W α} {f f' : α → W → Result O W β}
    (first : r.Grows g r') (rest : ∀ a w, (f a w).Grows g (f' a (g w))) :
    (r.andThen f).Grows g (r'.andThen f') := by
  obtain ⟨os, w, out⟩ := r
  cases out with
  | returned a =>
    obtain rfl := first.2 a rfl
    have next := rest a w
    refine ⟨(List.prefix_append_right_inj os).mpr next.1, ?_⟩
    intro b returned
    rw [andThen_returned, andThen_returned, next.2 b returned]
  | blocked => exact ⟨first.1.trans (steps_andThen r' f'), nofun⟩
  | unfinished => exact ⟨first.1.trans (steps_andThen r' f'), nofun⟩

variable {g : W → W} {n' : Nat}

/-- More rounds carry a loop further. -/
theorem rounds_grow {f f' : σ → W → Result O W (σ ⊕ β)}
    (body : ∀ s w, (f s w).Grows g (f' s (g w))) {m m' : Nat} (hm : m ≤ m') (s : σ) (w : W) :
    (rounds f m s w).Grows g (rounds f' m' s (g w)) := by
  induction m generalizing m' s w with
  | zero => exact .of_unfinished
  | succ m ih =>
    obtain ⟨k, rfl⟩ : ∃ k, m' = k + 1 := ⟨m' - 1, by omega⟩
    refine (body s w).andThen fun x w' => ?_
    cases x with
    | inl s' => exact ih (by omega) s' w'
    | inr b =>
      refine ⟨List.prefix_rfl, fun b' returned => ?_⟩
      cases returned
      rfl

theorem play_call (c : S.Call) (k : S.Answer c → Prog S α) (w : W) :
    play h n obs (.call c k) w =
      (play h n obs (Prog.perform c) w).andThen fun r w => play h n obs (k r) w :=
  play_bind (Prog.perform c) k w

theorem play_loop (body : σ → Prog S (σ ⊕ β)) (s : σ) (k : β → Prog S α) (w : W) :
    play h n obs (.loop body s k) w =
      (rounds (fun s w => play h n obs (body s) w) n s w).andThen
        fun b w => play h n obs (k b) w := by
  rw [← play_iter]
  exact play_bind (Prog.iter body s) k w

/-- **A run goes on in a larger world.** The world after `g` answers every call that was answered as
before; the rounds may be more. -/
theorem play_grow (answers : ∀ {w c r w'}, h w c = some (r, w') → h (g w) c = some (r, g w'))
    (hn : n ≤ n') (p : Prog S α) (w : W) :
    (play h n obs p w).Grows g (play h n' obs p (g w)) := by
  induction p generalizing w with
  | ret a =>
    refine ⟨List.prefix_rfl, fun b returned => ?_⟩
    cases returned
    rfl
  | call c k ih =>
    rw [play_call, play_call]
    refine Result.Grows.andThen ?_ fun r w => ih r w
    cases hc : h w c with
    | none =>
      rw [play_perform_blocked hc]
      exact .of_blocked
    | some answer =>
      obtain ⟨r, w'⟩ := answer
      rw [play_perform hc, play_perform (answers hc)]
      refine ⟨List.prefix_rfl, fun b returned => ?_⟩
      cases returned
      rfl
  | loop body s k ihBody ih =>
    rw [play_loop, play_loop]
    exact (rounds_grow (fun s w => ihBody s w) hn s w).andThen fun b w => ih b w

/-- The first round of a loop, when it is seen to return. -/
theorem play_loop_round {body : σ → Prog S (σ ⊕ β)} {s : σ} {k : β → Prog S α} {w w' : W}
    {os : List O} {x : σ ⊕ β} (round : play h (n + 1) obs (body s) w = ⟨os, w', .returned x⟩) :
    play h (n + 1) obs (.loop body s k) w =
      (⟨os, w', .returned x⟩ : Result O W (σ ⊕ β)).andThen fun x w =>
        match x with
        | .inl s => (rounds (fun s w => play h (n + 1) obs (body s) w) n s w).andThen
            fun b w => play h (n + 1) obs (k b) w
        | .inr b => play h (n + 1) obs (k b) w := by
  rw [play_loop, rounds, round, Result.andThen_assoc]
  congr 1
  funext x w
  cases x with
  | inl s => rfl
  | inr b => rfl

/-- **Every run is found.** What is seen of a run is the beginning of what running finds, in every
budget from some budget on; a run that returned is all of it. -/
theorem play_of_run {p : Prog S α} {w w' : W} {tr : List (Step S W)} {out : Option α}
    (run : Run h.env w p tr w' out) :
    ∃ n₀, ∀ n, n₀ ≤ n → (events tr).filterMap obs <+: (play h n obs p w).steps ∧
      ∀ a, out = some a → play h n obs p w = ⟨(events tr).filterMap obs, w', .returned a⟩ := by
  induction run with
  | stop => exact ⟨0, fun n _ => ⟨List.nil_prefix, nofun⟩⟩
  | ret =>
    refine ⟨0, fun n _ => ⟨List.nil_prefix, fun a returned => ?_⟩⟩
    cases returned
    rfl
  | @call _ w w' w'' c k r tr out answer _ ih =>
    obtain ⟨n₀, ih⟩ := ih
    refine ⟨n₀, fun n hn => ?_⟩
    have split : (events (⟨w, ⟨c, r⟩, w'⟩ :: tr)).filterMap obs =
        (obs ⟨c, r⟩).toList ++ (events tr).filterMap obs := by
      rw [events_cons, List.filterMap_cons]
      cases obs ⟨c, r⟩ <;> rfl
    have first : play h n obs (Prog.perform c) w = ⟨(obs ⟨c, r⟩).toList, w', .returned r⟩ :=
      play_perform answer
    rw [play_call, first, split, Result.andThen_returned]
    refine ⟨(List.prefix_append_right_inj _).mpr (ih n hn).1, fun a returned => ?_⟩
    rw [(ih n hn).2 a returned]
  | @loopNext α β σ w w' w'' body s s' k tr tr' out _ _ ihRound ih =>
    obtain ⟨n₁, ihRound⟩ := ihRound
    obtain ⟨n₂, ih⟩ := ih
    refine ⟨max n₁ n₂ + 1, fun n hn => ?_⟩
    obtain ⟨m, rfl⟩ : ∃ m, n = m + 1 := ⟨n - 1, by omega⟩
    have round := (ihRound (m + 1) (by omega)).2 _ rfl
    obtain ⟨rest, result⟩ := ih m (by omega)
    have grown : (play h m obs (.loop body s' k) w').Grows id
        ((rounds (fun s w => play h (m + 1) obs (body s) w) m s' w').andThen
          fun b w => play h (m + 1) obs (k b) w) := by
      rw [play_loop]
      exact (rounds_grow (fun s w => play_grow id (by omega) (body s) w) (Nat.le_refl m) s' w').andThen
        fun b w => play_grow id (by omega) (k b) w
    rw [play_loop_round round, Result.andThen_returned, events_append, List.filterMap_append]
    refine ⟨(List.prefix_append_right_inj _).mpr (rest.trans grown.1), fun a returned => ?_⟩
    have found := result a returned
    rw [found] at grown
    simp only [grown.2 a rfl, id]
  | @loopDone α β σ w w' w'' body s b k tr tr' out _ _ ihRound ih =>
    obtain ⟨n₁, ihRound⟩ := ihRound
    obtain ⟨n₂, ih⟩ := ih
    refine ⟨max n₁ n₂ + 1, fun n hn => ?_⟩
    obtain ⟨m, rfl⟩ : ∃ m, n = m + 1 := ⟨n - 1, by omega⟩
    have round := (ihRound (m + 1) (by omega)).2 _ rfl
    obtain ⟨rest, result⟩ := ih (m + 1) (by omega)
    rw [play_loop_round round, Result.andThen_returned, events_append, List.filterMap_append]
    refine ⟨(List.prefix_append_right_inj _).mpr rest, fun a returned => ?_⟩
    simp only [result a returned]
  | @loopStop α β σ w w' body s k tr _ ihRound =>
    obtain ⟨n₁, ihRound⟩ := ihRound
    refine ⟨n₁ + 1, fun n hn => ?_⟩
    obtain ⟨m, rfl⟩ : ∃ m, n = m + 1 := ⟨n - 1, by omega⟩
    have round := (ihRound (m + 1) (by omega)).1
    rw [play_loop, rounds]
    exact ⟨(round.trans (Result.steps_andThen _ _)).trans (Result.steps_andThen _ _), nofun⟩

/-- The cut of a list before its member `n`. -/
theorem cut_at (l : List α) {n : Nat} (h : n < l.length) :
    l = l.take n ++ l.get ⟨n, h⟩ :: l.drop (n + 1) := by
  rw [List.get_eq_getElem, ← List.drop_eq_getElem_cons, List.take_append_drop]

end ZeroProcHot.Interact
