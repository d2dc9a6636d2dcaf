import ZeroProcHot.Interact.Machine

/-!
# Results that make good on an abstract result

An abstract run says what a program will do; the program's result `Meets` it when what was seen so
far is what the abstract run says first. What the abstract run says after that is handed on to the
rest of the program, so a program is compared with the abstract run part by part (`Meets.andThen`),
and a loop round by round, as long as some measure of the input goes down (`meets_rounds`).
-/

namespace ZeroProcHot.Interact

variable {O W V α β γ σ : Type}

/-- The result as an observer of the world sees it, who asks of a returned result something else. -/
def Result.report (view : W → V) (ask : α → W → β) (r : Result O W α) : Result O V β :=
  ⟨r.steps, view r.world,
    match r.outcome with
    | .returned a => .returned (ask a r.world)
    | .blocked => .blocked
    | .unfinished => .unfinished⟩

/-- The result is the beginning of `e`, and what is left of `e` where the program returned is fit to
go on from; a program that is blocked has met all of it. -/
def Result.Meets (view : W → V) (r : Result O W α) (e : Result O V β)
    (after : α → W → Result O V β → Prop) : Prop :=
  match r.outcome with
  | .returned a => ∃ rest, e = rest.prepend r.steps ∧ after a r.world rest
  | .blocked => e = ⟨r.steps, view r.world, .blocked⟩
  | .unfinished => False

namespace Result

variable {view : W → V} {e : Result O V β} {after : α → W → Result O V β → Prop}

theorem meets_nil {w : W} {a : α} :
    (⟨[], w, .returned a⟩ : Result O W α).Meets view e after ↔ after a w e := by
  constructor
  · rintro ⟨rest, rfl, fit⟩
    exact fit
  · intro fit
    exact ⟨e, rfl, fit⟩

/-- A weaker relation. -/
theorem Meets.mono {after' : α → W → Result O V β → Prop} {r : Result O W α}
    (meets : r.Meets view e after) (weaker : ∀ a w rest, after a w rest → after' a w rest) :
    r.Meets view e after' := by
  obtain ⟨steps, w, out⟩ := r
  cases out with
  | returned a =>
    obtain ⟨rest, said, fit⟩ := meets
    exact ⟨rest, said, weaker a w rest fit⟩
  | blocked => exact meets
  | unfinished => exact meets

/-- One part after another. -/
theorem Meets.andThen {after' : γ → W → Result O V β → Prop} {r : Result O W α}
    {f : α → W → Result O W γ} (first : r.Meets view e after)
    (next : ∀ a w rest, after a w rest → (f a w).Meets view rest after') :
    (r.andThen f).Meets view e after' := by
  obtain ⟨steps, w, out⟩ := r
  cases out with
  | returned a =>
    obtain ⟨rest, rfl, fit⟩ := first
    have second := next a w rest fit
    rw [andThen_returned]
    generalize f a w = r' at second ⊢
    obtain ⟨steps', w', out'⟩ := r'
    cases out' with
    | returned b =>
      obtain ⟨rest', rfl, fit'⟩ := second
      exact ⟨rest', prepend_prepend steps steps' rest', fit'⟩
    | blocked =>
      cases second
      rfl
    | unfinished => exact second
  | blocked => exact first
  | unfinished => exact first

/-- What was said first is what the abstract run says first. -/
theorem meets_said {os : List O} {w : W} {a : α} {f : α → W → Result O W γ}
    {after : γ → W → Result O V β → Prop} (next : (f a w).Meets view e after) :
    ((⟨os, w, .returned a⟩ : Result O W α).andThen f).Meets view (e.prepend os) after := by
  have first : (⟨os, w, .returned a⟩ : Result O W α).Meets view (e.prepend os)
      fun a' w' rest => a' = a ∧ w' = w ∧ rest = e := ⟨e, rfl, rfl, rfl, rfl⟩
  refine first.andThen ?_
  rintro _ _ _ ⟨rfl, rfl, rfl⟩
  exact next

/-- **A loop meets what its rounds meet**, when every round that goes on leaves a smaller measure and
there are more rounds than that. -/
theorem meets_rounds {f : σ → W → Result O W (σ ⊕ α)} {Inv : Nat → σ → W → Result O V β → Prop}
    (round : ∀ k s w e, Inv k s w e → (f s w).Meets view e fun x w' rest =>
      match x with
      | .inl s' => ∃ k' < k, Inv k' s' w' rest
      | .inr a => after a w' rest)
    {k m : Nat} (enough : k < m) {s : σ} {w : W} (start : Inv k s w e) :
    (rounds f m s w).Meets view e after := by
  induction m generalizing k s w e with
  | zero => exact absurd enough (Nat.not_lt_zero k)
  | succ m ih =>
    rw [rounds]
    refine (round k s w e start).andThen fun x w' rest fit => ?_
    cases x with
    | inl s' =>
      obtain ⟨k', less, inv⟩ := fit
      exact ih (by omega) inv
    | inr a => exact meets_nil.mpr fit

/-- **A program that meets an abstract result to its end reports it.** -/
theorem Meets.report_eq {ask : α → W → β} {r : Result O W α}
    (meets : r.Meets view e fun a w rest => rest = ⟨[], view w, .returned (ask a w)⟩) :
    r.report view ask = e := by
  obtain ⟨steps, w, out⟩ := r
  cases out with
  | returned a =>
    obtain ⟨rest, rfl, rfl⟩ := meets
    simp only [report, prepend, List.append_nil]
  | blocked => exact Eq.symm meets
  | unfinished => exact meets.elim

end Result

section Runs

variable {S : Signature} {h : Handler S W} {obs : Event S → Option O} {view : W → V}
  {ask : α → W → β} {p : Prog S α} {w : W} {e : Result O V β}

/-- The runs of a program show `e`: every run the beginning of it, one that has returned all of it,
and there is a run that shows all of it and has returned if `e` says so. -/
structure Follows (h : Handler S W) (obs : Event S → Option O) (view : W → V) (ask : α → W → β)
    (p : Prog S α) (w : W) (e : Result O V β) : Prop where
  begins : ∀ {tr w' out}, Run h.env w p tr w' out → (events tr).filterMap obs <+: e.steps
  ends : ∀ {tr w' a}, Run h.env w p tr w' (some a) →
    e = ⟨(events tr).filterMap obs, view w', .returned (ask a w')⟩
  reached : ∃ tr w' out, Run h.env w p tr w' out ∧ (events tr).filterMap obs = e.steps ∧
    view w' = e.world ∧ ∀ b, e.outcome = .returned b ↔ ∃ a, out = some a ∧ ask a w' = b

/-- **A report that does not depend on the budget** is what the runs show. -/
theorem follows_of_report {k : Nat}
    (same : ∀ n, k < n → (play h n obs p w).report view ask = e) : Follows h obs view ask p w e where
  begins {tr w' out} run := by
    obtain ⟨n₀, found⟩ := play_of_run run
    rw [← same (max n₀ (k + 1)) (by omega)]
    exact (found (max n₀ (k + 1)) (by omega)).1
  ends {tr w' a} run := by
    obtain ⟨n₀, found⟩ := play_of_run run
    rw [← same (max n₀ (k + 1)) (by omega), (found (max n₀ (k + 1)) (by omega)).2 a rfl]
    rfl
  reached := by
    refine ⟨_, _, _, exec_run h (k + 1) p w, ?_⟩
    rw [← same (k + 1) (Nat.lt_succ_self k)]
    refine ⟨rfl, rfl, fun b => ?_⟩
    unfold play Result.watch Result.report
    cases (exec h (k + 1) p w).outcome with
    | returned a =>
      constructor
      · intro returned
        cases returned
        exact ⟨a, rfl, rfl⟩
      · rintro ⟨_, ⟨⟩, rfl⟩
        rfl
    | blocked => exact iff_of_false nofun nofun
    | unfinished => exact iff_of_false nofun nofun

end Runs

end ZeroProcHot.Interact
