import ZeroProcHot.Interact.Prog

/-!
# The rules for a program's runs

`wp E P p Q w` says of every run of `p` from `w` against `E`: each step satisfies `P`, and if the
run returns, its result and its last world satisfy `Q`. It is a fold of the program; a loop asks
for an invariant of its state and the world.

`observe` adds to an environment an observer, which reads the events and remembers what it wants.
The point of an observer is that the law of an event may speak of the events before it
(`Run.observed`). A second use is the split of a proof: a program is shown once to keep to a
protocol, against no environment in particular (`Conforms`). Its runs then follow the protocol in
every environment (`Run.follows`), and every later law is an invariant of the events so far and the
environment's worlds (`Run.law`), with the program out of sight.
-/

namespace ZeroProcHot.Interact

variable {S : Signature} {W V α β σ : Type}

/-- What a loop's invariant and the postcondition after it say of the result of one round. -/
def afterRound (J : σ → W → Prop) (K : β → W → Prop) : σ ⊕ β → W → Prop
  | .inl s => J s
  | .inr b => K b

@[simp] theorem afterRound_inl (J : σ → W → Prop) (K : β → W → Prop) (s : σ) :
    afterRound J K (.inl s) = J s := rfl

@[simp] theorem afterRound_inr (J : σ → W → Prop) (K : β → W → Prop) (b : β) :
    afterRound J K (.inr b) = K b := rfl

/-- Every step of every run satisfies `P`, and every result satisfies `Q`. -/
def wp (E P : Env S W) : {α : Type} → Prog S α → (α → W → Prop) → W → Prop
  | _, .ret a, Q, w => Q a w
  | _, .call c k, Q, w => ∀ r w', E w ⟨c, r⟩ w' → P w ⟨c, r⟩ w' ∧ wp E P (k r) Q w'
  | _, .loop (σ := σ) body s k, Q, w => ∃ J : σ → W → Prop, J s w ∧
      ∀ s w, J s w → wp E P (body s) (afterRound J fun b => wp E P (k b) Q) w

variable {E P : Env S W}

@[simp] theorem wp_pure (a : α) (Q : α → W → Prop) (w : W) :
    wp E P (Pure.pure a) Q w ↔ Q a w := Iff.rfl

/-- A weaker postcondition. -/
theorem wp_mono {p : Prog S α} {Q Q' : α → W → Prop} {w : W} (h : ∀ a w, Q a w → Q' a w)
    (hp : wp E P p Q w) : wp E P p Q' w := by
  induction p generalizing w with
  | ret a => exact h a w hp
  | call c k ih =>
    intro r w' step
    exact ⟨(hp r w' step).1, ih r h (hp r w' step).2⟩
  | loop body s k ihBody ih =>
    obtain ⟨J, start, round⟩ := hp
    refine ⟨J, start, fun s w hJ => ihBody s ?_ (round s w hJ)⟩
    rintro (s' | b) w' hw
    · exact hw
    · exact ih b h hw

/-- One program after another. -/
@[simp] theorem wp_bind (p : Prog S α) (f : α → Prog S β) (Q : β → W → Prop) (w : W) :
    wp E P (p >>= f) Q w ↔ wp E P p (fun a => wp E P (f a) Q) w := by
  simp only [Prog.bind_eq]
  induction p generalizing w with
  | ret a => rfl
  | call c k ih => simp only [Prog.bind, wp, ih]
  | loop body s k _ ih =>
    have hk : (fun b => wp E P ((k b).bind f) Q) =
        fun b => wp E P (k b) (fun a => wp E P (f a) Q) := by
      funext b w
      exact propext (ih b f w)
    simp only [Prog.bind, wp, hk]

/-- The branch that is taken. -/
@[simp] theorem wp_ite (c : Prop) [Decidable c] (p q : Prog S α) (Q : α → W → Prop) (w : W) :
    wp E P (if c then p else q) Q w ↔ if c then wp E P p Q w else wp E P q Q w := by
  split <;> rfl

/-- The loop rule: an invariant that one round keeps, and the result of the last round. -/
theorem wp_iter {body : σ → Prog S (σ ⊕ β)} {s : σ} {Q : β → W → Prop} {w : W}
    (J : σ → W → Prop) (start : J s w)
    (round : ∀ s w, J s w → wp E P (body s) (afterRound J Q) w) :
    wp E P (Prog.iter body s) Q w :=
  ⟨J, start, round⟩

/-- The rule for a loop over a list: an invariant that the loop's body keeps at each member. -/
theorem wp_forM {ι : Type} {xs : List ι} {f : ι → Prog S PUnit} {w : W} (J : W → Prop)
    (start : J w) (body : ∀ x ∈ xs, ∀ w, J w → wp E P (f x) (fun _ => J) w) :
    wp E P (forM xs f) (fun _ => J) w := by
  induction xs generalizing w with
  | nil => exact start
  | cons x xs ih =>
    rw [List.forM_cons, wp_bind]
    refine wp_mono (fun _ w hw => ?_) (body x List.mem_cons_self w start)
    exact ih hw fun y hy => body y (List.mem_cons_of_mem x hy)

/-- The rule for a loop over a list whose body moves the world on in one way. -/
theorem wp_forM_foldl {ι : Type} {xs : List ι} {f : ι → Prog S PUnit} (next : W → ι → W)
    (body : ∀ x w (Q : W → Prop), Q (next w x) → wp E P (f x) (fun _ => Q) w) {Q : W → Prop} {w : W}
    (h : Q (xs.foldl next w)) : wp E P (forM xs f) (fun _ => Q) w := by
  induction xs generalizing w with
  | nil => exact h
  | cons x xs ih =>
    rw [List.forM_cons, wp_bind]
    exact body x w _ (ih h)

/-- **The rules are sound.** -/
theorem wp_sound {p : Prog S α} {Q : α → W → Prop} {w w' : W} {tr : List (Step S W)}
    {out : Option α} (run : Run E w p tr w' out) (h : wp E P p Q w) :
    (∀ st ∈ tr, P st.before st.event st.after) ∧ ∀ a, out = some a → Q a w' := by
  induction run with
  | stop =>
    exact ⟨fun _ h => (List.not_mem_nil h).elim, fun _ h => (Option.some_ne_none _ h.symm).elim⟩
  | ret =>
    refine ⟨fun _ h => (List.not_mem_nil h).elim, fun a ha => ?_⟩
    cases ha
    exact h
  | call step _ ih =>
    obtain ⟨hstep, hrest⟩ := h _ _ step
    obtain ⟨steps, result⟩ := ih hrest
    exact ⟨List.forall_mem_cons.mpr ⟨hstep, steps⟩, result⟩
  | loopNext _ _ ihRound ih =>
    obtain ⟨J, start, round⟩ := h
    obtain ⟨steps, result⟩ := ihRound (round _ _ start)
    obtain ⟨steps', result'⟩ := ih ⟨J, result _ rfl, round⟩
    exact ⟨List.forall_mem_append.mpr ⟨steps, steps'⟩, result'⟩
  | loopDone _ _ ihRound ih =>
    obtain ⟨J, start, round⟩ := h
    obtain ⟨steps, result⟩ := ihRound (round _ _ start)
    obtain ⟨steps', result'⟩ := ih (result _ rfl)
    exact ⟨List.forall_mem_append.mpr ⟨steps, steps'⟩, result'⟩
  | loopStop _ ihRound =>
    obtain ⟨J, start, round⟩ := h
    exact ⟨(ihRound (round _ _ start)).1, fun _ h => (Option.some_ne_none _ h.symm).elim⟩

/-! ## Observers -/

/-- An environment watched by an observer, whose memory each event moves on by `see`. -/
def observe (E : Env S W) (see : V → Event S → V) : Env S (W × V) :=
  fun w e w' => E w.1 e w'.1 ∧ w'.2 = see w.2 e

/-- The rule for one call that is watched. -/
theorem wp_perform_observed {see : V → Event S → V} {R : Env S (W × V)} {c : S.Call}
    {Q : S.Answer c → W × V → Prop} {w : W} {v : V} :
    wp (observe E see) R (Prog.perform c) Q (w, v) ↔ ∀ r w', E w ⟨c, r⟩ w' →
      R (w, v) ⟨c, r⟩ (w', see v ⟨c, r⟩) ∧ Q r (w', see v ⟨c, r⟩) := by
  constructor
  · intro h r w' step
    exact h r (w', see v ⟨c, r⟩) ⟨step, rfl⟩
  · rintro h r ⟨w', v'⟩ ⟨step, seen⟩
    obtain rfl : v' = see v ⟨c, r⟩ := seen
    exact h r w' step

/-- What an observer remembers after the events of a run. -/
def after (see : V → Event S → V) (v : V) (tr : List (Step S W)) : V := (events tr).foldl see v

@[simp] theorem after_nil (see : V → Event S → V) (v : V) :
    after see v ([] : List (Step S W)) = v := rfl

@[simp] theorem after_cons (see : V → Event S → V) (v : V) (st : Step S W)
    (tr : List (Step S W)) : after see v (st :: tr) = after see (see v st.event) tr := rfl

@[simp] theorem after_append (see : V → Event S → V) (v : V) (tr tr' : List (Step S W)) :
    after see v (tr ++ tr') = after see (after see v tr) tr' := by
  simp only [after, events_append, List.foldl_append]

/-- The steps of a run with the observer's memory beside each world. -/
def watched (see : V → Event S → V) : V → List (Step S W) → List (Step S (W × V))
  | _, [] => []
  | v, st :: tr =>
    ⟨(st.before, v), st.event, (st.after, see v st.event)⟩ :: watched see (see v st.event) tr

/-- The observer goes on where it was. -/
theorem watched_append (see : V → Event S → V) (v : V) (tr tr' : List (Step S W)) :
    watched see v (tr ++ tr') = watched see v tr ++ watched see (after see v tr) tr' := by
  induction tr generalizing v with
  | nil => rfl
  | cons st tr ih => simp only [List.cons_append, watched, ih, after_cons]

/-- An observer stops no run. -/
theorem Run.watch (see : V → Event S → V) (v : V) {w w' : W} {p : Prog S α}
    {tr : List (Step S W)} {out : Option α} (run : Run E w p tr w' out) :
    Run (observe E see) (w, v) p (watched see v tr) (w', after see v tr) out := by
  induction run generalizing v with
  | stop => exact .stop
  | ret => exact .ret
  | call step _ ih => exact .call ⟨step, rfl⟩ (ih _)
  | loopNext _ _ ihRound ih =>
    rw [watched_append, after_append]
    exact .loopNext (ihRound v) (ih _)
  | loopDone _ _ ihRound ih =>
    rw [watched_append, after_append]
    exact .loopDone (ihRound v) (ih _)
  | loopStop _ ihRound => exact .loopStop (ihRound v)

/-- **The law of every point of every run**: at each step the observer remembers the events before
it, and at the end all of them. -/
theorem Run.observed {see : V → Event S → V} {P : Env S (W × V)} {p : Prog S α}
    {Q : α → W × V → Prop} {w w' : W} {v : V} {tr : List (Step S W)} {out : Option α}
    (run : Run E w p tr w' out) (h : wp (observe E see) P p Q (w, v)) :
    (∀ pre st post, tr = pre ++ st :: post →
      P (st.before, after see v pre) st.event (st.after, after see v (pre ++ [st]))) ∧
    ∀ a, out = some a → Q a (w', after see v tr) := by
  obtain ⟨steps, result⟩ := wp_sound (run.watch see v) h
  refine ⟨fun pre st post cut => ?_, result⟩
  subst cut
  rw [watched_append] at steps
  have hst := steps _ (List.mem_append_right _ List.mem_cons_self)
  simpa only [after_append, after_cons, after_nil] using hst

/-! ## Protocols -/

/-- A protocol: the events it allows in a state, and the state each event leads to. -/
structure Protocol (S : Signature) (V : Type) where
  next : V → Event S → V
  allows : V → Event S → Prop

/-- **The program keeps to the protocol** from `v`, whatever the environment answers: it makes
only calls the protocol allows, and returns only where `Q` allows it. -/
def Conforms (T : Protocol S V) (p : Prog S α) (Q : α → V → Prop) (v : V) : Prop :=
  wp (fun v e v' => v' = T.next v e) (fun v e _ => T.allows v e) p Q v

section Conformance

variable {T : Protocol S V} {v : V}

@[simp] theorem conforms_pure (a : α) (Q : α → V → Prop) :
    Conforms T (Pure.pure a) Q v ↔ Q a v := Iff.rfl

/-- One program after another. -/
@[simp] theorem conforms_bind (p : Prog S α) (f : α → Prog S β) (Q : β → V → Prop) :
    Conforms T (p >>= f) Q v ↔ Conforms T p (fun a v => Conforms T (f a) Q v) v :=
  wp_bind p f Q v

@[simp] theorem conforms_ite (c : Prop) [Decidable c] (p q : Prog S α) (Q : α → V → Prop) :
    Conforms T (if c then p else q) Q v ↔ if c then Conforms T p Q v else Conforms T q Q v :=
  wp_ite c p q Q v

/-- A weaker condition at the end. -/
theorem conforms_mono {p : Prog S α} {Q Q' : α → V → Prop} (h : ∀ a v, Q a v → Q' a v)
    (hp : Conforms T p Q v) : Conforms T p Q' v := wp_mono h hp

/-- The loop rule of a protocol. -/
theorem conforms_iter {body : σ → Prog S (σ ⊕ β)} {s : σ} {Q : β → V → Prop}
    (J : σ → V → Prop) (start : J s v)
    (round : ∀ s v, J s v → Conforms T (body s) (afterRound J Q) v) :
    Conforms T (Prog.iter body s) Q v := wp_iter J start round

/-- The rule for a loop over a list. -/
theorem conforms_forM {ι : Type} {xs : List ι} {f : ι → Prog S PUnit} (J : V → Prop)
    (start : J v) (body : ∀ x ∈ xs, ∀ v, J v → Conforms T (f x) (fun _ => J) v) :
    Conforms T (forM xs f) (fun _ => J) v := wp_forM J start body

end Conformance

/-- The state of a protocol after some events. -/
def Protocol.state (T : Protocol S V) (v : V) (es : List (Event S)) : V := es.foldl T.next v

@[simp] theorem Protocol.state_nil (T : Protocol S V) (v : V) : T.state v [] = v := rfl

@[simp] theorem Protocol.state_cons (T : Protocol S V) (v : V) (e : Event S)
    (es : List (Event S)) : T.state v (e :: es) = T.state (T.next v e) es := rfl

/-- The state goes on from where it was. -/
@[simp] theorem Protocol.state_append (T : Protocol S V) (v : V) (es es' : List (Event S)) :
    T.state v (es ++ es') = T.state (T.state v es) es' := List.foldl_append

/-- **The runs of a program that keeps to a protocol follow it**, against every environment. -/
theorem Run.follows {T : Protocol S V} {p : Prog S α} {Q : α → V → Prop} {w w' : W} {v : V}
    {tr : List (Step S W)} {out : Option α} (run : Run E w p tr w' out) (h : Conforms T p Q v) :
    (∀ pre st post, tr = pre ++ st :: post → T.allows (T.state v (events pre)) st.event) ∧
    ∀ a, out = some a → Q a (T.state v (events tr)) := by
  have bare : Run (fun v e v' => v' = T.next v e) v p _ (after T.next v tr) out :=
    (run.watch T.next v).project Prod.snd fun _ _ _ h => h.2
  obtain ⟨steps, result⟩ := wp_sound bare h
  refine ⟨fun pre st post cut => ?_, result⟩
  subst cut
  rw [watched_append, List.map_append] at steps
  exact steps _ (List.mem_append_right _ List.mem_cons_self)

/-- **The invariants of a path**: what every step keeps, of the world and the events so far, holds at
its end, and each step has what the invariant before it gives. `R` is what is known of each step
already. -/
theorem Path.law {w w' : W} {tr : List (Step S W)} (path : Path E w tr w')
    (R G : W → List (Event S) → Event S → W → Prop) (Inv : W → List (Event S) → Prop)
    (known : ∀ pre st post, tr = pre ++ st :: post → R st.before (events pre) st.event st.after)
    (start : Inv w [])
    (step : ∀ w es e w', Inv w es → R w es e w' → E w e w' → G w es e w' ∧ Inv w' (es ++ [e])) :
    (∀ pre st post, tr = pre ++ st :: post → G st.before (events pre) st.event st.after) ∧
    Inv w' (events tr) := by
  suffices key : ∀ es₀, Inv w es₀ →
      (∀ pre st post, tr = pre ++ st :: post →
        R st.before (es₀ ++ events pre) st.event st.after) →
      (∀ pre st post, tr = pre ++ st :: post →
        G st.before (es₀ ++ events pre) st.event st.after) ∧ Inv w' (es₀ ++ events tr) from
    key [] start known
  clear start known
  induction path with
  | nil =>
    intro es₀ hInv _
    refine ⟨fun pre st post cut => ?_, by simpa using hInv⟩
    exact absurd cut.symm (List.append_ne_nil_of_right_ne_nil pre (List.cons_ne_nil st post))
  | @cons w w₁ w₂ e tr hE rest ih =>
    intro es₀ hInv known
    have first := known [] _ tr rfl
    rw [events_nil, List.append_nil] at first
    obtain ⟨hG, hInv'⟩ := step w es₀ e w₁ hInv first hE
    have later : ∀ pre st post, tr = pre ++ st :: post →
        R st.before (es₀ ++ [e] ++ events pre) st.event st.after := by
      intro pre st post cut
      have hst := known (⟨w, e, w₁⟩ :: pre) st post (congrArg (⟨w, e, w₁⟩ :: ·) cut)
      rw [List.append_assoc]
      exact hst
    obtain ⟨hsteps, hlast⟩ := ih (es₀ ++ [e]) hInv' later
    rw [List.append_assoc] at hlast
    refine ⟨fun pre st post cut => ?_, hlast⟩
    cases pre with
    | nil =>
      obtain ⟨rfl, rfl⟩ := List.cons.inj cut
      rw [events_nil, List.append_nil]
      exact hG
    | cons st' pre =>
      obtain ⟨rfl, cut'⟩ := List.cons.inj cut
      have hst := hsteps pre st post cut'
      rw [List.append_assoc] at hst
      exact hst

/-- **The invariants of a program that keeps to a protocol**: they need to survive only the steps
that the protocol allows. -/
theorem Run.law {T : Protocol S V} {p : Prog S α} {Q : α → V → Prop} {w w' : W} {v : V}
    {tr : List (Step S W)} {out : Option α} (run : Run E w p tr w' out) (h : Conforms T p Q v)
    (Inv : W → List (Event S) → Prop) (G : W → List (Event S) → Event S → W → Prop)
    (start : Inv w [])
    (step : ∀ w es e w', Inv w es → T.allows (T.state v es) e → E w e w' →
      G w es e w' ∧ Inv w' (es ++ [e])) :
    (∀ pre st post, tr = pre ++ st :: post → G st.before (events pre) st.event st.after) ∧
    Inv w' (events tr) :=
  run.path.law (fun _ es e _ => T.allows (T.state v es) e) G Inv (run.follows h).1 start step

end ZeroProcHot.Interact
