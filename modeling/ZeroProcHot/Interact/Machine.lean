import ZeroProcHot.Interact.Exec

/-!
# Machines that take their input item by item

A machine takes one item at a time, says something to each and stops in some of its states, with the
rest of the items not taken. `play` is its run on a list; a machine that has taken all its items and
has not stopped waits for more (`play_append`).
-/

namespace ZeroProcHot.Interact

variable {σ ι O : Type}

/-- The states in which the machine has stopped, and what it makes of an item in any other. -/
structure Machine (σ ι O : Type) where
  stopped : σ → Bool
  feed : σ → ι → List O × σ

/-- Something said before. -/
def Result.prepend {L W α : Type} (said : List L) (r : Result L W α) : Result L W α :=
  ⟨said ++ r.steps, r.world, r.outcome⟩

section Prepend

variable {L W V α β : Type}

@[simp] theorem Result.prepend_nil (r : Result L W α) : r.prepend [] = r := rfl

/-- What was said before what was said before. -/
@[simp] theorem Result.prepend_prepend (said said' : List L) (r : Result L W α) :
    (r.prepend said').prepend said = r.prepend (said ++ said') := by
  simp only [prepend, List.append_assoc]

@[simp] theorem Result.prepend_steps (said : List L) (r : Result L W α) :
    (r.prepend said).steps = said ++ r.steps := rfl

@[simp] theorem Result.prepend_world (said : List L) (r : Result L W α) :
    (r.prepend said).world = r.world := rfl

@[simp] theorem Result.prepend_outcome (said : List L) (r : Result L W α) :
    (r.prepend said).outcome = r.outcome := rfl

/-- The world seen through a map. -/
def Result.mapWorld (f : W → V) (r : Result L W α) : Result L V α := ⟨r.steps, f r.world, r.outcome⟩

@[simp] theorem Result.mapWorld_prepend (f : W → V) (said : List L) (r : Result L W α) :
    (r.prepend said).mapWorld f = (r.mapWorld f).prepend said := rfl

end Prepend

namespace Machine

variable (M : Machine σ ι O)

/-- The run on some items: what is said, the last state, and the items left when the machine stops. -/
def play : σ → List ι → Result O σ (List ι)
  | s, [] => if M.stopped s then ⟨[], s, .returned []⟩ else ⟨[], s, .blocked⟩
  | s, item :: items =>
    if M.stopped s then ⟨[], s, .returned (item :: items)⟩
    else (play (M.feed s item).2 items).prepend (M.feed s item).1

variable {M} {s : σ}

/-- A stopped machine takes nothing. -/
theorem play_stopped (h : M.stopped s = true) (items : List ι) :
    M.play s items = ⟨[], s, .returned items⟩ := by
  cases items <;> exact if_pos h

/-- A machine with no item to take waits. -/
theorem play_nil (h : M.stopped s = false) : M.play s [] = ⟨[], s, .blocked⟩ := by
  unfold play
  rw [if_neg (by rw [h]; decide)]

/-- A machine that is on takes the first item. -/
theorem play_cons (h : M.stopped s = false) (item : ι) (items : List ι) :
    M.play s (item :: items) = (M.play (M.feed s item).2 items).prepend (M.feed s item).1 := by
  rw [play, if_neg (by rw [h]; decide)]

/-- An item that says nothing and leaves the state. -/
theorem play_idle (h : M.stopped s = false) {item : ι} (idle : M.feed s item = ([], s))
    (items : List ι) : M.play s (item :: items) = M.play s items := by
  rw [play_cons h, idle]
  rfl

/-- Items that all say nothing and leave the state. -/
theorem play_idles (h : M.stopped s = false) {quiet : List ι}
    (idle : ∀ item ∈ quiet, M.feed s item = ([], s)) (items : List ι) :
    M.play s (quiet ++ items) = M.play s items := by
  induction quiet with
  | nil => rfl
  | cons item quiet ih =>
    obtain ⟨first, rest⟩ := List.forall_mem_cons.mp idle
    rw [List.cons_append, play_idle h first, ih rest]

/-- A machine stops or waits. -/
theorem play_outcome (M : Machine σ ι O) (s : σ) (items : List ι) :
    (M.play s items).outcome = .blocked ∨ ∃ rest, (M.play s items).outcome = .returned rest := by
  induction items generalizing s with
  | nil =>
    cases h : M.stopped s with
    | true => exact .inr ⟨[], by rw [play_stopped h]⟩
    | false => exact .inl (by rw [play_nil h])
  | cons item items ih =>
    cases h : M.stopped s with
    | true => exact .inr ⟨item :: items, by rw [play_stopped h]⟩
    | false =>
      rw [play_cons h]
      exact ih (M.feed s item).2

/-- Where the machine waits it has not stopped. -/
theorem play_waits {items : List ι} (waits : (M.play s items).outcome = .blocked) :
    M.stopped (M.play s items).world = false := by
  induction items generalizing s with
  | nil =>
    cases h : M.stopped s with
    | true =>
      rw [play_stopped h] at waits
      cases waits
    | false => rw [play_nil h, h]
  | cons item items ih =>
    cases h : M.stopped s with
    | true =>
      rw [play_stopped h] at waits
      cases waits
    | false =>
      rw [play_cons h] at waits ⊢
      exact ih waits

/-- Where the machine has left items it has stopped. -/
theorem play_stops {items rest : List ι} (stops : (M.play s items).outcome = .returned rest) :
    M.stopped (M.play s items).world = true := by
  induction items generalizing s with
  | nil =>
    cases h : M.stopped s with
    | true => rw [play_stopped h, h]
    | false =>
      rw [play_nil h] at stops
      cases stops
  | cons item items ih =>
    cases h : M.stopped s with
    | true => rw [play_stopped h, h]
    | false =>
      rw [play_cons h] at stops ⊢
      exact ih stops

/-- **More items go on where the first ones ended**: a stopped machine leaves them, and a machine that
waits takes them from its last state on. -/
theorem play_append (s : σ) (items more : List ι) :
    M.play s (items ++ more) =
      match (M.play s items).outcome with
      | .returned rest => ⟨(M.play s items).steps, (M.play s items).world, .returned (rest ++ more)⟩
      | _ => (M.play (M.play s items).world more).prepend (M.play s items).steps := by
  induction items generalizing s with
  | nil =>
    cases h : M.stopped s with
    | true => rw [play_stopped h, List.nil_append, play_stopped h]; rfl
    | false =>
      rw [play_nil h]
      rfl
  | cons item items ih =>
    cases h : M.stopped s with
    | true => rw [play_stopped h, play_stopped h]
    | false =>
      rw [List.cons_append, play_cons h, play_cons h, ih]
      simp only [Result.prepend_steps, Result.prepend_world, Result.prepend_outcome]
      split
      · rfl
      · rw [Result.prepend_prepend]

/-- A machine that waits goes on with more items. -/
theorem play_append_waits {items : List ι} (waits : (M.play s items).outcome = .blocked)
    (more : List ι) :
    M.play s (items ++ more) =
      (M.play (M.play s items).world more).prepend (M.play s items).steps := by
  rw [play_append, waits]

/-- Items that leave the state the machine has come to can be left out. -/
theorem play_leave_out {items quiet : List ι} (on : M.stopped (M.play s items).world = false)
    (idle : ∀ item ∈ quiet, M.feed (M.play s items).world item = ([], (M.play s items).world))
    (more : List ι) : M.play s (items ++ (quiet ++ more)) = M.play s (items ++ more) := by
  rcases M.play_outcome s items with waits | ⟨rest, stops⟩
  · rw [play_append_waits waits, play_append_waits waits, play_idles on idle]
  · rw [play_stops stops] at on
    cases on

/-- **What every item keeps holds at the end**: of the state and of all that was said. -/
theorem play_induct {Inv : List O → σ → Prop}
    (step : ∀ said s item, M.stopped s = false → Inv said s →
      Inv (said ++ (M.feed s item).1) (M.feed s item).2)
    {said : List O} (start : Inv said s) (items : List ι) :
    Inv (said ++ (M.play s items).steps) (M.play s items).world := by
  induction items generalizing s said with
  | nil =>
    unfold play
    split <;>
    · rw [List.append_nil]
      exact start
  | cons item items ih =>
    cases h : M.stopped s with
    | true =>
      rw [play_stopped h, List.append_nil]
      exact start
    | false =>
      rw [play_cons h, Result.prepend_steps, Result.prepend_world, ← List.append_assoc]
      exact ih (step said s item h start)

/-! ## Two machines side by side -/

section Lockstep

variable {τ A : Type} {N : Machine τ ι A} {t : τ}

/-- **Two machines that keep a relation item by item** keep it over a run, and both stop or both wait.
The relation may speak of all that has been said. -/
theorem play_lockstep {R : List O → σ → List A → τ → Prop}
    (stops : ∀ os s as t, R os s as t → M.stopped s = N.stopped t)
    (step : ∀ os s as t item, M.stopped s = false → R os s as t →
      R (os ++ (M.feed s item).1) (M.feed s item).2 (as ++ (N.feed t item).1) (N.feed t item).2)
    {os : List O} {as : List A} (start : R os s as t) (items : List ι) :
    R (os ++ (M.play s items).steps) (M.play s items).world (as ++ (N.play t items).steps)
        (N.play t items).world ∧
      (M.play s items).outcome = (N.play t items).outcome := by
  induction items generalizing os s as t with
  | nil =>
    have same := stops os s as t start
    cases h : M.stopped s with
    | true =>
      rw [play_stopped h, play_stopped (same.symm.trans h), List.append_nil, List.append_nil]
      exact ⟨start, rfl⟩
    | false =>
      rw [play_nil h, play_nil (same.symm.trans h), List.append_nil, List.append_nil]
      exact ⟨start, rfl⟩
  | cons item items ih =>
    have same := stops os s as t start
    cases h : M.stopped s with
    | true =>
      rw [play_stopped h, play_stopped (same.symm.trans h), List.append_nil, List.append_nil]
      exact ⟨start, rfl⟩
    | false =>
      rw [play_cons h, play_cons (same.symm.trans h)]
      simp only [Result.prepend_steps, Result.prepend_world, Result.prepend_outcome,
        ← List.append_assoc]
      exact ih (step os s as t item h start)

end Lockstep

end Machine

end ZeroProcHot.Interact
