import Mathlib.Algebra.Ring.Nat
import Mathlib.Data.List.Induction
import ZeroProcHot.Interact.Wp

/-!
# Work between two waits

A meter prices the events of a program and is filled up again by some of them. `Costs M k p` says
that `p` can be paid with `k`; the costs of a sequence add up (`costs_bind`), so the cost of straight
code is read off its text. A program that a full meter can pay for spends, in every run against every
environment, at most a full meter between two events that fill it (`Meter.stretch`), and all in all no
more than a meter for each of these events (`Meter.total`).
-/

namespace ZeroProcHot.Interact

variable {S : Signature} {W α β : Type}

/-- The price of an event, the events that fill the meter, and what a full meter holds. -/
structure Meter (S : Signature) where
  price : Event S → Nat
  fills : Event S → Prop
  decides : DecidablePred fills
  full : Nat

namespace Meter

variable (M : Meter S)

instance : DecidablePred M.fills := M.decides

/-- The protocol of a meter: no event is paid for that the meter cannot pay. -/
def protocol : Protocol S Nat :=
  ⟨fun left e => if M.fills e then M.full else left - M.price e,
    fun left e => M.fills e ∨ M.price e ≤ left⟩

/-- The price of some events. -/
def spent (es : List (Event S)) : Nat := (es.map M.price).sum

variable {M} {left : Nat} {e : Event S}

/-- A filling call sets the budget to full. -/
theorem next_full (h : M.fills e) : M.protocol.next left e = M.full := if_pos h

theorem next_paid (h : ¬ M.fills e) : M.protocol.next left e = left - M.price e := if_neg h

/-- The meter never holds more than it can. -/
theorem state_le (es : List (Event S)) : M.protocol.state M.full es ≤ M.full := by
  induction es using List.reverseRecOn with
  | nil => exact Nat.le_refl _
  | append_singleton es e ih =>
    rw [Protocol.state_append, Protocol.state_cons, Protocol.state_nil]
    by_cases h : M.fills e
    · exact Nat.le_of_eq (next_full h)
    · rw [next_paid h]
      omega

/-- What is spent without a filling was in the meter before. -/
theorem spent_le {es : List (Event S)} (dry : ∀ e ∈ es, ¬ M.fills e)
    (paid : ∀ pre e post, es = pre ++ e :: post → M.protocol.allows (M.protocol.state left pre) e) :
    M.spent es ≤ left := by
  induction es generalizing left with
  | nil => exact Nat.zero_le left
  | cons e es ih =>
    obtain ⟨first, rest⟩ := List.forall_mem_cons.mp dry
    have affordable := (paid [] e es rfl).resolve_left first
    have later : M.spent es ≤ left - M.price e := by
      rw [← next_paid first]
      refine ih rest fun pre e' post cut => ?_
      exact paid (e :: pre) e' post (congrArg (e :: ·) cut)
    rw [Protocol.state_nil] at affordable
    show M.price e + M.spent es ≤ left
    omega

/-- **Between two fillings** a program that a full meter can pay for spends at most a full meter. -/
theorem stretch {E : Env S W} {w w' : W} {p : Prog S α} {Q : α → Nat → Prop}
    {tr pre mid post : List (Step S W)} {out : Option α} (run : Run E w p tr w' out)
    (pays : Conforms M.protocol p Q M.full) (cut : tr = pre ++ mid ++ post)
    (dry : ∀ st ∈ mid, ¬ M.fills st.event) : M.spent (events mid) ≤ M.full := by
  have steps := (run.follows pays).1
  have before : M.spent (events mid) ≤ M.protocol.state M.full (events pre) := by
    refine spent_le (fun e he => ?_) fun es e es' split => ?_
    · obtain ⟨st, mem, rfl⟩ := List.mem_map.mp he
      exact dry st mem
    · obtain ⟨first, rest, rfl, rfl, rest_eq⟩ := List.map_eq_append_iff.mp split
      obtain ⟨st, last, rfl, rfl, _⟩ := List.map_eq_cons_iff.mp rest_eq
      rw [← Protocol.state_append]
      have allowed := steps (pre ++ first) st (last ++ post) (by rw [cut]; simp)
      rw [events_append] at allowed
      exact allowed
  exact Nat.le_trans before (state_le _)

/-- How often some events fill the meter. -/
def fillings (M : Meter S) (es : List (Event S)) : Nat := es.countP fun e => M.fills e

/-- Every filling pays for itself and for a full meter. -/
theorem spent_total {k : Nat} (price : ∀ e, M.fills e → M.price e ≤ k) {es : List (Event S)}
    (paid : ∀ pre e post, es = pre ++ e :: post → M.protocol.allows (M.protocol.state left pre) e) :
    M.spent es ≤ left + (M.full + k) * M.fillings es := by
  induction es generalizing left with
  | nil => exact Nat.zero_le _
  | cons e es ih =>
    have first := paid [] e es rfl
    have rest := @ih (M.protocol.next left e) fun pre e' post cut =>
      paid (e :: pre) e' post (congrArg (e :: ·) cut)
    have spent : M.spent (e :: es) = M.price e + M.spent es := rfl
    unfold fillings at rest ⊢
    rw [spent, List.countP_cons]
    by_cases h : M.fills e
    · have own := price e h
      rw [next_full h] at rest
      simp only [decide_eq_true h, if_true, Nat.mul_add, Nat.mul_one]
      omega
    · have affordable : M.price e ≤ left := first.resolve_left h
      rw [next_paid h] at rest
      simp only [decide_eq_false h, Bool.false_eq_true, if_false, Nat.add_zero]
      omega

/-- **All in all** a program that starts with `left` in the meter spends at most that, and a full meter
with the price of a filling for each filling. -/
theorem total {E : Env S W} {w w' : W} {p : Prog S α} {Q : α → Nat → Prop} {k : Nat}
    {tr : List (Step S W)} {out : Option α} (run : Run E w p tr w' out)
    (pays : Conforms M.protocol p Q left) (price : ∀ e, M.fills e → M.price e ≤ k) :
    M.spent (events tr) ≤ left + (M.full + k) * M.fillings (events tr) := by
  have steps := (run.follows pays).1
  refine spent_total price fun pre e post cut => ?_
  obtain ⟨first, rest, rfl, rfl, rest_eq⟩ := List.map_eq_append_iff.mp cut
  obtain ⟨st, last, rfl, rfl, _⟩ := List.map_eq_cons_iff.mp rest_eq
  exact steps first st last rfl

end Meter

/-- The program can be paid with `k` and is paid without a filling. -/
def Costs (M : Meter S) (k : Nat) (p : Prog S α) : Prop :=
  ∀ left, k ≤ left → Conforms M.protocol p (fun _ left' => left ≤ left' + k) left

section Costs

variable {M : Meter S} {k m : Nat} {p : Prog S α} {f : α → Prog S β}

/-- A program that makes no call costs nothing. -/
theorem costs_pure (a : α) : Costs M 0 (Pure.pure a : Prog S α) :=
  fun left _ => (conforms_pure a _).mpr (Nat.le_refl left)

/-- A call costs its price. -/
theorem costs_perform {c : S.Call} (dry : ∀ r, ¬ M.fills ⟨c, r⟩)
    (price : ∀ r, M.price ⟨c, r⟩ ≤ k) : Costs M k (Prog.perform c) := by
  rintro left enough r _ rfl
  refine ⟨.inr (Nat.le_trans (price r) enough), ?_⟩
  show left ≤ M.protocol.next left ⟨c, r⟩ + k
  rw [Meter.next_paid (dry r)]
  have := price r
  omega

/-- A higher price. -/
theorem Costs.mono (costs : Costs M k p) (le : k ≤ m) : Costs M m p :=
  fun left enough => conforms_mono (fun _ _ h => by omega) (costs left (Nat.le_trans le enough))

/-- What is left after straight code pays for what follows. -/
theorem Costs.andThen (costs : Costs M k p) {left : Nat} (enough : k ≤ left)
    {Q : β → Nat → Prop} (next : ∀ a left', left ≤ left' + k → Conforms M.protocol (f a) Q left') :
    Conforms M.protocol (p >>= f) Q left :=
  (conforms_bind p f Q).mpr (conforms_mono next (costs left enough))

/-- Prices add up. -/
theorem costs_bind (first : Costs M k p) (next : ∀ a, Costs M m (f a)) :
    Costs M (k + m) (p >>= f) := by
  intro left enough
  refine first.andThen (by omega) fun a left' h => ?_
  exact conforms_mono (fun _ _ h' => by omega) (next a left' (by omega))

theorem costs_ite {c : Prop} [Decidable c] {q : Prog S α} (first : Costs M k p)
    (second : Costs M k q) : Costs M k (if c then p else q) := by
  split
  · exact first
  · exact second

/-- A loop over a list costs its rounds. -/
theorem costs_forM {ι : Type} {xs : List ι} {f : ι → Prog S PUnit}
    (body : ∀ x ∈ xs, Costs M k (f x)) : Costs M (xs.length * k) (forM xs f) := by
  induction xs with
  | nil => exact (costs_pure PUnit.unit).mono (Nat.zero_le _)
  | cons x xs ih =>
    obtain ⟨first, rest⟩ := List.forall_mem_cons.mp body
    rw [List.forM_cons, List.length_cons, Nat.succ_mul, Nat.add_comm]
    exact costs_bind first fun _ => ih rest

end Costs

end ZeroProcHot.Interact
