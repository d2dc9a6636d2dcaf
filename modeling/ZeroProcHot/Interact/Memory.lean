import Mathlib.Logic.Function.Basic
import ZeroProcHot.Interact.Progress

/-!
# Programs on several objects

A program reads and writes the cells of objects, each with a name and a type of cells, by the offset
of a cell in its object, and may ask for a new object or put something out. An access outside an object
is undefined in C. The memory does not answer it, so a run that returns has stayed inside, and of a
program that comes to such an access (`Strays`) nothing is said beyond it. An allocator may refuse, and
what a new object holds is up to it. `play_counted` is the rule for a loop that counts, `play_endless`
for one that goes on for ever.
-/

namespace ZeroProcHot.Interact

/-! ## Loops that count -/

section Counted

variable {S : Signature} {O W σ β : Type} {len : Nat} {c : Nat → σ} {Inv : Nat → W → Prop}
  {os : Nat → List O}

/-- By induction on the rounds to go. -/
theorem rounds_counted {f : σ → W → Result O W (σ ⊕ β)} {out : Outcome β}
    (step : ∀ j w, j < len → Inv j w →
      ∃ w', f (c j) w = ⟨os j, w', .returned (.inl (c (j + 1)))⟩ ∧ Inv (j + 1) w')
    (last : ∀ l w, Inv len w → rounds f (l + 1) (c len) w = ⟨[], w, out⟩) {k j m : Nat} {w : W}
    (ahead : j + k = len) (hm : k < m) (here : Inv j w) :
    ∃ w', rounds f m (c j) w = ⟨(List.range' j k).flatMap os, w', out⟩ ∧ Inv len w' := by
  induction k generalizing j m w with
  | zero =>
    obtain ⟨m, rfl⟩ : ∃ l, m = l + 1 := ⟨m - 1, by omega⟩
    obtain rfl : j = len := ahead
    exact ⟨w, last m w here, here⟩
  | succ k ih =>
    obtain ⟨m, rfl⟩ : ∃ l, m = l + 1 := ⟨m - 1, by omega⟩
    obtain ⟨w₁, round, next⟩ := step j w (by omega) here
    obtain ⟨w', rest, done⟩ := ih (m := m) (by omega) (by omega) next
    refine ⟨w', ?_, done⟩
    rw [rounds, round, Result.andThen_returned]
    dsimp only
    rw [rest, List.range'_succ, List.flatMap_cons]

variable {h : Handler S W} {n : Nat} {obs : Event S → Option O} {body : σ → Prog S (σ ⊕ β)}

/-- **A loop that counts**: rounds `0` to `len - 1` go on with the next number and keep the invariant,
and the round after them leaves with `b` and does nothing else. -/
theorem play_counted {b : β}
    (step : ∀ j w, j < len → Inv j w → ∃ w', play h n obs (body (c j)) w =
      ⟨os j, w', .returned (.inl (c (j + 1)))⟩ ∧ Inv (j + 1) w')
    (last : ∀ w, Inv len w → play h n obs (body (c len)) w = ⟨[], w, .returned (.inr b)⟩)
    (hn : len < n) {w : W} (start : Inv 0 w) :
    ∃ w', play h n obs (Prog.iter body (c 0)) w =
      ⟨(List.range len).flatMap os, w', .returned b⟩ ∧ Inv len w' := by
  rw [play_iter, List.range_eq_range']
  refine rounds_counted step (fun l w done => ?_) (Nat.zero_add len) hn start
  rw [rounds, last w done]
  rfl

/-- A loop that counts up to a round that is not answered. -/
theorem play_counted_blocked
    (step : ∀ j w, j < len → Inv j w → ∃ w', play h n obs (body (c j)) w =
      ⟨os j, w', .returned (.inl (c (j + 1)))⟩ ∧ Inv (j + 1) w')
    (last : ∀ w, Inv len w → play h n obs (body (c len)) w = ⟨[], w, .blocked⟩)
    (hn : len < n) {w : W} (start : Inv 0 w) :
    ∃ w', play h n obs (Prog.iter body (c 0)) w =
      ⟨(List.range len).flatMap os, w', .blocked⟩ ∧ Inv len w' := by
  rw [play_iter, List.range_eq_range']
  refine rounds_counted step (fun l w done => ?_) (Nat.zero_add len) hn start
  rw [rounds, last w done]
  rfl

end Counted

/-! ## Loops that do not end -/

section Endless

variable {S : Signature} {O W σ β : Type} {Inv : σ → W → Prop}

/-- By induction on the rounds that are allowed. -/
theorem rounds_endless {f : σ → W → Result O W (σ ⊕ β)}
    (step : ∀ s w, Inv s w →
      ∃ o s' w', f s w = ⟨[o], w', .returned (.inl s')⟩ ∧ Inv s' w') (n : Nat) {s : σ} {w : W}
    (here : Inv s w) : ∃ os w', rounds f n s w = ⟨os, w', .unfinished⟩ ∧ os.length = n := by
  induction n generalizing s w with
  | zero => exact ⟨[], w, rfl, rfl⟩
  | succ n ih =>
    obtain ⟨o, s', w₁, round, next⟩ := step s w here
    obtain ⟨os, w', rest, length⟩ := ih next
    refine ⟨o :: os, w', ?_, congrArg Nat.succ length⟩
    rw [rounds, round, Result.andThen_returned]
    dsimp only
    rw [rest, List.singleton_append]

/-- **A loop that never ends**: each of its rounds goes on, and one step of it is seen. -/
theorem play_endless {h : Handler S W} {n : Nat} {obs : Event S → Option O}
    {body : σ → Prog S (σ ⊕ β)}
    (step : ∀ s w, Inv s w →
      ∃ o s' w', play h n obs (body s) w = ⟨[o], w', .returned (.inl s')⟩ ∧ Inv s' w') {s : σ}
    {w : W} (start : Inv s w) :
    ∃ os w', play h n obs (Prog.iter body s) w = ⟨os, w', .unfinished⟩ ∧ os.length = n := by
  rw [play_iter]
  exact rounds_endless step n start

end Endless

/-! ## Objects -/

variable {K : Type} {A : K → Type} {X : Type}

/-- The accesses to some objects: `k` names an object, and `A k` is the type of its cells. Apart from
them a program may put something out. -/
inductive Reference (A : K → Type) (X : Type) where
  | load (k : K) (i : Int)
  | store (k : K) (i : Int) (a : A k)
  | alloc (k : K) (size : Nat)
  | output (x : X)

namespace Reference

def Answer : Reference A X → Type
  | .load k _ => A k
  | .store _ _ _ => Unit
  | .alloc _ _ => Bool
  | .output _ => Unit

end Reference

/-- The signature of some objects. -/
abbrev objects (A : K → Type) (X : Type) : Signature := ⟨Reference A X, Reference.Answer⟩

/-- Read a cell of a block. -/
def loadFrom (k : K) (i : Int) : Prog (objects A X) (A k) := @Prog.perform (objects A X) (.load k i)

/-- Write a cell of a block. -/
def storeTo (k : K) (i : Int) (a : A k) : Prog (objects A X) Unit :=
  @Prog.perform (objects A X) (.store k i a)

/-- A request for a new object, which is granted or not. -/
def allocate (k : K) (size : Nat) : Prog (objects A X) Bool :=
  @Prog.perform (objects A X) (.alloc k size)

/-- Print a character. -/
def putOut (x : X) : Prog (objects A X) Unit := @Prog.perform (objects A X) (.output x)

/-- The objects, each as the list of its cells. -/
abbrev Memory (A : K → Type) := (k : K) → List (A k)

/-- What is in an object of a size that is asked for, or none if it is refused. -/
structure Allocator (A : K → Type) where
  grant : (k : K) → Nat → Option (List (A k))
  sized : ∀ {k size cells}, grant k size = some cells → cells.length = size

/-- An allocator that has no memory. -/
def Allocator.none : Allocator A := ⟨fun _ _ => Option.none, nofun⟩

variable [DecidableEq K]

/-- The memory with another content of an object. -/
def Memory.put (m : Memory A) (k : K) (cells : List (A k)) : Memory A := Function.update m k cells

@[simp] theorem Memory.put_self (m : Memory A) (k : K) (cells : List (A k)) :
    m.put k cells k = cells := by
  rw [put, Function.update_self]

/-- A store leaves every other cell. -/
@[simp] theorem Memory.put_of_ne (m : Memory A) {k k' : K} (ne : k' ≠ k) (cells : List (A k)) :
    m.put k cells k' = m k' := by
  rw [put, Function.update_of_ne ne]

@[simp] theorem Memory.put_put (m : Memory A) (k : K) (cells cells' : List (A k)) :
    (m.put k cells).put k cells' = m.put k cells' := by
  rw [put, put, Function.update_idem, put]

/-- The memory. -/
def memory (al : Allocator A) : Handler (objects A X) (Memory A) := fun m c =>
  match c with
  | .load k i =>
    if 0 ≤ i then
      match (m k)[i.toNat]? with
      | some a => some (a, m)
      | none => none
    else none
  | .store k i a =>
    if 0 ≤ i ∧ i.toNat < (m k).length then some ((), m.put k ((m k).set i.toNat a)) else none
  | .alloc k size =>
    match al.grant k size with
    | some cells => some (true, m.put k cells)
    | none => some (false, m)
  | .output _ => some ((), m)

/-- An access outside its object. -/
def Outside (m : Memory A) : Reference A X → Prop
  | .load k i | .store k i _ => i < 0 ∨ (m k).length ≤ i.toNat
  | .alloc _ _ | .output _ => False

/-- The accesses outside their objects are the calls that are not answered. -/
theorem memory_eq_none {al : Allocator A} {m : Memory A} {c : Reference A X} :
    memory al m c = none ↔ Outside m c := by
  cases c with
  | load k i =>
    simp only [memory, Outside]
    split
    · next inside =>
      rw [or_iff_right (Int.not_lt.mpr inside)]
      cases cell : (m k)[i.toNat]? with
      | none => exact iff_of_true rfl (List.getElem?_eq_none_iff.mp cell)
      | some a => exact iff_of_false nofun (Nat.not_le.mpr (List.getElem?_eq_some_iff.mp cell).1)
    · next before => exact iff_of_true rfl (.inl (Int.not_le.mp before))
  | store k i a =>
    simp only [memory, Outside]
    split
    · next inside => exact iff_of_false nofun (by omega)
    · next other => exact iff_of_true rfl (by omega)
  | alloc k size =>
    refine iff_of_false ?_ not_false
    simp only [memory]
    split <;> nofun
  | output x => exact iff_of_false nofun not_false

/-- The program comes, after the steps `tr`, to an access outside an object. What it does then is
undefined. -/
def Strays {α : Type} (al : Allocator A) (m : Memory A) (p : Prog (objects A X) α)
    (tr : List (Step (objects A X) (Memory A))) : Prop :=
  ∃ w c k, Stands (memory al).env m p tr w (.call c k) ∧ Outside w c

section Strays

variable {α : Type} {al : Allocator A} {m : Memory A} {p : Prog (objects A X) α}

/-- Running a program that strays is blocked, in every budget from some budget on. -/
theorem Strays.outcome {tr : List (Step (objects A X) (Memory A))} (strays : Strays al m p tr) :
    ∃ n₀, ∀ n, n₀ ≤ n → (exec (memory al) n p m).outcome = .blocked := by
  obtain ⟨w, c, k, stands, outside⟩ := strays
  have stuck : exec (memory al) 0 (.call c k) w = ⟨[], w, .blocked⟩ := by
    simp only [exec, memory_eq_none.mpr outside]
  have settled : (exec (memory al) 0 (.call c k) w).outcome ≠ .unfinished := by
    rw [stuck]
    intro unfinished
    cases unfinished
  obtain ⟨n₀, found⟩ := exec_of_stands stands settled
  refine ⟨n₀, fun n hn => ?_⟩
  rw [found n hn, stuck]
  rfl

/-- A program that is blocked strays. -/
theorem strays_of_blocked {n : Nat} (blocked : (exec (memory al) n p m).outcome = .blocked) :
    Strays al m p (exec (memory al) n p m).steps := by
  have ends := exec_stands (memory al) n p m
  rw [blocked] at ends
  obtain ⟨c, k, stands, stuck⟩ := ends
  exact ⟨_, c, k, stands, memory_eq_none.mp stuck⟩

end Strays

/-- What is seen of an access: the cell that it stores to. -/
def stored (e : Event (objects A X)) : Option (K × Int) :=
  match e.call with
  | .store k i _ => some (k, i)
  | .load _ _ | .alloc _ _ | .output _ => none

/-- What is put out. -/
def written (e : Event (objects A X)) : Option X :=
  match e.call with
  | .output x => some x
  | .load _ _ | .store _ _ _ | .alloc _ _ => none

section Accesses

variable {O : Type} {obs : Event (objects A X) → Option O} {al : Allocator A} {n : Nat} {m : Memory A}
  {k : K} {i : Int} {j : Nat}

theorem play_loadFrom {a : A k} (index : i = j) (holds : (m k)[j]? = some a)
    (silent : obs ⟨.load k i, a⟩ = none := by rfl) :
    play (memory al) n obs (loadFrom k i) m = ⟨[], m, .returned a⟩ := by
  subst index
  have answer : memory (X := X) al m (.load k j) = some (a, m) := by
    simp only [memory, Int.natCast_nonneg, if_true, Int.toNat_natCast, holds]
    rfl
  have load := @play_perform _ _ _ (memory al) n obs _ _ _ _ answer
  rw [silent] at load
  exact load

/-- A load from outside the object. -/
theorem play_loadFrom_outside (outside : i < 0 ∨ (m k).length ≤ i.toNat) :
    play (memory al) n obs (loadFrom k i : Prog (objects A X) (A k)) m = ⟨[], m, .blocked⟩ := by
  refine play_perform_blocked ?_
  rcases outside with before | behind
  · simp only [memory, if_neg (Int.not_le.mpr before)]
  · simp only [memory, List.getElem?_eq_none behind, ite_self]

theorem play_storeTo (index : i = j) (inside : j < (m k).length) (a : A k) :
    play (memory al) n stored (storeTo k i a : Prog (objects A X) Unit) m =
      ⟨[(k, i)], m.put k ((m k).set j a), .returned ()⟩ := by
  subst index
  exact play_perform (by
    simp only [memory, Int.natCast_nonneg, Int.toNat_natCast, true_and, if_pos inside])

theorem play_allocate {size : Nat} {cells : List (A k)} (granted : al.grant k size = some cells) :
    play (memory al) n stored (allocate k size : Prog (objects A X) Bool) m =
      ⟨[], m.put k cells, .returned true⟩ :=
  play_perform (by simp only [memory, granted])

/-- An allocation that is refused answers no block. -/
theorem play_allocate_refused {size : Nat} (refused : al.grant k size = none) :
    play (memory al) n stored (allocate k size : Prog (objects A X) Bool) m =
      ⟨[], m, .returned false⟩ :=
  play_perform (by simp only [memory, refused])

theorem play_putOut (x : X) :
    play (memory (A := A) al) n written (putOut x) m = ⟨[x], m, .returned ()⟩ :=
  play_perform rfl

end Accesses

/-! ## Filling an object from its start -/

variable {α : Type}

/-- The object `old` after its first cells have been overwritten by `new`. -/
def overwrite (new old : List α) : List α := new ++ old.drop new.length

@[simp] theorem overwrite_nil (old : List α) : overwrite [] old = old := rfl

/-- Writing over cells keeps their number. -/
@[simp] theorem length_overwrite {new old : List α} (fits : new.length ≤ old.length) :
    (overwrite new old).length = old.length := by
  rw [overwrite, List.length_append, List.length_drop]
  omega

/-- The next store. -/
theorem set_overwrite {new old : List α} (inside : new.length < old.length) (a : α) :
    (overwrite new old).set new.length a = overwrite (new ++ [a]) old := by
  unfold overwrite
  rw [List.set_append_right _ _ (Nat.le_refl _), Nat.sub_self, List.drop_eq_getElem_cons inside,
    List.set_cons_zero, List.length_append, List.length_singleton, List.append_assoc]
  rfl

/-- All cells have been overwritten. -/
theorem overwrite_all {new old : List α} (all : new.length = old.length) : overwrite new old = new := by
  rw [overwrite, all, List.drop_length, List.append_nil]

end ZeroProcHot.Interact
