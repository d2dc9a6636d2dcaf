import ZeroProcHot.Interact.Exec

/-!
# Programs on an object in memory

A program reads and writes the cells of one object by their index. An access outside the object is
not answered, so a run that returns has stayed inside; `accessed` shows an observer the index of each
access.
-/

namespace ZeroProcHot.Interact

/-- The accesses to an object with cells of type `A`. -/
inductive Access (A : Type) where
  | load (i : UInt64)
  | store (i : UInt64) (a : A)
  deriving DecidableEq

namespace Access

variable {A : Type}

/-- A load answers what the cell holds. -/
def Answer : Access A → Type
  | .load _ => A
  | .store _ _ => Unit

/-- The cell of an access. -/
def index : Access A → UInt64
  | .load i => i
  | .store i _ => i

end Access

/-- The signature of an object. -/
abbrev cells (A : Type) : Signature := ⟨Access A, Access.Answer⟩

variable {A : Type}

/-- Read a cell. -/
def load (i : UInt64) : Prog (cells A) A := @Prog.perform (cells A) (.load i)

/-- Write a cell. -/
def store (i : UInt64) (a : A) : Prog (cells A) Unit := @Prog.perform (cells A) (.store i a)

/-- The object, as the list of its cells. -/
def object : Handler (cells A) (List A) := fun w c =>
  match c with
  | .load i =>
    match w[i.toNat]? with
    | some a => some (a, w)
    | none => none
  | .store i a => if i.toNat < w.length then some ((), w.set i.toNat a) else none

/-- What is seen of an access. -/
def accessed (e : Event (cells A)) : Option UInt64 := some e.call.index

variable {n : Nat} {w pre post : List A} {i : UInt64} {a : A}

theorem play_load (h : w[i.toNat]? = some a) :
    play object n accessed (load i) w = ⟨[i], w, .returned a⟩ :=
  play_perform (by simp only [object, h])

/-- Loading the cell after some others. -/
theorem play_load_at (h : i.toNat = pre.length) :
    play object n accessed (load i) (pre ++ a :: post) =
      ⟨[i], pre ++ a :: post, .returned a⟩ :=
  play_load (by rw [h, List.getElem?_append_right (Nat.le_refl _), Nat.sub_self]; rfl)

/-- Storing to the cell after some others. -/
theorem play_store_at (h : i.toNat = pre.length) (b : A) :
    play object n accessed (store i b) (pre ++ a :: post) =
      ⟨[i], pre ++ b :: post, .returned ()⟩ := by
  have inside : i.toNat < (pre ++ a :: post).length := by
    rw [h, List.length_append, List.length_cons]
    omega
  have set : (pre ++ a :: post).set i.toNat b = pre ++ b :: post := by
    rw [h, List.set_append_right _ _ (Nat.le_refl _), Nat.sub_self]
    rfl
  exact play_perform (by simp only [object, if_pos inside, set])

end ZeroProcHot.Interact
