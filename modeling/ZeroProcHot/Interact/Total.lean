import ZeroProcHot.Interact.Prog

/-!
# Programs that come to their end

A program without a loop returns against every environment that answers its calls
(`Prog.Straight.returns`). A loop returns after the rounds that lead to its last one. What is known of
the results comes from the rules for runs.
-/

namespace ZeroProcHot.Interact

variable {S : Signature} {W α β σ : Type} {E : Env S W} {w w' w'' : W}

/-- The environment answers every call, in some way. -/
def Answers (E : Env S W) : Prop := ∀ w c, ∃ r w', E w ⟨c, r⟩ w'

/-! ## Programs without a loop -/

namespace Prog

/-- No loop is in the program. -/
def Straight : {α : Type} → Prog S α → Prop
  | _, .ret _ => True
  | _, .call _ k => ∀ r, (k r).Straight
  | _, .loop _ _ _ => False

@[simp] theorem straight_pure (a : α) : (Pure.pure a : Prog S α).Straight := trivial

/-- A single call. -/
@[simp] theorem straight_perform (c : S.Call) : (perform c).Straight := fun _ => trivial

/-- One program after another. -/
theorem straight_bind {p : Prog S α} {f : α → Prog S β} (first : p.Straight)
    (rest : ∀ a, (f a).Straight) : (p >>= f).Straight := by
  simp only [bind_eq]
  induction p with
  | ret a => exact rest a
  | call c k ih =>
    intro r
    exact ih r (first r) rest
  | loop => exact first.elim

/-- Either branch of a test. -/
theorem straight_ite {c : Prop} [Decidable c] {p q : Prog S α} (hp : p.Straight)
    (hq : q.Straight) : (if c then p else q).Straight := by
  split
  · exact hp
  · exact hq

/-- A loop over a list is unfolded along the list. -/
theorem straight_forM {ι : Type} {xs : List ι} {f : ι → Prog S PUnit}
    (body : ∀ x ∈ xs, (f x).Straight) : (forM xs f).Straight := by
  induction xs with
  | nil => exact straight_pure _
  | cons x xs ih =>
    obtain ⟨first, rest⟩ := List.forall_mem_cons.mp body
    rw [List.forM_cons]
    exact straight_bind first fun _ => ih rest

/-- **A program without a loop returns**: it makes one call after the other, and each is answered. -/
theorem Straight.returns {p : Prog S α} (straight : p.Straight) (answers : Answers E) (w : W) :
    ∃ w' a, Returns E w p w' a := by
  induction p generalizing w with
  | ret a => exact ⟨w, a, [], .ret⟩
  | call c k ih =>
    obtain ⟨r, w', step⟩ := answers w c
    obtain ⟨w'', a, tr, run⟩ := ih r (straight r) w'
    exact ⟨w'', a, _, .call step run⟩
  | loop => exact straight.elim

end Prog

/-! ## Loops -/

section Loops

variable {body : σ → Prog S (σ ⊕ β)} {s s' : σ} {b : β}

/-- A loop returns with its last round. -/
theorem returns_iter_last (round : Returns E w (body s) w' (.inr b)) :
    Returns E w (Prog.iter body s) w' b := by
  obtain ⟨tr, round⟩ := round
  exact ⟨tr ++ [], .loopDone round .ret⟩

/-- A loop goes on from a round that is not its last. -/
theorem returns_iter_next (round : Returns E w (body s) w' (.inl s'))
    (rest : Returns E w' (Prog.iter body s') w'' b) : Returns E w (Prog.iter body s) w'' b := by
  obtain ⟨tr, round⟩ := round
  obtain ⟨tr', rest⟩ := rest
  exact ⟨tr ++ tr', .loopNext round rest⟩

end Loops

end ZeroProcHot.Interact
