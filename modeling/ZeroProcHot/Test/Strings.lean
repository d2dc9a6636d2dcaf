import ZeroProcHot.Test.Program

/-!
# Strings in memory

A string is the units of an object up to the first that is 0, the terminator. `Walks` is the rule for
a loop that goes from the first unit to the terminator, one unit a round; `Measures` is what is relied
on of `StrLen`.
-/

namespace ZeroProcHot.Test

open Interact Efi

/-- A string in memory: its units up to the terminator, and what the object holds behind that. A unit
takes two bytes of the address space, which bounds the object. -/
structure Text where
  units : List UInt16
  behind : List UInt16
  noZero : 0 ∉ units
  fits : units.length + 1 + behind.length < 2 ^ 63

namespace Text

/-- The cells of the object. -/
def cells (t : Text) : List UInt16 := t.units ++ 0 :: t.behind

theorem length_toNat (t : Text) : (UInt64.ofNat t.units.length).toNat = t.units.length := by
  have fits := t.fits
  rw [UInt64.toNat_ofNat']
  exact Nat.mod_eq_of_lt (by omega)

end Text

/-- What is seen of a program on the cells of a string. Each loop has at most `n` rounds. -/
def session {α : Type} (n : Nat) (p : C α) (w : List UInt16) : Result UInt64 (List UInt16) α :=
  play object n accessed p w

/-- A program that is seen to return, and the program after it. -/
theorem session_seq {α β : Type} {n : Nat} {p : C α} {k : α → C β} {w w' : List UInt16}
    {is : List UInt64} {a : α} (first : session n p w = ⟨is, w', .returned a⟩) :
    session n (p >>= k) w =
      (⟨is, w', .returned a⟩ : Result UInt64 (List UInt16) α).andThen
        fun a w => session n (k a) w := play_seq first

/-- A run is seen in every budget from some budget on. -/
theorem session_of_run {α : Type} {p : C α} {w w' : List UInt16}
    {tr : List (Step (cells UInt16) (List UInt16))} {out : Option α}
    (run : Run object.env w p tr w' out) :
    ∃ n₀, ∀ n, n₀ ≤ n → (events tr).filterMap accessed <+: (session n p w).steps ∧
      ∀ a, out = some a → session n p w = ⟨(events tr).filterMap accessed, w', .returned a⟩ :=
  play_of_run run

/-- The accesses of a run are what an observer sees of it. -/
theorem mem_accessed {tr : List (Step (cells UInt16) (List UInt16))} {i : UInt64} :
    i ∈ (events tr).filterMap accessed ↔ ∃ st ∈ tr, st.event.call.index = i := by
  unfold events accessed
  simp only [List.mem_filterMap, List.mem_map, Option.some.injEq]
  constructor
  · rintro ⟨_, ⟨st, hst, rfl⟩, rfl⟩
    exact ⟨st, hst, rfl⟩
  · rintro ⟨st, hst, rfl⟩
    exact ⟨_, ⟨st, hst, rfl⟩, rfl⟩

/-! ## Walking to the terminator -/

section Walks

variable {β : Type} {n : Nat}

/-- A round at a unit makes `g` of it and goes on with the next, and a round at the terminator leaves
with `last`. Neither accesses another unit. -/
structure Walks (body : UInt64 → C (UInt64 ⊕ β)) (g : UInt16 → UInt16) (last : UInt64 → β) :
    Prop where
  step : ∀ {n : Nat} {i : UInt64} {pre post : List UInt16} {a : UInt16}, i.toNat = pre.length →
    a ≠ 0 → ∃ is, session n (body i) (pre ++ a :: post) =
      ⟨is, pre ++ g a :: post, .returned (.inl (i + 1))⟩ ∧ ∀ x ∈ is, x = i
  stop : ∀ {n : Nat} {i : UInt64} {pre post : List UInt16}, i.toNat = pre.length →
    session n (body i) (pre ++ 0 :: post) = ⟨[i], pre ++ 0 :: post, .returned (.inr (last i))⟩

variable {body : UInt64 → C (UInt64 ⊕ β)} {g : UInt16 → UInt16} {last : UInt64 → β}

/-- By induction on the units ahead, behind those already walked over. -/
theorem Walks.rounds (walks : Walks body g last) {pre units : List UInt16} (behind : List UInt16)
    {i : UInt64} (here : i.toNat = pre.length) (noZero : 0 ∉ units)
    (fits : pre.length + units.length < 2 ^ 63) {m : Nat} (hm : units.length < m) :
    ∃ is, Interact.rounds (fun i w => session n (body i) w) m i (pre ++ (units ++ 0 :: behind)) =
        ⟨is, pre ++ (units.map g ++ 0 :: behind),
          .returned (last (.ofNat (pre.length + units.length)))⟩ ∧
      ∀ x ∈ is, x.toNat ≤ pre.length + units.length := by
  induction units generalizing pre i m with
  | nil =>
    obtain ⟨m, rfl⟩ : ∃ k, m = k + 1 := ⟨m - 1, by omega⟩
    have index : i = .ofNat (pre.length + 0) := by
      rw [Nat.add_zero, ← here, UInt64.ofNat_toNat]
    refine ⟨[i], ?_, fun x hx => ?_⟩
    · rw [List.nil_append, Interact.rounds, walks.stop here, Result.andThen_returned,
        List.length_nil, ← index]
      rfl
    · rw [List.mem_singleton.mp hx, here]
      exact Nat.le_add_right _ _
  | cons a units ih =>
    rw [List.length_cons] at fits hm
    obtain ⟨m, rfl⟩ : ∃ k, m = k + 1 := ⟨m - 1, by omega⟩
    obtain ⟨first, rest⟩ := not_or.mp (mt List.mem_cons.mpr noZero)
    obtain ⟨is, round, only⟩ := @walks.step n i pre (units ++ 0 :: behind) a here (Ne.symm first)
    have next : (i + 1).toNat = (pre ++ [g a]).length := by
      have one : (1 : UInt64).toNat = 1 := rfl
      rw [UInt64.toNat_add, here, one, List.length_append, List.length_singleton]
      omega
    have length : (pre ++ [g a]).length + units.length = pre.length + (units.length + 1) := by
      rw [List.length_append, List.length_singleton]
      omega
    obtain ⟨is', later, within⟩ := @ih (pre ++ [g a]) (i + 1) next rest (by omega) m (by omega)
    rw [length, List.append_assoc, List.append_assoc, List.singleton_append,
      List.singleton_append] at later
    refine ⟨is ++ is', ?_, List.forall_mem_append.mpr ⟨fun x hx => ?_, fun x hx => ?_⟩⟩
    · rw [List.cons_append, Interact.rounds, round, Result.andThen_returned]
      dsimp only
      rw [later, List.map_cons, List.cons_append, List.length_cons]
    · rw [only x hx, here]
      exact Nat.le_add_right _ _
    · have bound := within x hx
      rw [List.length_cons]
      omega

/-- **A walk over a string.** -/
theorem Walks.iter (walks : Walks body g last) (t : Text) (hn : t.units.length < n) :
    ∃ is, session n (Prog.iter body 0) t.cells =
        ⟨is, t.units.map g ++ 0 :: t.behind, .returned (last (.ofNat t.units.length))⟩ ∧
      ∀ x ∈ is, x.toNat ≤ t.units.length := by
  have fits := t.fits
  have loop := @Walks.rounds _ n _ _ _ walks [] t.units t.behind 0 rfl t.noZero
    (by rw [List.length_nil]; omega) n hn
  obtain ⟨is, walked, within⟩ := loop
  simp only [List.nil_append, List.length_nil, Nat.zero_add] at walked within
  exact ⟨is, (play_iter body 0 t.cells).trans walked, within⟩

end Walks

/-! ## The length -/

/-- What is relied on of `StrLen`: it returns the number of units before the terminator, reads no
further than that and leaves the string as it is. -/
structure Measures (strLen : C UInt64) : Prop where
  returns : ∀ t : Text, Returns object.env t.cells strLen t.cells (.ofNat t.units.length)
  within : ∀ (t : Text) {tr w out}, Run object.env t.cells strLen tr w out →
    ∀ st ∈ tr, st.event.call.index.toNat ≤ t.units.length

/-- A program that counts the units one by one. -/
def countUnits : C UInt64 :=
  Prog.iter (fun i => do
    let unit ← load i
    if unit ≠ 0 then return .inl (i + 1) else return .inr i) 0

theorem walks_countUnits :
    Walks (fun i => do
      let unit ← load i
      if unit ≠ 0 then return .inl (i + 1) else return .inr i : UInt64 → C (UInt64 ⊕ UInt64))
      id id where
  step {n i pre post a} here ha := by
    have read : session n (load i) (pre ++ a :: post) = ⟨[i], pre ++ a :: post, .returned a⟩ :=
      play_load_at here
    refine ⟨[i], (session_seq read).trans ?_, fun _ hx => List.mem_singleton.mp hx⟩
    rw [Result.andThen_returned, if_pos ha]
    rfl
  stop {n i pre post} here := by
    have read : session n (load i) (pre ++ 0 :: post) = ⟨[i], pre ++ 0 :: post, .returned 0⟩ :=
      play_load_at here
    refine (session_seq read).trans ?_
    rw [Result.andThen_returned, if_neg (fun ne => ne rfl)]
    rfl

theorem measures_countUnits : Measures countUnits where
  returns t := by
    obtain ⟨is, walked, _⟩ := walks_countUnits.iter t (Nat.lt_succ_self _)
    rw [List.map_id] at walked
    exact returns_of_play walked
  within t {tr w out} run st hst := by
    obtain ⟨n₀, found⟩ := session_of_run run
    obtain ⟨is, walked, within⟩ :=
      walks_countUnits.iter (n := max n₀ (t.units.length + 1)) t (by omega)
    have seen := (found (max n₀ (t.units.length + 1)) (by omega)).1
    have all : (session (max n₀ (t.units.length + 1)) countUnits t.cells).steps = is :=
      congrArg Result.steps walked
    rw [all] at seen
    exact within _ (seen.subset (mem_accessed.mpr ⟨st, hst, rfl⟩))

end ZeroProcHot.Test
