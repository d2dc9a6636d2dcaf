import ZeroProcHot.Tmp.Program

/-!
# How `toMsg` polls

`toMsg` asks the keyboard again and again, without waiting for a key. `toMsg_polls` says what a call
does with every sequence of poll outcomes: its result, how many polls it makes, which keys it takes
out of the queue, how often it stalls and how often it prints its mark.
-/

namespace ZeroProcHot.Tmp

open Interact Efi

/-- The key of a read with nothing pending. -/
def nullKey : InputKey := ⟨0, 0⟩

theorem not_dismisses_nullKey : ¬ dismisses nullKey := by decide

/-- What poll `n` of the keyboard finds: a key, which it takes out of the queue, or nothing, in which
case it stores a null key. The world is the number of the polls made. -/
def keyboard (outcome : Nat → Option InputKey) : Env (firmware Point) Nat := fun n e n' =>
  match e with
  | ⟨.readKeyStroke, (r : ReadResult)⟩ =>
    n' = n + 1 ∧
      match outcome n with
      | some key => r = ⟨.success, some key⟩
      | none => r.status ≠ .success ∧ r.stored = some nullKey
  | _ => n' = n

/-- What is counted of a call: the texts printed, the stalls and the keys taken out of the queue. -/
structure Tally where
  prints : List String
  stalls : Nat
  taken : List InputKey

def count (t : Tally) : Event (firmware Point) → Tally
  | ⟨.outputString s, _⟩ => { t with prints := t.prints ++ [s] }
  | ⟨.stall _, _⟩ => { t with stalls := t.stalls + 1 }
  | ⟨.readKeyStroke, (r : ReadResult)⟩ =>
    if r.status = .success then { t with taken := t.taken ++ r.stored.toList } else t
  | _ => t

/-- The count of the steps of a run. -/
def tally (tr : List (Step (firmware Point) Nat)) : Tally := after count ⟨[], 0, []⟩ tr

variable {outcome : Nat → Option InputKey}

/-- Poll `i` delivers a key that ends `toMsg`. -/
def Dismissed (outcome : Nat → Option InputKey) (i : Nat) : Prop :=
  ∃ key, outcome i = some key ∧ dismisses key

/-- The key variable after poll `i`. -/
def polledKey (outcome : Nat → Option InputKey) (i : Nat) : InputKey := (outcome i).getD nullKey

theorem dismisses_polledKey (i : Nat) : dismisses (polledKey outcome i) ↔ Dismissed outcome i := by
  unfold polledKey Dismissed
  cases outcome i with
  | none => exact iff_of_false not_dismisses_nullKey (by rintro ⟨_, h, _⟩; cases h)
  | some key => exact ⟨fun h => ⟨key, rfl, h⟩, by rintro ⟨_, h, hd⟩; cases h; exact hd⟩

/-- The keyboard, with every step counted. -/
abbrev counted (outcome : Nat → Option InputKey) : Env (firmware Point) (Nat × Tally) :=
  observe (keyboard outcome) count

/-! ## The rules for a call that is counted -/

section Rules

variable {n : Nat} {t : Tally}

/-- Every run from `w` that returns satisfies `Q`. -/
abbrev Counts {α : Type} (outcome : Nat → Option InputKey) (p : C α) (Q : α → Nat × Tally → Prop)
    (w : Nat × Tally) : Prop :=
  wp (counted outcome) (fun _ _ _ => True) p Q w

theorem counts_bind {α β : Type} (p : C α) (f : α → C β) {Q : β → Nat × Tally → Prop}
    {w : Nat × Tally} (h : Counts outcome p (fun a => Counts outcome (f a) Q) w) :
    Counts outcome (p >>= f) Q w := (wp_bind p f Q w).mpr h

/-- A call that is no poll. -/
theorem counts_call {c : Call Point} (other : ∀ r n', keyboard outcome n ⟨c, r⟩ n' → n' = n)
    {Q : Answer c → Nat × Tally → Prop} (h : ∀ r, Q r (n, count t ⟨c, r⟩)) :
    Counts outcome (invoke c) Q (n, t) := by
  refine wp_perform_observed.mpr fun r n' step => ⟨trivial, ?_⟩
  obtain rfl := other r n' step
  exact h r

theorem counts_print (s : String) {Q : Unit → Nat × Tally → Prop}
    (h : Q () (n, { t with prints := t.prints ++ [s] })) :
    Counts outcome (strOut s) Q (n, t) :=
  @counts_call outcome n t (.outputString s) (fun _ _ same => same) Q fun _ => h

theorem counts_stall (us : Nat) {Q : Unit → Nat × Tally → Prop}
    (h : Q () (n, { t with stalls := t.stalls + 1 })) :
    Counts outcome (stall us) Q (n, t) :=
  @counts_call outcome n t (.stall us) (fun _ _ same => same) Q fun _ => h

theorem counts_keyLocal {Q : InputKey → Nat × Tally → Prop} (h : ∀ key, Q key (n, t)) :
    Counts outcome keyLocal Q (n, t) :=
  @counts_call outcome n t .keyLocal (fun _ _ same => same) Q h

/-- A poll counts the key it takes, if there is one. -/
theorem counts_poll (key : InputKey) {Q : InputKey → Nat × Tally → Prop}
    (h : Q (polledKey outcome n)
      (n + 1, { t with taken := t.taken ++ (outcome n).toList })) :
    Counts outcome (readKeyStroke key) Q (n, t) := by
  refine counts_bind _ _ (wp_perform_observed.mpr fun (r : ReadResult) n' step => ⟨trivial, ?_⟩)
  obtain ⟨rfl, found⟩ := step
  unfold polledKey at h
  cases ho : outcome n with
  | some k =>
    rw [ho] at h found
    obtain rfl : r = ⟨.success, some k⟩ := found
    exact h
  | none =>
    rw [ho] at h found
    have same : count t ⟨.readKeyStroke, r⟩ = t := if_neg found.1
    rw [Option.toList_none, List.append_nil] at h
    rw [same]
    show Q (r.stored.getD key) (n + 1, t)
    rw [found.2]
    exact h

end Rules

/-! ## The loop -/

/-- The marks that the rounds from `i` up to `i + m` print: one in each round divisible by 5. -/
def marks (i m : Nat) : Nat := (i + m + 4) / 5 - (i + 4) / 5

/-- What the loop of `toMsg` has done from round `i` on when it ends with `r` after poll `n - 1`, with
`left` rounds to go at its start. -/
structure Polled (outcome : Nat → Option InputKey) (prog : String) (i left : Nat) (t : Tally)
    (r : UInt8) (n : Nat) (t' : Tally) : Prop where
  first : i ≤ n
  last : n ≤ i + left
  prints : t'.prints = t.prints ++ List.replicate (marks i (n - i)) prog
  taken : t'.taken = t.taken ++ (List.range' i (n - i)).filterMap outcome
  ended : (r = 1 ∧ i < n ∧ Dismissed outcome (n - 1) ∧
      (∀ j, i ≤ j → j + 1 < n → ¬ Dismissed outcome j) ∧ t'.stalls + 1 = t.stalls + (n - i)) ∨
    (r = 0 ∧ n = i + left ∧ (∀ j, i ≤ j → j < n → ¬ Dismissed outcome j) ∧
      t'.stalls = t.stalls + (n - i))

/-- One more round before the others. -/
theorem Polled.before {prog : String} {i left n : Nat} {t t₁ t' : Tally} {r : UInt8}
    (rest : Polled outcome prog (i + 1) left t₁ r n t') (stays : ¬ Dismissed outcome i)
    (prints : t₁.prints = t.prints ++ List.replicate (marks i 1) prog)
    (taken : t₁.taken = t.taken ++ (outcome i).toList) (stalls : t₁.stalls = t.stalls + 1) :
    Polled outcome prog i (left + 1) t r n t' := by
  have first := rest.first
  have last := rest.last
  have rounds : n - i = (n - (i + 1)) + 1 := by omega
  refine ⟨by omega, by omega, ?_, ?_, ?_⟩
  · have sum : marks i (n - i) = marks i 1 + marks (i + 1) (n - (i + 1)) := by
      unfold marks
      omega
    rw [rest.prints, prints, sum, ← List.replicate_append_replicate, List.append_assoc]
  · rw [rest.taken, taken, rounds, List.range'_succ, List.append_assoc]
    congr 1
    cases ho : outcome i with
    | none => rw [List.filterMap_cons_none ho]; rfl
    | some key => rw [List.filterMap_cons_some ho]; rfl
  · have later (j : Nat) (from' : i ≤ j) (h : i + 1 ≤ j → ¬ Dismissed outcome j) :
        ¬ Dismissed outcome j := by
      rcases Nat.eq_or_lt_of_le from' with rfl | beyond
      · exact stays
      · exact h beyond
    rcases rest.ended with ⟨hr, hn, hit, miss, stalled⟩ | ⟨hr, hn, miss, stalled⟩
    · exact .inl ⟨hr, by omega, hit, fun j hj hj' => later j hj fun h => miss j h hj', by omega⟩
    · exact .inr ⟨hr, by omega, fun j hj hj' => later j hj fun h => miss j h hj', by omega⟩

/-- By induction on the rounds left. -/
theorem counts_pollKey (prog : String) (left i : Nat) (key : InputKey) (t : Tally) :
    Counts outcome (pollKey prog left i key)
      (fun r w => Polled outcome prog i left t r w.1 w.2) (i, t) := by
  induction left generalizing i key t with
  | zero =>
    refine ⟨Nat.le_refl i, Nat.le_refl i, ?_, ?_, .inr ⟨rfl, rfl, fun j h h' => ?_, ?_⟩⟩
    · simp [marks]
    · simp
    · omega
    · simp
  | succ left ih =>
    -- A round from its poll on, with `t₁` counted so far and no or one mark printed.
    have reading : ∀ t₁ : Tally, t₁.prints = t.prints ++ List.replicate (marks i 1) prog →
        t₁.taken = t.taken → t₁.stalls = t.stalls → Counts outcome
          (do
            let key ← readKeyStroke key
            if dismisses key then return 1
            else do
              stall defStall
              pollKey prog left (i + 1) key)
          (fun r w => Polled outcome prog i (left + 1) t r w.1 w.2) (i, t₁) := by
      intro t₁ prints taken stalls
      refine counts_bind _ _ (counts_poll key ?_)
      have same := @dismisses_polledKey outcome i
      split
      · next hit =>
        refine ⟨by simp, by simp, ?_, ?_, .inl ⟨rfl, by simp, ?_, fun j h h' => ?_, ?_⟩⟩
        · simpa using prints
        · simp only [taken, Nat.add_sub_cancel_left, List.range'_one]
          cases ho : outcome i with
          | none => rw [List.filterMap_cons_none ho]; rfl
          | some key => rw [List.filterMap_cons_some ho]; rfl
        · exact same.mp hit
        · omega
        · simp [stalls]
      · next miss =>
        refine counts_bind _ _ (counts_stall _ ?_)
        refine wp_mono (fun r w rest => ?_) (ih (i + 1) _ _)
        exact rest.before (fun h => miss (same.mpr h)) prints (by rw [taken]) (by rw [stalls])
    rw [pollKey]
    split
    · next marked =>
      refine counts_bind _ _ (counts_print prog (reading _ ?_ rfl rfl))
      have one : marks i 1 = 1 := by
        unfold marks
        omega
      rw [one]
      rfl
    · next unmarked =>
      refine reading t ?_ rfl rfl
      have none : marks i 1 = 0 := by
        unfold marks
        omega
      rw [none, List.replicate_zero, List.append_nil]

/-! ## A call -/

/-- A poll is answered, with a key pending or not. -/
theorem answers_keyboard : Answers (keyboard outcome) := by
  intro n c
  cases c with
  | readKeyStroke =>
    unfold keyboard
    cases outcome n with
    | some key => exact ⟨(⟨.success, some key⟩ : ReadResult), n + 1, rfl, rfl⟩
    | none => exact ⟨(⟨.notReady, some nullKey⟩ : ReadResult), n + 1, rfl, by decide, rfl⟩
  | rdmsr addr => exact ⟨(⟨0, 0⟩ : Halves), n, rfl⟩
  | keyLocal => exact ⟨nullKey, n, rfl⟩
  | _ => exact ⟨(), n, rfl⟩

/-- The loop has as many rounds as are left, and so no loop without a bound. -/
theorem straight_pollKey (prog : String) (left i : Nat) (key : InputKey) :
    (pollKey prog left i key).Straight := by
  induction left generalizing i key with
  | zero => exact Prog.straight_pure _
  | succ left ih =>
    have reading : Prog.Straight (do
        let key ← readKeyStroke key
        if dismisses key then return 1
        else do
          stall defStall
          pollKey prog left (i + 1) key : C UInt8) := by
      refine Prog.straight_bind (straight_readKeyStroke key) fun key => ?_
      refine Prog.straight_ite (Prog.straight_pure _) ?_
      exact Prog.straight_bind (Prog.straight_perform _) fun _ => ih (i + 1) key
    rw [pollKey]
    split
    · exact Prog.straight_bind (Prog.straight_perform _) fun _ => reading
    · exact reading

theorem straight_toMsg (msg prog : String) (timeout : UInt64) :
    (toMsg msg timeout prog).Straight := by
  refine Prog.straight_bind (Prog.straight_perform _) fun key => ?_
  exact Prog.straight_bind (Prog.straight_perform _) fun _ => straight_pollKey prog _ 0 key

/-- **The polls of `toMsg`.** A call returns. It returns 1 exactly when one of its polls delivers a key
that ends it, and then that poll is its last and it has stalled once for each poll before; otherwise
it returns 0 after all its polls, with a stall for each. It has taken the keys of its polls out of the
queue, and printed the mark once for every five of them. The counter stays an `int`. -/
theorem toMsg_polls (msg prog : String) {timeout : UInt64} (small : timeout.toNat < 2 ^ 31)
    (outcome : Nat → Option InputKey) :
    (∃ n r, Returns (keyboard outcome) 0 (toMsg msg timeout prog) n r) ∧
    ∀ tr n r, Run (keyboard outcome) 0 (toMsg msg timeout prog) tr n (some r) →
      (r = 1 ↔ ∃ i < timeout.toNat, Dismissed outcome i) ∧
      (r = 1 → ∃ i, n = i + 1 ∧ Dismissed outcome i ∧ (∀ j < i, ¬ Dismissed outcome j) ∧
        (tally tr).stalls = i) ∧
      (r ≠ 1 → r = 0 ∧ n = timeout.toNat ∧ (tally tr).stalls = timeout.toNat) ∧
      (tally tr).taken = (List.range n).filterMap outcome ∧
      (tally tr).prints = msg :: List.replicate ((n + 4) / 5) prog ∧
      n < 2 ^ 31 := by
  constructor
  · exact (straight_toMsg msg prog timeout).returns answers_keyboard 0
  · intro tr n r run
    have counts : Counts outcome (toMsg msg timeout prog)
        (fun r w => Polled outcome prog 0 timeout.toNat ⟨[msg], 0, []⟩ r w.1 w.2)
        (0, ⟨[], 0, []⟩) := by
      unfold toMsg
      exact counts_bind _ _ (counts_keyLocal fun key =>
        counts_bind _ _ (counts_print msg (counts_pollKey prog _ 0 key _)))
    have polled := (run.observed counts).2 r rfl
    have last : n ≤ timeout.toNat := by
      have last := polled.last
      omega
    have marked : marks 0 (n - 0) = (n + 4) / 5 := by
      unfold marks
      omega
    have prints := polled.prints
    have taken := polled.taken
    rw [marked] at prints
    rw [Nat.sub_zero, ← List.range_eq_range'] at taken
    refine ⟨?_, fun hr => ?_, fun hr => ?_, taken, prints, by omega⟩
    · rcases polled.ended with ⟨rfl, some, hit, _, _⟩ | ⟨rfl, all, miss, _⟩
      · exact iff_of_true rfl ⟨n - 1, by omega, hit⟩
      · refine iff_of_false (by decide) fun ⟨i, hi, hit⟩ => miss i (Nat.zero_le i) (by omega) hit
    · rcases polled.ended with ⟨_, some, hit, miss, stalls⟩ | ⟨hr', _⟩
      · refine ⟨n - 1, by omega, hit, fun j hj => miss j (Nat.zero_le j) (by omega), ?_⟩
        show (after count _ tr).stalls = n - 1
        dsimp only at stalls
        omega
      · rw [hr'] at hr
        exact absurd hr (by decide)
    · rcases polled.ended with ⟨hr', _⟩ | ⟨hr', all, _, stalls⟩
      · exact absurd hr' hr
      · refine ⟨hr', by omega, ?_⟩
        show (after count _ tr).stalls = timeout.toNat
        dsimp only at stalls
        omega

/-- Esc comes at the fourth poll. -/
def escFourth (i : Nat) : Option InputKey := if i = 3 then some ⟨scanEsc, 0⟩ else none

/-- The start-up call then makes four polls, with three stalls and one mark. -/
theorem toMsg_polls_fourth :
    ∃ tr, Run (keyboard escFourth) 0 (toMsg msgInteractive 10 ".") tr 4 (some 1) ∧
      (tally tr).stalls = 3 ∧ (tally tr).taken = [⟨scanEsc, 0⟩] ∧
      (tally tr).prints = [msgInteractive, "."] := by
  obtain ⟨⟨n, r, tr, run⟩, law⟩ :=
    toMsg_polls msgInteractive "." (by decide : (10 : UInt64).toNat < 2 ^ 31) escFourth
  obtain ⟨hit, once, _, taken, prints, _⟩ := law tr n r run
  obtain rfl : r = 1 := hit.mpr ⟨3, by decide, ⟨scanEsc, 0⟩, rfl, by decide⟩
  obtain ⟨i, rfl, ⟨key, delivered, _⟩, _, stalls⟩ := once rfl
  obtain rfl : i = 3 := by
    by_contra other
    exact absurd ((if_neg other).symm.trans delivered) nofun
  exact ⟨tr, run, stalls, taken, prints⟩

end ZeroProcHot.Tmp
