import ZeroProcHot.Interact.Machine
import ZeroProcHot.Interact.Total
import ZeroProcHot.Interact.Wp

/-!
# Where a run stands

A run that stops leaves a program to be run. `Stands E w p tr w' q` says that the steps `tr` lead from
`p` to `q`; to unroll a loop is no step. A program whose loops go round silently for ever stands
nowhere but in its loop: it comes neither to a call nor to its end. So the law that a program never
spins is that each of its runs comes to a place of a certain kind.

`Prog.Lively` is the condition on the text of a program under which this is so: a round of a loop
makes one of some calls before the loop goes round again. From every point of every run such a program
can go on, without one of these calls, to its end or to one of them (`Prog.Lively.goes_on`). On a
machine that answers by a handler a run ends where it returned or where its call is not answered
(`exec_stands`).
-/

namespace ZeroProcHot.Interact

variable {S : Signature} {O W V α β γ σ : Type} {E : Env S W} {w w' w'' : W}

/-- What follows a round of a loop: the next round, or what comes after the loop. -/
def again (body : σ → Prog S (σ ⊕ β)) (k : β → Prog S α) : σ ⊕ β → Prog S α
  | .inl s => .loop body s k
  | .inr b => k b

/-- The steps `tr` lead from a program to the program that is left. -/
inductive Stands (E : Env S W) {α : Type} : W → Prog S α → List (Step S W) → W → Prog S α → Prop
  | here {w : W} {p : Prog S α} : Stands E w p [] w p
  | call {w w' w'' : W} {c : S.Call} {k : S.Answer c → Prog S α} {r : S.Answer c}
      {tr : List (Step S W)} {q : Prog S α} :
      E w ⟨c, r⟩ w' → Stands E w' (k r) tr w'' q →
      Stands E w (.call c k) (⟨w, ⟨c, r⟩, w'⟩ :: tr) w'' q
  | unroll {β σ : Type} {w w' : W} {body : σ → Prog S (σ ⊕ β)} {s : σ} {k : β → Prog S α}
      {tr : List (Step S W)} {q : Prog S α} :
      Stands E w ((body s).bind (again body k)) tr w' q → Stands E w (.loop body s k) tr w' q

namespace Stands

variable {p q u : Prog S α} {tr tr' : List (Step S W)}

theorem trans (first : Stands E w p tr w' q) (second : Stands E w' q tr' w'' u) :
    Stands E w p (tr ++ tr') w'' u := by
  induction first with
  | here => exact second
  | call step _ ih => exact .call step (ih second)
  | unroll _ ih => exact .unroll (ih second)

end Stands

/-- Three programs in a row. -/
theorem Prog.bind_assoc (p : Prog S α) (f : α → Prog S β) (g : β → Prog S γ) :
    (p.bind f).bind g = p.bind fun a => (f a).bind g := by
  induction p with
  | ret a => rfl
  | call c k ih => simp only [bind, ih]
  | loop body s k _ ih => simp only [bind, ih]

theorem again_bind (body : σ → Prog S (σ ⊕ β)) (k : β → Prog S α) (f : α → Prog S γ)
    (x : σ ⊕ β) : (again body k x).bind f = again body (fun b => (k b).bind f) x := by
  cases x <;> rfl

/-- What is left of a sequence, as long as its first program is not over. -/
theorem Stands.bind {p q : Prog S α} {tr : List (Step S W)} (stands : Stands E w p tr w' q)
    (f : α → Prog S β) : Stands E w (p.bind f) tr w' (q.bind f) := by
  induction stands with
  | here => exact .here
  | call step _ ih => exact .call step ih
  | unroll _ ih =>
    simp only [Prog.bind_assoc, again_bind] at ih
    exact .unroll ih

/-- Every run stands somewhere; where it returned, at its result. -/
theorem Run.stands {p : Prog S α} {tr : List (Step S W)} {out : Option α}
    (run : Run E w p tr w' out) :
    ∃ q, Stands E w p tr w' q ∧ ∀ a, out = some a → q = .ret a := by
  induction run with
  | stop => exact ⟨_, .here, nofun⟩
  | ret =>
    refine ⟨_, .here, fun a returned => ?_⟩
    cases returned
    rfl
  | call step _ ih =>
    obtain ⟨q, stands, returned⟩ := ih
    exact ⟨q, .call step stands, returned⟩
  | loopNext _ _ ihRound ih =>
    obtain ⟨_, round, last⟩ := ihRound
    obtain rfl := last _ rfl
    obtain ⟨q, stands, returned⟩ := ih
    exact ⟨q, .unroll ((round.bind _).trans stands), returned⟩
  | loopDone _ _ ihRound ih =>
    obtain ⟨_, round, last⟩ := ihRound
    obtain rfl := last _ rfl
    obtain ⟨q, stands, returned⟩ := ih
    exact ⟨q, .unroll ((round.bind _).trans stands), returned⟩
  | loopStop _ ihRound =>
    obtain ⟨q, round, _⟩ := ihRound
    exact ⟨_, .unroll (round.bind _), nofun⟩

/-- A run of a sequence comes of the runs of its parts. -/
theorem Run.of_bind {p : Prog S α} {f : α → Prog S β} {tr : List (Step S W)} {out : Option β}
    (run : Run E w (p.bind f) tr w' out) :
    (out = none ∧ Run E w p tr w' none) ∨
    ∃ a w₁ tr₁ tr₂, Run E w p tr₁ w₁ (some a) ∧ Run E w₁ (f a) tr₂ w' out ∧ tr = tr₁ ++ tr₂ := by
  induction p generalizing w tr with
  | ret a => exact .inr ⟨a, w, [], tr, .ret, run, rfl⟩
  | call c k ih =>
    simp only [Prog.bind] at run
    cases run with
    | stop => exact .inl ⟨rfl, .stop⟩
    | call step rest =>
      rcases ih _ rest with ⟨stopped, rest⟩ | ⟨a, w₁, tr₁, tr₂, first, second, rfl⟩
      · exact .inl ⟨stopped, .call step rest⟩
      · exact .inr ⟨a, w₁, _, tr₂, .call step first, second, rfl⟩
  | loop body s k ihBody ih =>
    simp only [Prog.bind] at run
    generalize hp : Prog.loop body s (fun b => (k b).bind f) = p at run
    induction run generalizing s with
    | stop => exact .inl ⟨rfl, .stop⟩
    | ret => cases hp
    | call => cases hp
    | loopNext round _ _ ihNext =>
      cases hp
      rcases ihNext _ ihBody ih rfl with ⟨stopped, rest⟩ | ⟨a, w₁, tr₁, tr₂, first, second, rfl⟩
      · exact .inl ⟨stopped, .loopNext round rest⟩
      · exact .inr ⟨a, w₁, _, tr₂, .loopNext round first, second, (List.append_assoc _ _ _).symm⟩
    | loopDone round rest =>
      cases hp
      rcases ih _ rest with ⟨stopped, rest⟩ | ⟨a, w₁, tr₁, tr₂, first, second, rfl⟩
      · exact .inl ⟨stopped, .loopDone round rest⟩
      · exact .inr ⟨a, w₁, _, tr₂, .loopDone round first, second, (List.append_assoc _ _ _).symm⟩
    | loopStop round =>
      cases hp
      exact .inl ⟨rfl, .loopStop round⟩

/-- A loop runs as its first round and what follows it. -/
theorem Run.unrolled {body : σ → Prog S (σ ⊕ β)} {s : σ} {k : β → Prog S α}
    {tr : List (Step S W)} {out : Option α}
    (run : Run E w ((body s).bind (again body k)) tr w' out) : Run E w (.loop body s k) tr w' out := by
  rcases run.of_bind with ⟨rfl, round⟩ | ⟨x, w₁, tr₁, tr₂, round, rest, rfl⟩
  · exact .loopStop round
  · cases x with
    | inl s' => exact .loopNext round rest
    | inr b => exact .loopDone round rest

/-- **What is left runs on**: the steps so far and a run of the program that is left are a run. -/
theorem Stands.run {p q : Prog S α} {tr tr' : List (Step S W)} {out : Option α}
    (stands : Stands E w p tr w' q) (rest : Run E w' q tr' w'' out) :
    Run E w p (tr ++ tr') w'' out := by
  induction stands with
  | here => exact rest
  | call step _ ih => exact .call step (ih rest)
  | unroll _ ih => exact (ih rest).unrolled

/-- A loop that keeps to a protocol does so round by round. -/
theorem conforms_unroll {T : Protocol S V} {body : σ → Prog S (σ ⊕ β)} {s : σ} {k : β → Prog S α}
    {Q : α → V → Prop} {v : V} (h : Conforms T (.loop body s k) Q v) :
    Conforms T ((body s).bind (again body k)) Q v := by
  obtain ⟨J, start, round⟩ := h
  refine (conforms_bind (body s) (again body k) Q).mpr (conforms_mono ?_ (round s v start))
  rintro (s' | b) v' hv
  · exact ⟨J, hv, round⟩
  · exact hv

/-- What is left of a program keeps to the protocol from where the steps have led it. -/
theorem Stands.follows {T : Protocol S V} {p q : Prog S α} {Q : α → V → Prop} {v : V}
    {tr : List (Step S W)} (stands : Stands E w p tr w' q) (h : Conforms T p Q v) :
    Conforms T q Q (T.state v (events tr)) := by
  induction stands generalizing v with
  | here => exact h
  | call _ _ ih => exact ih (h _ _ rfl).2
  | unroll _ ih => exact ih (conforms_unroll h)

/-! ## Programs that come to a call -/

namespace Prog

/-- Without a call of `pause` the program returns only what `Q` allows. -/
def Unpaused (pause : S.Call → Prop) : {α : Type} → (α → Prop) → Prog S α → Prop
  | _, Q, .ret a => Q a
  | _, Q, .call c k => pause c ∨ ∀ r, (k r).Unpaused pause Q
  | _, Q, .loop body s k =>
    (body s).Unpaused pause (Sum.elim (fun _ => False) fun b => (k b).Unpaused pause Q)

/-- No loop goes round again without a call of `pause`. -/
def Lively (pause : S.Call → Prop) : {α : Type} → Prog S α → Prop
  | _, .ret _ => True
  | _, .call _ k => ∀ r, (k r).Lively pause
  | _, .loop body _ k =>
    (∀ s, (body s).Lively pause ∧
      (body s).Unpaused pause (Sum.elim (fun _ => False) fun _ => True)) ∧
    ∀ b, (k b).Lively pause

variable {pause : S.Call → Prop} {Q Q' : α → Prop}

/-- A weaker condition on what is returned. -/
theorem unpaused_mono {p : Prog S α} (h : ∀ a, Q a → Q' a) (hp : p.Unpaused pause Q) :
    p.Unpaused pause Q' := by
  induction p with
  | ret a => exact h a hp
  | call c k ih => exact hp.imp_right fun rest r => ih r h (rest r)
  | loop body s k ihBody ih =>
    refine ihBody s ?_ hp
    rintro (s' | b) hx
    · exact hx.elim
    · exact ih b h hx

/-- One program after another. -/
theorem unpaused_bind {p : Prog S α} {f : α → Prog S β} {Q : β → Prop}
    (h : p.Unpaused pause fun a => (f a).Unpaused pause Q) : (p.bind f).Unpaused pause Q := by
  induction p with
  | ret a => exact h
  | call c k ih => exact h.imp_right fun rest r => ih r (rest r)
  | loop body s k _ ih =>
    refine @unpaused_mono S _ pause _ _ (body s) ?_ h
    rintro (s' | b) hx
    · exact hx.elim
    · exact ih b hx

/-- A program that begins with such a call. -/
theorem unpaused_perform {c : S.Call} (h : pause c) (f : S.Answer c → Prog S α) :
    ((perform c).bind f).Unpaused pause Q := .inl h

theorem Straight.unpaused {p : Prog S α} (straight : p.Straight) (all : ∀ a, Q a) :
    p.Unpaused pause Q := by
  induction p with
  | ret a => exact all a
  | call c k ih => exact .inr fun r => ih r (straight r) all
  | loop => exact straight.elim

/-- What comes after straight code. -/
theorem Straight.unpaused_bind {p : Prog S α} {f : α → Prog S β} {Q : β → Prop}
    (straight : p.Straight) (rest : ∀ a, (f a).Unpaused pause Q) : (p >>= f).Unpaused pause Q :=
  Prog.unpaused_bind (straight.unpaused rest)

/-- A program without a loop cannot go round. -/
theorem Straight.lively {p : Prog S α} (straight : p.Straight) : p.Lively pause := by
  induction p with
  | ret a => trivial
  | call c k ih => exact fun r => ih r (straight r)
  | loop => exact straight.elim

/-- One program after another. -/
theorem lively_bind {p : Prog S α} {f : α → Prog S β} (first : p.Lively pause)
    (rest : ∀ a, (f a).Lively pause) : (p >>= f).Lively pause := by
  simp only [bind_eq]
  induction p with
  | ret a => exact rest a
  | call c k ih => exact fun r => ih r (first r) rest
  | loop body s k _ ih => exact ⟨first.1, fun b => ih b (first.2 b) rest⟩

theorem lively_ite {c : Prop} [Decidable c] {p q : Prog S α} (hp : p.Lively pause)
    (hq : q.Lively pause) : (if c then p else q).Lively pause := by
  split
  · exact hp
  · exact hq

/-- The rule for a loop: its rounds are lively, and one that goes round again has paused. -/
theorem lively_iter {body : σ → Prog S (σ ⊕ β)} (s : σ) (round : ∀ s, (body s).Lively pause)
    (pauses : ∀ s, (body s).Unpaused pause (Sum.elim (fun _ => False) fun _ => True)) :
    (iter body s).Lively pause := ⟨fun s => ⟨round s, pauses s⟩, fun _ => trivial⟩

/-- What is left after some steps is as lively. -/
theorem Lively.stands {p q : Prog S α} {tr : List (Step S W)} (lively : p.Lively pause)
    (stands : Stands E w p tr w' q) : q.Lively pause := by
  induction stands with
  | here => exact lively
  | call _ _ ih => exact ih (lively _)
  | @unroll β σ w w' body s k tr q _ ih =>
    refine ih (lively_bind (lively.1 s).1 fun x => ?_)
    cases x with
    | inl s' => exact lively
    | inr b => exact lively.2 b

/-- What is left after steps without a pause returns, without one, what the program does. -/
theorem Unpaused.stands {p q : Prog S α} {tr : List (Step S W)} (unpaused : p.Unpaused pause Q)
    (stands : Stands E w p tr w' q) (none : ∀ st ∈ tr, ¬ pause st.event.call) :
    q.Unpaused pause Q := by
  induction stands with
  | here => exact unpaused
  | call _ _ ih =>
    obtain ⟨first, rest⟩ := List.forall_mem_cons.mp none
    exact ih (unpaused.resolve_left first _) rest
  | unroll _ ih =>
    refine ih (unpaused_bind (unpaused_mono ?_ unpaused)) none
    rintro (s' | b) hx
    · exact hx.elim
    · exact hx

/-- By induction on the program: a loop's first round comes to a pause or to the last round, since it
does not go round again without a pause. -/
theorem Lively.arrives {p : Prog S α} (lively : p.Lively pause) (answers : Answers E) (w : W) :
    ∃ tr w' q, Stands E w p tr w' q ∧ (∀ st ∈ tr, ¬ pause st.event.call) ∧
      ((∃ a, q = .ret a) ∨ ∃ c k, pause c ∧ q = .call c k) := by
  induction p generalizing w with
  | ret a => exact ⟨[], w, _, .here, fun _ h => absurd h List.not_mem_nil, .inl ⟨a, rfl⟩⟩
  | call c k ih =>
    by_cases hc : pause c
    · exact ⟨[], w, _, .here, fun _ h => absurd h List.not_mem_nil, .inr ⟨c, k, hc, rfl⟩⟩
    · obtain ⟨r, w₁, step⟩ := answers w c
      obtain ⟨tr, w', q, stands, none, place⟩ := ih r (lively r) w₁
      exact ⟨_, w', q, .call step stands, List.forall_mem_cons.mpr ⟨hc, none⟩, place⟩
  | loop body s k ihBody ih =>
    obtain ⟨round, pauses⟩ := lively.1 s
    obtain ⟨tr, w₁, q, stands, none, place⟩ := ihBody s round w
    rcases place with ⟨x, rfl⟩ | ⟨c, k', hc, rfl⟩
    · cases x with
      | inl s' => exact (pauses.stands stands none).elim
      | inr b =>
        obtain ⟨tr', w', q, rest, none', place⟩ := ih b (lively.2 b) w₁
        exact ⟨tr ++ tr', w', q, .unroll ((stands.bind _).trans rest),
          List.forall_mem_append.mpr ⟨none, none'⟩, place⟩
    · exact ⟨tr, w₁, _, .unroll (stands.bind _), none, .inr ⟨c, _, hc, rfl⟩⟩

/-- **A lively program never spins.** Where every call is answered, each of its runs can go on, without
a pause, to the end of the program or to a pause. -/
theorem Lively.goes_on {p : Prog S α} (lively : p.Lively pause) (answers : Answers E)
    {tr : List (Step S W)} {out : Option α} (run : Run E w p tr w' out) :
    ∃ more w'', (∀ st ∈ more, ¬ pause st.event.call) ∧
      ((∃ a, Stands E w p (tr ++ more) w'' (.ret a)) ∨
        ∃ c k, pause c ∧ Stands E w p (tr ++ more) w'' (.call c k)) := by
  obtain ⟨q, stands, _⟩ := run.stands
  obtain ⟨more, w'', q', rest, none, place⟩ := (lively.stands stands).arrives answers w'
  refine ⟨more, w'', none, ?_⟩
  rcases place with ⟨a, rfl⟩ | ⟨c, k, hc, rfl⟩
  · exact .inl ⟨a, stands.trans rest⟩
  · exact .inr ⟨c, k, hc, stands.trans rest⟩

end Prog

/-! ## Where running a program ends -/

/-- What is said of the end of a run: it stands at its result, or before a call that is not answered. -/
def Outcome.Ends (h : Handler S W) (w : W) (p : Prog S α) (tr : List (Step S W)) (w' : W) :
    Outcome α → Prop
  | .returned a => Stands h.env w p tr w' (.ret a)
  | .blocked => ∃ c k, Stands h.env w p tr w' (.call c k) ∧ h w' c = none
  | .unfinished => True

theorem Outcome.Ends.after {h : Handler S W} {p q : Prog S α} {tr tr' : List (Step S W)}
    {out : Outcome α} (ends : out.Ends h w' q tr' w'') (stands : Stands h.env w p tr w' q) :
    out.Ends h w p (tr ++ tr') w'' := by
  cases out with
  | returned a => exact stands.trans ends
  | blocked =>
    obtain ⟨c, k, rest, stuck⟩ := ends
    exact ⟨c, k, stands.trans rest, stuck⟩
  | unfinished => trivial

/-- What running finds ends at the result, before a call that is not answered, or where the rounds are
used up. -/
theorem exec_stands (h : Handler S W) (n : Nat) (p : Prog S α) (w : W) :
    (exec h n p w).outcome.Ends h w p (exec h n p w).steps (exec h n p w).world := by
  induction p generalizing w with
  | ret a => exact Stands.here
  | call c k ih =>
    simp only [exec]
    cases hc : h w c with
    | none => exact ⟨c, k, .here, hc⟩
    | some answer =>
      obtain ⟨r, w'⟩ := answer
      have rest := ih r w'
      exact rest.after (.call hc .here)
  | loop body s k ihBody ih =>
    simp only [exec]
    generalize hm : n = m
    suffices key : ∀ s w, ((rounds (fun s w => exec h n (body s) w) m s w).andThen
        fun b w' => exec h n (k b) w').outcome.Ends h w (.loop body s k)
          ((rounds (fun s w => exec h n (body s) w) m s w).andThen
            fun b w' => exec h n (k b) w').steps
          ((rounds (fun s w => exec h n (body s) w) m s w).andThen
            fun b w' => exec h n (k b) w').world by
      subst hm
      exact key s w
    clear hm
    induction m with
    | zero => exact fun _ _ => trivial
    | succ m ihm =>
      intro s w
      have round := ihBody s w
      simp only [rounds, Result.andThen_assoc]
      generalize exec h n (body s) w = r at round ⊢
      obtain ⟨steps, w₁, out⟩ := r
      cases out with
      | returned x =>
        cases x with
        | inl s' => exact (ihm s' w₁).after (.unroll (round.bind _))
        | inr b => exact (ih b w₁).after (.unroll (round.bind _))
      | blocked =>
        obtain ⟨c, k', stands, stuck⟩ := round
        exact ⟨c, _, .unroll (stands.bind _), stuck⟩
      | unfinished => trivial

/-! ## More rounds -/

theorem Result.andThen_settled {r r' : Result O W α} {f f' : α → W → Result O W β}
    (first : r.outcome ≠ .unfinished → r' = r)
    (rest : ∀ a w, (f a w).outcome ≠ .unfinished → f' a w = f a w)
    (settled : (r.andThen f).outcome ≠ .unfinished) : r'.andThen f' = r.andThen f := by
  obtain ⟨steps, w, out⟩ := r
  cases out with
  | returned a =>
    rw [first nofun, andThen_returned, andThen_returned, rest a w settled]
  | blocked =>
    rw [first nofun]
    rfl
  | unfinished => exact absurd rfl settled

theorem rounds_settled {f f' : σ → W → Result O W (σ ⊕ β)}
    (body : ∀ s w, (f s w).outcome ≠ .unfinished → f' s w = f s w) {m m' : Nat} (hm : m ≤ m')
    {s : σ} {w : W} (settled : (rounds f m s w).outcome ≠ .unfinished) :
    rounds f' m' s w = rounds f m s w := by
  induction m generalizing m' s w with
  | zero => exact absurd rfl settled
  | succ m ih =>
    obtain ⟨k, rfl⟩ : ∃ k, m' = k + 1 := ⟨m' - 1, by omega⟩
    refine Result.andThen_settled (body s w) (fun x w' settled => ?_) settled
    cases x with
    | inl s' => exact ih (by omega) settled
    | inr b => rfl

variable {h : Handler S W} {n n' : Nat}

/-- What has not used up its rounds does not change with more of them. -/
theorem exec_settled (hn : n ≤ n') {p : Prog S α} {w : W}
    (settled : (exec h n p w).outcome ≠ .unfinished) : exec h n' p w = exec h n p w := by
  induction p generalizing w with
  | ret a => rfl
  | call c k ih =>
    simp only [exec] at settled ⊢
    cases hc : h w c with
    | none => rfl
    | some answer =>
      obtain ⟨r, w'⟩ := answer
      rw [hc] at settled
      have rest := ih r settled
      simp only [rest]
  | loop body s k ihBody ih =>
    exact Result.andThen_settled (rounds_settled (fun s w settled => ihBody s settled) hn)
      (fun b w settled => ih b settled) settled

/-- A loop of one more round is its first round and what follows it. -/
theorem exec_unroll {body : σ → Prog S (σ ⊕ β)} {s : σ} {k : β → Prog S α} {w : W}
    (settled : (exec h n ((body s).bind (again body k)) w).outcome ≠ .unfinished) :
    exec h (n + 1) (.loop body s k) w = exec h n ((body s).bind (again body k)) w := by
  have split : exec h n ((body s).bind (again body k)) w =
      (exec h n (body s) w).andThen fun x w => exec h n (again body k x) w := exec_bind _ _ w
  rw [split] at settled ⊢
  simp only [exec, rounds, Result.andThen_assoc]
  refine Result.andThen_settled (exec_settled (Nat.le_succ n)) (fun x w settled => ?_) settled
  cases x with
  | inl s' =>
    refine Result.andThen_settled (rounds_settled (fun s w => exec_settled (Nat.le_succ n))
      (Nat.le_refl n)) (fun b w => exec_settled (Nat.le_succ n)) settled
  | inr b => exact exec_settled (Nat.le_succ n) settled

/-- **Running a program goes through every place where it stands**, in every budget from some budget
on, when running what is left settles. -/
theorem exec_of_stands {p q : Prog S α} {tr : List (Step S W)} (stands : Stands h.env w p tr w' q)
    (settled : (exec h n q w').outcome ≠ .unfinished) :
    ∃ n₀, ∀ m, n₀ ≤ m → exec h m p w = (exec h n q w').prepend tr := by
  induction stands with
  | here => exact ⟨n, fun m hm => exec_settled hm settled⟩
  | @call w w₁ w₂ c k r tr q answer _ ih =>
    obtain ⟨n₀, found⟩ := ih settled
    have answered : h w c = some (r, w₁) := answer
    refine ⟨n₀, fun m hm => ?_⟩
    simp only [exec, answered, found m hm]
    rfl
  | unroll _ ih =>
    obtain ⟨n₀, found⟩ := ih settled
    refine ⟨n₀ + 1, fun m hm => ?_⟩
    obtain ⟨l, rfl⟩ : ∃ l, m = l + 1 := ⟨m - 1, by omega⟩
    have rest := found l (by omega)
    rw [← rest]
    refine exec_unroll ?_
    rw [rest]
    exact settled

/-- The steps `whole` are all that a program ever does: every run is a beginning of them. -/
def Whole (E : Env S W) (w : W) (p : Prog S α) (whole : List (Step S W)) : Prop :=
  ∀ {tr w' out}, Run E w p tr w' out → events tr <+: events whole

/-- **What running finds is all**, when it has settled. -/
theorem exec_whole {p : Prog S α} {w : W} (settled : (exec h n p w).outcome ≠ .unfinished) :
    Whole h.env w p (exec h n p w).steps := by
  intro tr w' out run
  obtain ⟨n₀, found⟩ := @play_of_run S (Event S) W α h some p w w' tr out run
  have longest := (found (max n₀ n) (by omega)).1
  unfold play Result.watch at longest
  rw [exec_settled (by omega) settled] at longest
  simpa only [List.filterMap_some] using longest

end ZeroProcHot.Interact
