import ZeroProcHot.Tmp.Navigation
import ZeroProcHot.Tmp.Panel

/-!
# What the keyboard decides

The panel without its register is a machine of its own, the control: which item is selected and which
change is confirmed never depends on the value of the register. `efiMain_decides` says so of the
program. For every keyboard there is one list of decisions, and from every register a run enacts
that list.

At a menu the items before the next selection count only by the line they lead to.
`efiMain_detour` is exact: two ways of wandering through the menu can be exchanged in every session
if and only if the arrow keys of both come to the same number of lines, modulo 4.
-/

namespace ZeroProcHot.Tmp

open Interact Efi

/-- What a session decides: an item of the menu, or a change. -/
inductive Decision where
  | selected (choice : UInt8)
  | confirmed (c : Change)
  deriving DecidableEq, Repr

namespace Decision

/-- The change that is decided on. -/
def change : Decision → Option Change
  | .selected _ => none
  | .confirmed c => some c

/-- What a decision makes of the register. -/
def leave (v : UInt64) (d : Decision) : UInt64 := d.change.elim v fun c => c.apply v

/-- The action that a decision is, with the register before it. -/
def act (v : UInt64) : Decision → Action
  | .selected choice => .selected choice
  | .confirmed c => .write (c.apply v)

/-- The register after some decisions. -/
def leaves (ds : List Decision) (v : UInt64) : UInt64 := ds.foldl leave v

/-- The actions that some decisions are, from a register on. -/
def acts : List Decision → UInt64 → List Action
  | [], _ => []
  | d :: ds, v => d.act v :: acts ds (d.leave v)

theorem leaves_append (ds ds' : List Decision) (v : UInt64) :
    leaves (ds ++ ds') v = leaves ds' (leaves ds v) := List.foldl_append

theorem acts_append (ds ds' : List Decision) (v : UInt64) :
    acts (ds ++ ds') v = acts ds v ++ acts ds' (leaves ds v) := by
  induction ds generalizing v with
  | nil => rfl
  | cons d ds ih => exact congrArg (d.act v :: ·) (ih (d.leave v))

/-- The register after some decisions, by the changes among them. -/
theorem leaves_changes (ds : List Decision) (v : UInt64) :
    leaves ds v = Change.applyAll (ds.filterMap change) v := by
  induction ds generalizing v with
  | nil => rfl
  | cons d ds ih =>
    cases d with
    | selected choice => exact ih v
    | confirmed c => exact ih (c.apply v)

end Decision

open Decision

/-! ## The control -/

/-- What an item does, the register apart. -/
def Mode.feed : Mode → Option InputKey → List Decision × Mode
  | .boot left key junk, item => ([], poll .boot bootOver left (item.getD key) junk)
  | .message left key junk, item => ([], poll .message .entering left (item.getD key) junk)
  | .menu choice junk, some key =>
    match press choice key with
    | .inl choice => ([], .menu choice junk)
    | .inr choice => ([.selected choice], opens choice junk)
  | .confirm c junk, some key => (if aborts key then [] else [.confirmed c], .answered junk)
  | .menu choice junk, none => ([], .menu choice junk)
  | .confirm c junk, none => ([], .confirm c junk)
  | .off, _ => ([], .off)

/-- The panel without its register. -/
def control : Machine Mode (Option InputKey) Decision := ⟨Mode.isOff, Mode.feed⟩

section Control

variable {mode : Mode} {v : UInt64}

/-- **One item**: the panel enacts what the control decides. -/
theorem panel_feed (mode : Mode) (v : UInt64) (item : Option InputKey) :
    panel.feed ⟨mode, v⟩ item =
      (acts (mode.feed item).1 v, ⟨(mode.feed item).2, leaves (mode.feed item).1 v⟩) := by
  cases mode with
  | boot left key junk => rfl
  | message left key junk => rfl
  | off => rfl
  | menu choice junk =>
    cases item with
    | none => rfl
    | some key =>
      simp only [panel, Panel.feed, Mode.feed]
      cases press choice key with
      | inl choice => rfl
      | inr choice => rfl
  | confirm c junk =>
    cases item with
    | none => rfl
    | some key =>
      simp only [panel, Panel.feed, Mode.feed]
      by_cases no : aborts key
      · simp only [if_pos no]
        rfl
      · simp only [if_neg no]
        rfl

/-- **The panel enacts what the control decides.** -/
theorem panel_play (mode : Mode) (v : UInt64) (items : List (Option InputKey)) :
    panel.play ⟨mode, v⟩ items =
      ⟨acts (control.play mode items).steps v,
        ⟨(control.play mode items).world, leaves (control.play mode items).steps v⟩,
        (control.play mode items).outcome⟩ := by
  have lockstep := @Machine.play_lockstep Panel (Option InputKey) Action panel ⟨mode, v⟩ Mode
    Decision control mode
    (fun os p ds mode => os = acts ds v ∧ p = ⟨mode, leaves ds v⟩)
    (fun _ _ _ _ same => by rw [same.2]; rfl) ?_ [] [] ⟨rfl, rfl⟩ items
  · obtain ⟨⟨said, state⟩, outcome⟩ := lockstep
    rw [List.nil_append, List.nil_append] at said
    rw [List.nil_append] at state
    rw [← said, ← state, ← outcome]
  · intro os p ds mode item on same
    obtain ⟨rfl, rfl⟩ := same
    rw [panel_feed, acts_append, leaves_append]
    exact ⟨rfl, rfl⟩

/-- **The keyboard decides.** For every keyboard there is one list of decisions and one way to end, and
from every register every run enacts these decisions one after the other and ends so. -/
theorem efiMain_decides (pending : List InputKey) (later : List (Option InputKey))
    (junk : Stream' InputKey) :
    ∃ ds out, ∀ v, Follows console action Console.register (fun _ w => w.keys) efiMain
      ⟨pending, later, junk, v⟩ ⟨acts ds v, leaves ds v, out⟩ := by
  refine ⟨(control.play (starting junk) (pending.map some ++ later)).steps,
    (control.play (starting junk) (pending.map some ++ later)).outcome, fun v => ?_⟩
  have follows := efiMain_runs ⟨pending, later, junk, v⟩
  unfold expect at follows
  rw [panel_play] at follows
  exact follows

end Control

/-! ## Wandering through the menu -/

/-- The keys that end `menuloop`. -/
def Stroke.Selects : Stroke → Prop
  | .digit _ | .enter => True
  | _ => False

instance (s : Stroke) : Decidable s.Selects :=
  match s with
  | .digit _ | .enter => isTrue trivial
  | .up | .down | .other => isFalse id

/-- Empty polls and keys that select nothing. -/
def Wanders (items : List (Option InputKey)) : Prop :=
  ∀ item ∈ items, ∀ key ∈ item, ¬ (stroke key).Selects

instance (items : List (Option InputKey)) : Decidable (Wanders items) :=
  inferInstanceAs (Decidable (∀ item ∈ items, ∀ key ∈ item, ¬ (stroke key).Selects))

/-- How many of some items are a stroke. -/
def strokeCount (s : Stroke) (items : List (Option InputKey)) : Nat :=
  items.countP fun item => item.any fun key => stroke key = s

/-- The lines that the arrow keys among some items go down. -/
def net (items : List (Option InputKey)) : Int := strokeCount .down items - strokeCount .up items

/-- The line of the menu, counted from a choice. -/
def lineFrom (choice : UInt8) (lines : Int) : UInt8 := .ofNat (((choice.toNat : Int) + lines) % 4).toNat

section Wandering

variable {junk : Stream' InputKey} {choice : UInt8} {v : UInt64}

theorem lineFrom_toNat (choice : UInt8) (lines : Int) :
    ((lineFrom choice lines).toNat : Int) = ((choice.toNat : Int) + lines) % 4 := by
  have low := Int.emod_nonneg ((choice.toNat : Int) + lines) (by decide : (4 : Int) ≠ 0)
  have high := Int.emod_lt_of_pos ((choice.toNat : Int) + lines) (by decide : (0 : Int) < 4)
  have small : (((choice.toNat : Int) + lines) % 4).toNat < 4 := by omega
  have byte : (lineFrom choice lines).toNat = (((choice.toNat : Int) + lines) % 4).toNat :=
    UInt8.toNat_ofNat_of_lt' (Nat.lt_trans small (by decide))
  rw [byte]
  exact Int.toNat_of_nonneg low

/-- Two ways lead to one line when they go the same number of lines, modulo 4. -/
theorem lineFrom_eq_iff (choice : UInt8) (lines lines' : Int) :
    lineFrom choice lines = lineFrom choice lines' ↔ lines % 4 = lines' % 4 := by
  have first := lineFrom_toNat choice lines
  have second := lineFrom_toNat choice lines'
  constructor
  · intro same
    rw [same] at first
    omega
  · intro same
    refine UInt8.toNat_inj.mp (Int.ofNat.inj ?_)
    show ((lineFrom choice lines).toNat : Int) = (lineFrom choice lines').toNat
    omega

theorem lineFrom_zero (small : choice.toNat < 4) : lineFrom choice 0 = choice := by
  have value := lineFrom_toNat choice 0
  exact UInt8.toNat_inj.mp (by omega)

theorem lineFrom_add (choice : UInt8) (lines lines' : Int) :
    lineFrom (lineFrom choice lines) lines' = lineFrom choice (lines + lines') := by
  have first := lineFrom_toNat choice lines
  have second := lineFrom_toNat (lineFrom choice lines) lines'
  have both := lineFrom_toNat choice (lines + lines')
  exact UInt8.toNat_inj.mp (by omega)

/-- The lines that a stroke goes down. -/
def Stroke.lines : Stroke → Int
  | .up => -1
  | .down => 1
  | _ => 0

theorem strokeCount_cons (s : Stroke) (key : InputKey) (items : List (Option InputKey)) :
    strokeCount s (some key :: items) = strokeCount s items + if stroke key = s then 1 else 0 := by
  unfold strokeCount
  rw [List.countP_cons]
  simp only [Option.any_some, decide_eq_true_eq]

theorem net_none (items : List (Option InputKey)) : net (none :: items) = net items := rfl

theorem net_some (key : InputKey) (items : List (Option InputKey)) :
    net (some key :: items) = (stroke key).lines + net items := by
  unfold net
  rw [strokeCount_cons, strokeCount_cons]
  cases hs : stroke key
  all_goals
    simp only [Stroke.lines, reduceCtorEq, if_true, if_false]
    omega

/-- A key that selects nothing moves by its lines. -/
theorem press_lines (small : choice.toNat < 4) {key : InputKey} (h : ¬ (stroke key).Selects) :
    press choice key = .inl (lineFrom choice (stroke key).lines) := by
  rw [press_stroke]
  cases hs : stroke key with
  | digit item =>
    rw [hs] at h
    exact absurd trivial h
  | enter =>
    rw [hs] at h
    exact absurd trivial h
  | other =>
    show Sum.inl choice = .inl (lineFrom choice 0)
    rw [lineFrom_zero small]
  | up =>
    show Sum.inl (UInt8.ofNat ((choice.toNat + 3) % 4)) = .inl (lineFrom choice (-1))
    unfold lineFrom
    congr 2
    omega
  | down =>
    show Sum.inl (UInt8.ofNat ((choice.toNat + 1) % 4)) = .inl (lineFrom choice 1)
    unfold lineFrom
    congr 2

/-- **A wandering says nothing and ends on its line.** By induction on the items. -/
theorem play_wander (small : choice.toNat < 4) {items : List (Option InputKey)}
    (wanders : Wanders items) :
    control.play (.menu choice junk) items =
      ⟨[], .menu (lineFrom choice (net items)) junk, .blocked⟩ := by
  induction items generalizing choice with
  | nil =>
    have none : net [] = 0 := rfl
    rw [Machine.play_nil (by rfl), none, lineFrom_zero small]
  | cons item items ih =>
    obtain ⟨first, rest⟩ := List.forall_mem_cons.mp wanders
    cases item with
    | none =>
      have fed : control.feed (.menu choice junk) none = ([], .menu choice junk) := rfl
      rw [net_none, Machine.play_idle (by rfl) fed, ih small rest]
    | some key =>
      have fed : control.feed (.menu choice junk) (some key) =
          ([], .menu (lineFrom choice (stroke key).lines) junk) := by
        simp only [control, Mode.feed, press_lines small (first key rfl)]
      have next : (lineFrom choice (stroke key).lines).toNat < 4 := by
        have value := lineFrom_toNat choice (stroke key).lines
        omega
      rw [net_some, Machine.play_cons (by rfl), fed, Result.prepend_nil, ih next rest, lineFrom_add]

/-- The menu is always on one of its four lines. -/
def OnLine : Mode → Prop
  | .menu choice _ => choice.toNat < 4
  | _ => True

theorem onLine_entering (junk : Stream' InputKey) : OnLine (.entering junk) := by
  show (1 : UInt8).toNat < 4
  decide

theorem onLine_opens (choice : UInt8) (junk : Stream' InputKey) : OnLine (opens choice junk) := by
  unfold opens
  split
  · trivial
  split
  · trivial
  split
  · trivial
  · exact onLine_entering junk

theorem onLine_feed {mode : Mode} (h : OnLine mode) (item : Option InputKey) :
    OnLine (mode.feed item).2 := by
  have polled {rest : Nat → InputKey → Stream' InputKey → Mode} {timedOut : Stream' InputKey → Mode}
      {left : Nat} {key : InputKey} {junk : Stream' InputKey}
      (on : ∀ left key junk, OnLine (rest left key junk)) (after : ∀ junk, OnLine (timedOut junk)) :
      OnLine (poll rest timedOut left key junk) := by
    unfold poll
    split
    · exact onLine_entering junk
    cases left with
    | zero => exact after junk
    | succ left => exact on left key junk
  cases mode with
  | boot left key junk => exact polled (fun _ _ _ => trivial) fun _ => trivial
  | message left key junk => exact polled (fun _ _ _ => trivial) onLine_entering
  | off => trivial
  | confirm c junk => cases item <;> trivial
  | menu choice junk =>
    cases item with
    | none => exact h
    | some key =>
      have turned : OnLine (match press choice key with
          | .inl choice => .menu choice junk
          | .inr choice => opens choice junk) := by
        rw [press_stroke]
        cases stroke key with
        | digit item => exact onLine_opens _ junk
        | enter => exact onLine_opens _ junk
        | other => exact h
        | up =>
          show (UInt8.ofNat ((choice.toNat + 3) % 4)).toNat < 4
          rw [UInt8.toNat_ofNat_of_lt' (Nat.lt_trans (Nat.mod_lt _ (by decide)) (by decide))]
          exact Nat.mod_lt _ (by decide)
        | down =>
          show (UInt8.ofNat ((choice.toNat + 1) % 4)).toNat < 4
          rw [UInt8.toNat_ofNat_of_lt' (Nat.lt_trans (Nat.mod_lt _ (by decide)) (by decide))]
          exact Nat.mod_lt _ (by decide)
      simp only [Mode.feed]
      generalize press choice key = pressed at turned
      cases pressed <;> exact turned

theorem onLine_play {mode : Mode} (h : OnLine mode) (items : List (Option InputKey)) :
    OnLine (control.play mode items).world :=
  @Machine.play_induct _ _ _ control mode (fun _ mode => OnLine mode)
    (fun _ _ item _ on => onLine_feed on item) [] h items

end Wandering

/-! ## Detours -/

/-- What a session shows, with as many rounds as it can need. -/
def story (w : Console) : Result Action UInt64 (List (Option InputKey)) :=
  seenOf (session (w.keys.length + 1) efiMain w)

theorem story_eq (w : Console) : story w = expect (starting w.junk) w :=
  efiMain_panel w (Nat.lt_succ_self _)

/-- More rounds show nothing else. -/
theorem story_session {n : Nat} (w : Console) (enough : w.keys.length < n) :
    seenOf (session n efiMain w) = story w := by
  rw [story_eq, efiMain_panel w enough]

section Detour

variable {w : Console} {choice : UInt8} {junk : Stream' InputKey}

/-- Where a session stands, as far as the keyboard decides it. -/
def standing (w : Console) : Mode := (control.play (starting w.junk) w.keys).world

/-- A session that stands at the menu goes on from its line. -/
theorem story_wander (stands : standing w = .menu choice junk) {items : List (Option InputKey)}
    (wanders : Wanders items) (more : List (Option InputKey)) :
    ∃ ds, story (w.extend (items ++ more)) =
      ((panel.play ⟨.menu (lineFrom choice (net items)) junk, leaves ds w.register⟩ more).mapWorld
        Panel.register).prepend (acts ds w.register) ∧
      ds = (control.play (starting w.junk) w.keys).steps := by
  refine ⟨_, ?_, rfl⟩
  have small : choice.toNat < 4 := by
    have onLine := @onLine_play (starting w.junk) trivial w.keys
    unfold standing at stands
    rw [stands] at onLine
    exact onLine
  have waits : (panel.play ⟨starting w.junk, w.register⟩ w.keys).outcome = .blocked := by
    rcases panel.play_outcome ⟨starting w.junk, w.register⟩ w.keys with waits | ⟨rest, stops⟩
    · exact waits
    · have off := Mode.isOff_iff.mp (Machine.play_stops stops)
      rw [panel_play] at off
      exact absurd (off.symm.trans stands) nofun
  have wandered : panel.play ⟨.menu choice junk, leaves _ w.register⟩ items = _ :=
    panel_play (.menu choice junk) (leaves (control.play (starting w.junk) w.keys).steps w.register)
      items
  rw [play_wander small wanders] at wandered
  rw [story_eq]
  unfold expect
  rw [Console.keys_extend]
  show (panel.play ⟨starting w.junk, w.register⟩ (w.keys ++ (items ++ more))).mapWorld _ = _
  rw [Machine.play_append_waits waits, panel_play]
  show ((panel.play ⟨standing w, leaves _ _⟩ _).prepend _).mapWorld _ = _
  rw [stands, Machine.play_append_waits (by rw [wandered]), wandered]
  rfl

/-- **Detours.** In a session that stands at the menu, two ways of wandering through it can be
exchanged, whatever comes after them, exactly when they go the same number of lines modulo 4: Enter
tells any others apart. -/
theorem efiMain_detour (stands : standing w = .menu choice junk) {items items' : List (Option InputKey)}
    (wanders : Wanders items) (wanders' : Wanders items') :
    (∀ more, story (w.extend (items ++ more)) = story (w.extend (items' ++ more))) ↔
      net items % 4 = net items' % 4 := by
  rw [← lineFrom_eq_iff choice]
  constructor
  · intro same
    have pressed (line : UInt8) (v : UInt64) :
        (panel.play ⟨.menu line junk, v⟩ [some enter]).steps = [.selected line] := by
      have fed : panel.feed ⟨.menu line junk, v⟩ (some enter) =
          ([.selected line], ⟨opens line junk, v⟩) := by
        simp only [panel, Panel.feed, press_enter]
      rw [Machine.play_cons (by rfl), fed, Result.prepend_steps]
      unfold Machine.play
      split <;> rfl
    obtain ⟨ds, first, rfl⟩ := story_wander stands wanders [some enter]
    obtain ⟨ds', second, rfl⟩ := story_wander stands wanders' [some enter]
    have steps := congrArg Result.steps (first.symm.trans ((same [some enter]).trans second))
    simp only [Result.prepend_steps, Result.mapWorld, pressed] at steps
    have last := List.append_cancel_left steps
    exact Action.selected.inj (List.cons.inj last).1
  · intro same more
    obtain ⟨ds, first, rfl⟩ := story_wander stands wanders more
    obtain ⟨ds', second, rfl⟩ := story_wander stands wanders' more
    rw [first, second, same]

/-- Esc, and then the menu. -/
def entry : Console := ⟨[], [some ⟨scanEsc, 0⟩], .const ⟨0, 0⟩, 5⟩

/-- Three lines down, past an empty poll and a key that means nothing. -/
def around : List (Option InputKey) :=
  [some ⟨scanDown, 0⟩, none, some ⟨scanDown, 0⟩, some ⟨0, chr 'x'⟩, some ⟨scanDown, 0⟩]

/-- They are one line up, and no line down is. -/
theorem efiMain_detour_entry :
    (∀ more, story (entry.extend (around ++ more)) =
      story (entry.extend ([some ⟨scanUp, 0⟩] ++ more))) ∧
    ¬ ∀ more, story (entry.extend (around ++ more)) = story (entry.extend ([none] ++ more)) := by
  have stands : standing entry = .menu 1 (Stream'.const ⟨0, 0⟩).tail.tail := rfl
  exact ⟨(efiMain_detour stands (by decide) (by decide)).mpr (by decide),
    fun same => absurd ((efiMain_detour stands (by decide) (by decide)).mp same) (by decide)⟩

end Detour

end ZeroProcHot.Tmp
