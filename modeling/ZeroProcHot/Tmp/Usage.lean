import ZeroProcHot.Tmp.Control

/-!
# What a user can bring about

Laws of the panel, and so of the program: who is admitted by the start-up poll (`efiMain_bystander`),
that nothing depends on how long an answer takes (`efiMain_patience`), and that a user who has lost
track behind that poll can always come back to the menu, from there out of the program
(`efiMain_leave`) or to either setting of the flag (`efiMain_steer`).
-/

namespace ZeroProcHot.Tmp

open Interact Efi

variable {junk : Stream' InputKey} {v : UInt64}

/-! ## Past the start-up poll -/

/-- The modes that the start-up poll does not lead to without a key. -/
def Mode.Admitted : Mode → Prop
  | .boot _ _ _ | .off => False
  | .message left _ _ => left ≤ 19
  | .menu _ _ | .confirm _ _ => True

/-- An item leads out of the program or to a mode past the start-up poll. -/
theorem opens_cases (choice : UInt8) (junk : Stream' InputKey) :
    (choice = 0 ∧ opens choice junk = .off) ∨ (opens choice junk).Admitted := by
  unfold opens
  by_cases h0 : choice = 0
  · exact .inl ⟨h0, if_pos h0⟩
  · rw [if_neg h0]
    refine .inr ?_
    split
    · trivial
    · split <;> trivial

/-- The session goes on, or it has been ended by the exit. -/
def Past (said : List Action) (p : Panel) : Prop :=
  p.mode.Admitted ∨ (p.mode = .off ∧ .selected 0 ∈ said)

/-- Past the start-up poll stays past. -/
theorem past_feed {p : Panel} (h : p.mode.Admitted) (item : Option InputKey) :
    Past (Panel.feed p item).1 (Panel.feed p item).2 := by
  obtain ⟨mode, v⟩ := p
  cases mode with
  | boot left key junk => exact h.elim
  | off => exact h.elim
  | message left key junk =>
    refine .inl ?_
    show (poll .message .entering left (item.getD key) junk).Admitted
    by_cases hk : dismisses (item.getD key)
    · rw [poll_ends hk]
      trivial
    · cases left with
      | zero =>
        rw [poll_over hk]
        trivial
      | succ left =>
        rw [poll_on hk]
        exact Nat.le_of_succ_le h
  | menu choice junk =>
    cases item with
    | none => exact .inl trivial
    | some key =>
      simp only [Panel.feed]
      cases press choice key with
      | inl choice => exact .inl trivial
      | inr choice =>
        rcases opens_cases choice junk with ⟨rfl, off⟩ | admitted
        · exact .inr ⟨off, List.mem_singleton_self _⟩
        · exact .inl admitted
  | confirm c junk =>
    refine .inl ?_
    cases item with
    | none => exact trivial
    | some key =>
      simp only [Panel.feed]
      split <;> exact Nat.le_refl 19

/-- An admitted session goes on until the exit is selected. -/
theorem play_past {p : Panel} (h : p.mode.Admitted) (items : List (Option InputKey)) :
    Past (panel.play p items).steps (panel.play p items).world := by
  refine @Machine.play_induct _ _ _ panel p Past ?_ [] (.inl h) items
  intro said p item on past
  rcases past with admitted | ⟨off, _⟩
  · rcases past_feed admitted item with next | ⟨off, exits⟩
    · exact .inl next
    · exact .inr ⟨off, List.mem_append_right _ exits⟩
  · have stopped : panel.stopped p = true := Mode.isOff_iff.mpr off
    rw [stopped] at on
    cases on

/-- An admitted session does not end without a word. -/
theorem play_ne_silent {p p' : Panel} (h : p.mode.Admitted) {items rest : List (Option InputKey)} :
    panel.play p items ≠ ⟨[], p', .returned rest⟩ := by
  intro silent
  have past := @play_past p h items
  have stopped := @Machine.play_stops _ _ _ panel p items rest (by rw [silent])
  rw [silent] at past stopped
  rcases past with admitted | ⟨_, exits⟩
  · have off : p'.mode = .off := Mode.isOff_iff.mp stopped
    rw [off] at admitted
    exact admitted
  · exact absurd exits List.not_mem_nil

/-- One of the next `left + 1` items is a key that ends the start-up poll, or the next poll finds no
key and the variable holds one that does. -/
def Admits (left : Nat) (key : InputKey) (items : List (Option InputKey)) : Prop :=
  (∃ item ∈ items.take (left + 1), ∃ k ∈ item, dismisses k) ∨
    (items.head? = some none ∧ dismisses key)

instance (left : Nat) (key : InputKey) (items : List (Option InputKey)) :
    Decidable (Admits left key items) :=
  inferInstanceAs (Decidable ((∃ item ∈ items.take (left + 1), ∃ k ∈ item, dismisses k) ∨ _))

/-- A dismissing item admits. -/
theorem admits_of_ends {left : Nat} {key : InputKey} {item : Option InputKey}
    {items : List (Option InputKey)} (h : dismisses (item.getD key)) :
    Admits left key (item :: items) := by
  cases item with
  | none => exact .inr ⟨rfl, h⟩
  | some k => exact .inl ⟨some k, List.mem_cons_self, k, rfl, h⟩

/-- A poll that does not end leaves it to the polls after it. -/
theorem admits_succ {left : Nat} {key : InputKey} {item : Option InputKey}
    {items : List (Option InputKey)} (h : ¬ dismisses (item.getD key)) :
    Admits (left + 1) key (item :: items) ↔ Admits left (item.getD key) items := by
  constructor
  · rintro (⟨item', mem, k, hk, ends⟩ | ⟨none, ends⟩)
    · rcases List.mem_cons.mp mem with rfl | later
      · cases hk
        exact absurd ends h
      · exact .inl ⟨item', later, k, hk, ends⟩
    · cases none
      exact absurd ends h
  · rintro (⟨item', mem, k, hk, ends⟩ | ⟨_, ends⟩)
    · exact .inl ⟨item', List.mem_cons_of_mem _ mem, k, hk, ends⟩
    · exact absurd ends h

/-- The last poll admits nobody with any other item. -/
theorem not_admits_zero {key : InputKey} {item : Option InputKey} {items : List (Option InputKey)}
    (h : ¬ dismisses (item.getD key)) : ¬ Admits 0 key (item :: items) := by
  rintro (⟨item', mem, k, hk, ends⟩ | ⟨none, ends⟩)
  · cases List.mem_singleton.mp mem
    cases hk
    exact h ends
  · cases none
    exact h ends

theorem boot_on (left : Nat) (key : InputKey) :
    panel.stopped ⟨.boot left key junk, v⟩ = false := rfl

/-- The entry to the menu is past the start-up poll. -/
theorem entering_admitted (junk : Stream' InputKey) : (Mode.entering junk).Admitted := trivial

/-- By induction on the polls left. -/
theorem play_boot_iff (left : Nat) (key : InputKey) (junk : Stream' InputKey)
    (items : List (Option InputKey)) (enough : left < items.length) :
    panel.play ⟨.boot left key junk, v⟩ items =
        ⟨[], ⟨.off, v⟩, .returned (items.drop (left + 1))⟩ ↔ ¬ Admits left key items := by
  induction left generalizing key items with
  | zero =>
    cases items with
    | nil => exact absurd enough (Nat.not_lt_zero 0)
    | cons item items =>
      have fed : panel.feed ⟨.boot 0 key junk, v⟩ item =
          ([], ⟨poll .boot bootOver 0 (item.getD key) junk, v⟩) := rfl
      rw [Machine.play_cons (boot_on _ _), fed, Result.prepend_nil]
      by_cases hk : dismisses (item.getD key)
      · rw [poll_ends hk]
        exact iff_of_false (play_ne_silent (p := ⟨_, v⟩) (entering_admitted junk))
          (not_not.mpr (admits_of_ends hk))
      · rw [poll_over hk, Machine.play_stopped rfl]
        exact iff_of_true rfl (not_admits_zero hk)
  | succ left ih =>
    cases items with
    | nil => exact absurd enough (Nat.not_lt_zero _)
    | cons item items =>
      have fed : panel.feed ⟨.boot (left + 1) key junk, v⟩ item =
          ([], ⟨poll .boot bootOver (left + 1) (item.getD key) junk, v⟩) := rfl
      rw [Machine.play_cons (boot_on _ _), fed, Result.prepend_nil]
      by_cases hk : dismisses (item.getD key)
      · rw [poll_ends hk]
        exact iff_of_false (play_ne_silent (p := ⟨_, v⟩) (entering_admitted junk))
          (not_not.mpr (admits_of_ends hk))
      · rw [poll_on hk, admits_succ hk]
        exact ih (item.getD key) items (Nat.lt_of_succ_lt_succ enough)

/-- **Who is admitted.** With ten items to come, the program takes exactly ten, selects nothing,
writes nothing and returns, unless the items admit a user; a key variable that happens to hold such
a key admits a user that is not there. -/
theorem efiMain_bystander {n : Nat} (w : Console) (ten : 10 ≤ w.keys.length)
    (enough : w.keys.length < n) :
    seenOf (session n efiMain w) = ⟨[], w.register, .returned (w.keys.drop 10)⟩ ↔
      ¬ Admits 9 w.junk.head w.keys := by
  rw [efiMain_panel w enough,
    ← @play_boot_iff w.register 9 w.junk.head w.junk.tail w.keys ten]
  constructor
  · intro silent
    obtain ⟨steps, register, returned⟩ := Result.mk.inj silent
    have off := Mode.isOff_iff.mp (Machine.play_stops returned)
    unfold starting at steps register returned off
    generalize panel.play ⟨.boot 9 w.junk.head w.junk.tail, w.register⟩ w.keys = r at *
    obtain ⟨_, ⟨_, _⟩, _⟩ := r
    cases steps
    cases register
    cases returned
    cases off
    rfl
  · intro silent
    unfold expect starting
    rw [silent]
    rfl

theorem efiMain_bystander_nobody :
    seenOf (session 11 efiMain ⟨[], .replicate 10 none, .const ⟨0, 0⟩, 5⟩) =
      ⟨[], 5, .returned []⟩ :=
  (efiMain_bystander ⟨[], .replicate 10 none, .const ⟨0, 0⟩, 5⟩ (by decide) (by decide)).mpr
    (by decide)

/-- The start-up poll. -/
def Mode.Polling : Mode → Prop
  | .boot _ _ _ => True
  | _ => False

instance (mode : Mode) : Decidable mode.Polling :=
  match mode with
  | .boot _ _ _ => isTrue trivial
  | .menu _ _ | .confirm _ _ | .message _ _ _ | .off => isFalse id

/-- Every session polls, is past its polls or has ended. -/
theorem play_reached {mode : Mode} (h : mode.Polling ∨ mode.Admitted ∨ mode = .off)
    (items : List (Option InputKey)) :
    (panel.play ⟨mode, v⟩ items).world.mode.Polling ∨
      (panel.play ⟨mode, v⟩ items).world.mode.Admitted ∨
      (panel.play ⟨mode, v⟩ items).world.mode = .off := by
  refine @Machine.play_induct _ _ _ panel ⟨mode, v⟩
    (fun _ p => p.mode.Polling ∨ p.mode.Admitted ∨ p.mode = .off) ?_ [] h items
  rintro _ ⟨mode, v⟩ item on (polls | admitted | off)
  · cases mode with
    | boot left key junk =>
      have fed : (panel.feed ⟨.boot left key junk, v⟩ item).2.mode =
          poll .boot bootOver left (item.getD key) junk := rfl
      rw [fed]
      by_cases hk : dismisses (item.getD key)
      · exact .inr (.inl (by rw [poll_ends hk]; exact entering_admitted junk))
      · cases left with
        | zero => exact .inr (.inr (poll_over hk))
        | succ left => exact .inl (by rw [poll_on hk]; trivial)
    | _ => exact polls.elim
  · exact .inr ((past_feed (p := ⟨mode, v⟩) admitted item).imp_right And.left)
  · have stopped : panel.stopped ⟨mode, v⟩ = true := Mode.isOff_iff.mpr off
    rw [stopped] at on
    cases on

/-! ## Back to the menu -/

/-- The key that means no to `ConfirmAndWrite` and nothing to every other prompt. -/
def no : InputKey := ⟨0, chr 'n'⟩

theorem not_dismisses_no : ¬ dismisses no := by decide

theorem press_no (choice : UInt8) : press choice no = .inl choice := by
  unfold press
  rw [if_neg (by decide), if_neg (by decide), if_neg (by decide), if_neg (by decide)]

/-- The keys that lead back to the menu: a no, and one for each poll of the message. -/
def home : List (Option InputKey) := .replicate 21 (some no)

/-- The menu ignores the key of a no. -/
theorem play_menu_no (choice : UInt8) (k : Nat) :
    panel.play ⟨.menu choice junk, v⟩ (.replicate k (some no)) =
      ⟨[], ⟨.menu choice junk, v⟩, .blocked⟩ := by
  have idle : panel.feed ⟨.menu choice junk, v⟩ (some no) = ([], ⟨.menu choice junk, v⟩) := by
    simp only [panel, Panel.feed, press_no]
  rw [← List.append_nil (.replicate k (some no)), Machine.play_idles (by rfl)]
  · exact Machine.play_nil (by rfl)
  · intro item mem
    rw [List.eq_of_mem_replicate mem]
    exact idle

/-- By induction on the polls left. -/
theorem play_message_no (left k : Nat) (key : InputKey) :
    panel.play ⟨.message left key junk, v⟩ (.replicate (left + 1 + k) (some no)) =
      ⟨[], ⟨.entering junk, v⟩, .blocked⟩ := by
  have fed : panel.feed ⟨.message left key junk, v⟩ (some no) =
      ([], ⟨poll .message .entering left no junk, v⟩) := rfl
  induction left generalizing key with
  | zero =>
    rw [show 0 + 1 + k = k + 1 by omega, List.replicate_succ, Machine.play_cons (by rfl), fed,
      poll_over not_dismisses_no, Result.prepend_nil]
    exact play_menu_no 1 k
  | succ left ih =>
    rw [show left + 1 + 1 + k = left + 1 + k + 1 by omega, List.replicate_succ,
      Machine.play_cons (by rfl), fed, poll_on not_dismisses_no, Result.prepend_nil]
    exact ih no rfl

/-- From every admitted mode the keys lead to the menu. -/
theorem play_home {p : Panel} (h : p.mode.Admitted) :
    ∃ choice junk, panel.play p home = ⟨[], ⟨.menu choice junk, p.register⟩, .blocked⟩ := by
  obtain ⟨mode, v⟩ := p
  cases mode with
  | boot left key junk => exact h.elim
  | off => exact h.elim
  | menu choice junk => exact ⟨choice, junk, play_menu_no choice 21⟩
  | message left key junk =>
    have most : left ≤ 19 := h
    refine ⟨1, junk.tail, ?_⟩
    rw [home, show 21 = left + 1 + (20 - left) by omega]
    exact play_message_no left (20 - left) key
  | confirm c junk =>
    have fed : panel.feed ⟨.confirm c junk, v⟩ (some no) = ([], ⟨.answered junk, v⟩) := rfl
    refine ⟨1, junk.tail.tail.tail, ?_⟩
    rw [home, List.replicate_succ, Machine.play_cons (by rfl), fed, Result.prepend_nil]
    exact play_message_no 19 0 junk.tail.head

section Sessions

variable {n : Nat} {w : Console}

/-- Where the panel stands when a session waits. -/
theorem waiting_panel (enough : w.keys.length < n)
    (waits : (session n efiMain w).outcome = .blocked) :
    panel.play ⟨starting w.junk, w.register⟩ w.keys =
      ⟨(session n efiMain w).steps, ⟨standing w, (session n efiMain w).world.register⟩,
        .blocked⟩ := by
  have same := efiMain_panel w enough
  unfold seenOf Result.report at same
  rw [waits] at same
  obtain ⟨steps, register, outcome⟩ := Result.mk.inj same
  have mode := congrArg (fun r => r.world.mode) (panel_play (starting w.junk) w.register w.keys)
  rw [steps, register]
  generalize panel.play ⟨starting w.junk, w.register⟩ w.keys = r at *
  obtain ⟨_, ⟨_, _⟩, _⟩ := r
  obtain rfl := outcome
  obtain rfl := mode
  rfl

/-- A session goes on from where the panel stands. -/
theorem session_extend {p : Panel} {as : List Action}
    (stands : panel.play ⟨starting w.junk, w.register⟩ w.keys = ⟨as, p, .blocked⟩)
    (more : List (Option InputKey)) (enough : (w.keys ++ more).length < n) :
    seenOf (session n efiMain (w.extend more)) =
      ((panel.play p more).mapWorld Panel.register).prepend as := by
  rw [efiMain_panel (w.extend more) (by rw [Console.keys_extend]; exact enough)]
  unfold expect
  rw [Console.keys_extend]
  show (panel.play ⟨starting w.junk, w.register⟩ (w.keys ++ more)).mapWorld _ = _
  rw [Machine.play_append_waits (by rw [stands]), stands, Result.mapWorld_prepend]

/-- After the keys that lead back, a session goes on from the menu. -/
theorem session_home (past : ¬ (standing w).Polling)
    (waits : (session n efiMain w).outcome = .blocked) (more : List (Option InputKey))
    (enough : (w.keys ++ (home ++ more)).length < n) :
    ∃ choice junk, seenOf (session n efiMain (w.extend (home ++ more))) =
      ((panel.play ⟨.menu choice junk, (session n efiMain w).world.register⟩ more).mapWorld
        Panel.register).prepend (session n efiMain w).steps := by
  have fewer : w.keys.length < n := by
    rw [List.length_append] at enough
    omega
  have stands := waiting_panel fewer waits
  have reached := @play_reached w.register (starting w.junk) (.inl trivial) w.keys
  have on := @Machine.play_waits _ _ _ panel ⟨starting w.junk, w.register⟩ w.keys (by rw [stands])
  rw [stands] at reached on
  have admitted : (standing w).Admitted := by
    rcases reached with polls | admitted | off
    · exact absurd polls past
    · exact admitted
    · exact absurd (Mode.isOff_iff.mpr off) (Bool.eq_false_iff.mp on)
  obtain ⟨choice, junk, home⟩ :=
    @play_home ⟨standing w, (session n efiMain w).world.register⟩ admitted
  refine ⟨choice, junk, ?_⟩
  rw [session_extend stands _ enough, Machine.play_append_waits (by rw [home]), home,
    Result.prepend_nil]

/-- **The way out.** However a session has come to wait behind its start-up poll, 21 times 'n' and then
'0' end it: nothing more is written, only the exit is selected, and the keys after it are left. -/
theorem efiMain_leave (past : ¬ (standing w).Polling)
    (waits : (session n efiMain w).outcome = .blocked) (more : List (Option InputKey))
    (enough : (w.keys ++ (home ++ some ⟨0, chr '0'⟩ :: more)).length < n) :
    seenOf (session n efiMain (w.extend (home ++ some ⟨0, chr '0'⟩ :: more))) =
      ⟨(session n efiMain w).steps ++ [.selected 0], (session n efiMain w).world.register,
        .returned more⟩ := by
  obtain ⟨choice, junk, goes⟩ := session_home past waits _ enough
  have fed (v : UInt64) : panel.feed ⟨.menu choice junk, v⟩ (some ⟨0, chr '0'⟩) =
      ([.selected 0], ⟨.off, v⟩) := rfl
  rw [goes, Machine.play_cons (by rfl), fed, Machine.play_stopped (by rfl)]
  rfl

/-- Esc at the first poll, and a question that is not answered yet. -/
def atQuestion : Console := ⟨[], [some ⟨scanEsc, 0⟩, some ⟨0, chr '2'⟩], .const ⟨0, 0⟩, 5⟩

theorem efiMain_leave_atQuestion :
    seenOf (session 26 efiMain (atQuestion.extend (home ++ some ⟨0, chr '0'⟩ :: [some no]))) =
      ⟨(session 26 efiMain atQuestion).steps ++ [.selected 0],
        (session 26 efiMain atQuestion).world.register, .returned [some no]⟩ :=
  efiMain_leave (by decide) rfl [some no] (by decide)

/-- The key that selects the item of a change. -/
def Change.digit : Change → InputKey
  | .clear => ⟨0, chr '2'⟩
  | .set => ⟨0, chr '3'⟩

/-- **The way to either setting.** From the same points, 21 times 'n', the digit of a change and a
yes write the register as the change makes it. -/
theorem efiMain_steer (past : ¬ (standing w).Polling)
    (waits : (session n efiMain w).outcome = .blocked) (c : Change) {yes : InputKey}
    (confirms : ¬ aborts yes)
    (enough : (w.keys ++ (home ++ [some c.digit, some yes])).length < n) :
    seenOf (session n efiMain (w.extend (home ++ [some c.digit, some yes]))) =
      ⟨(session n efiMain w).steps ++
          [.selected c.item, .write (c.apply (session n efiMain w).world.register)],
        c.apply (session n efiMain w).world.register, .blocked⟩ := by
  obtain ⟨choice, junk, goes⟩ := session_home past waits _ enough
  have first (v : UInt64) : panel.feed ⟨.menu choice junk, v⟩ (some c.digit) =
      ([.selected c.item], ⟨.confirm c junk, v⟩) := by
    cases c <;> rfl
  have second (v : UInt64) : panel.feed ⟨.confirm c junk, v⟩ (some yes) =
      ([.write (c.apply v)], ⟨.answered junk, c.apply v⟩) := if_neg confirms
  rw [goes, Machine.play_cons (by rfl), first, Machine.play_cons (by rfl), second,
    Machine.play_nil (by rfl)]
  rfl

theorem efiMain_steer_atQuestion :
    seenOf (session 26 efiMain
        (atQuestion.extend (home ++ [some ⟨0, chr '3'⟩, some ⟨0, chr 'y'⟩]))) =
      ⟨(session 26 efiMain atQuestion).steps ++
          [.selected 3, .write (Change.set.apply (session 26 efiMain atQuestion).world.register)],
        Change.set.apply (session 26 efiMain atQuestion).world.register, .blocked⟩ :=
  efiMain_steer (by decide) rfl .set (by decide) (by decide)

end Sessions

/-! ## Taking one's time -/

/-- **Nothing depends on how long an answer takes.** Two keyboards that deliver the same items, but
for empty polls that come while the menu or a question waits, make the same session: the same
selections and writes, the same register and the same keys left. -/
theorem efiMain_patience {n : Nat} {w w' : Console} {items quiet more : List (Option InputKey)}
    (keys : w.keys = items ++ more) (keys' : w'.keys = items ++ quiet ++ more)
    (junk : w'.junk = w.junk) (register : w'.register = w.register)
    (waits : Waits (panel.play ⟨starting w.junk, w.register⟩ items).world.mode)
    (empty : ∀ item ∈ quiet, item = none) (enough : w'.keys.length < n) :
    seenOf (session n efiMain w') = seenOf (session n efiMain w) := by
  have fewer : w.keys.length < n := by
    rw [keys, List.length_append]
    rw [keys', List.length_append, List.length_append] at enough
    omega
  rw [efiMain_panel w' enough, efiMain_panel w fewer]
  unfold expect
  rw [keys, keys', junk, register, List.append_assoc, Machine.play_leave_out]
  · exact waits.idles.on
  · intro item mem
    rw [empty item mem]
    exact waits.idles.idle

/-- Esc, and a question before its answer comes. -/
def asked : List (Option InputKey) := [some ⟨scanEsc, 0⟩, some ⟨0, chr '2'⟩]

/-- The answer comes at once, or after `quiet`. -/
def answered (quiet : List (Option InputKey)) : Console :=
  ⟨[], asked ++ quiet ++ [some ⟨0, chr 'y'⟩], .const ⟨0, 0⟩, 5⟩

theorem efiMain_patience_answered :
    seenOf (session 9 efiMain (answered [none, none])) = seenOf (session 9 efiMain (answered [])) := by
  have waits : Waits (panel.play
      ⟨starting (answered []).junk, (answered []).register⟩ asked).world.mode := trivial
  exact @efiMain_patience 9 (answered []) (answered [none, none]) asked [none, none]
    [some ⟨0, chr 'y'⟩] rfl rfl rfl rfl waits (by decide) (by decide)

end ZeroProcHot.Tmp
