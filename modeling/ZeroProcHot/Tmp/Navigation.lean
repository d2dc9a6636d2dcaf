import ZeroProcHot.Tmp.Program
import ZeroProcHot.Efi.Display

/-!
# Finding one's way in the menu

`menuloop` returns at the first key that selects: the digit of a digit key, or at Enter the number
that the arrow keys have left. Whenever it waits for a key, one line of the menu is marked, and its
label starts with the number that Enter would return (`menuloop_navigates`).
-/

namespace ZeroProcHot.Tmp

open Interact Efi

/-! ## Keys -/

/-- What a key is to the menu, asked in this order. -/
inductive Stroke where
  | digit (item : Nat)
  | up
  | down
  | enter
  | other
  deriving DecidableEq, Repr

/-- What a key does in the menu. -/
def stroke (key : InputKey) : Stroke :=
  if chr '0' ≤ key.unicodeChar ∧ key.unicodeChar ≤ chr '3' then
    .digit (key.unicodeChar.toNat - 48)
  else if key.scanCode = scanUp then .up
  else if key.scanCode = scanDown then .down
  else if key.unicodeChar = charCarriageReturn then .enter
  else .other

variable {key : Nat → InputKey} {n : Nat}

/-- How many of the first `n` keys are this stroke. -/
def strokes (key : Nat → InputKey) (s : Stroke) (n : Nat) : Nat :=
  (List.range n).countP fun i => stroke (key i) = s

/-- The number that Enter returns after the first `n` keys. -/
def entered (key : Nat → InputKey) (n : Nat) : Nat :=
  ((1 + strokes key .down n - strokes key .up n : Int) % 4).toNat

/-- The line that is marked after the first `n` keys. -/
def line (key : Nat → InputKey) (n : Nat) : Nat := (entered key n + 3) % 4

/-- What key `n` selects. -/
def picks (key : Nat → InputKey) (n : Nat) : Option Nat :=
  match stroke (key n) with
  | .digit item => some item
  | .enter => some (entered key n)
  | _ => none

/-- None of the first `n` keys selects. -/
def Unpicked (key : Nat → InputKey) (n : Nat) : Prop := ∀ i < n, picks key i = none

/-- Where a key moves the mark to. -/
def Stroke.move : Stroke → Nat → Nat
  | .up, l => (l + 3) % 4
  | .down, l => (l + 1) % 4
  | _, l => l

/-- One more key is one more stroke of its kind. -/
theorem strokes_succ (s : Stroke) :
    strokes key s (n + 1) = strokes key s n + if stroke (key n) = s then 1 else 0 := by
  unfold strokes
  rw [List.range_succ, List.countP_append, List.countP_singleton]
  simp only [decide_eq_true_eq]

/-- The mark is in one of four places. -/
theorem entered_lt : entered key n < 4 := by
  unfold entered
  omega

/-- A key moves the mark as its stroke does. -/
theorem entered_succ : entered key (n + 1) = (stroke (key n)).move (entered key n) := by
  have downs := @strokes_succ key n .down
  have ups := @strokes_succ key n .up
  unfold entered
  cases h : stroke (key n)
  all_goals
    simp only [h, reduceCtorEq, if_true, if_false] at downs ups
    simp only [Stroke.move, downs, ups]
    omega

/-- The mark follows the keys. -/
theorem line_succ : line key (n + 1) = (stroke (key n)).move (line key n) := by
  have small := @entered_lt key n
  unfold line
  rw [entered_succ]
  cases stroke (key n) with
  | down =>
    simp only [Stroke.move]
    omega
  | _ => rfl

/-- A key that picks nothing leaves the menu. -/
theorem unpicked_succ (h : Unpicked key n) (none : picks key n = none) : Unpicked key (n + 1) := by
  intro i hi
  rcases Nat.lt_succ_iff_lt_or_eq.mp hi with before | rfl
  · exact h i before
  · exact none

/-- What the branches of `menuloop` make of a stroke. -/
def Stroke.press (choice : UInt8) : Stroke → UInt8 ⊕ UInt8
  | .digit item => .inr (.ofNat item)
  | .up => .inl (.ofNat ((choice.toNat + 3) % 4))
  | .down => .inl (.ofNat ((choice.toNat + 1) % 4))
  | .enter => .inr choice
  | .other => .inl choice

/-- `press` is the stroke of the key. -/
theorem press_stroke (choice : UInt8) (k : InputKey) : press choice k = (stroke k).press choice := by
  unfold press stroke
  by_cases range : chr '0' ≤ k.unicodeChar ∧ k.unicodeChar ≤ chr '3'
  · have item : (k.unicodeChar - chr '0').toUInt8 = .ofNat (k.unicodeChar.toNat - 48) := by
      rw [← digit_toNat range.1 range.2, UInt8.ofNat_toNat]
    rw [if_pos range, if_pos range]
    exact congrArg Sum.inr item
  · rw [if_neg range, if_neg range]
    simp only [apply_ite (Stroke.press choice)]
    rfl

theorem stroke_digit {k : InputKey} {item : Nat} (h : stroke k = .digit item) : item < 4 := by
  unfold stroke at h
  split at h
  · next range =>
    have high : k.unicodeChar.toNat ≤ 51 := UInt16.le_iff_toNat_le.mp range.2
    cases h
    omega
  · split at h
    · cases h
    split at h
    · cases h
    split at h <;> cases h

/-- What `menuloop` makes of key `n`, with the number that Enter would return. -/
theorem press_picks {choice : UInt8} (h : choice.toNat = entered key n) :
    match press choice (key n) with
    | .inl choice => picks key n = none ∧ choice.toNat = entered key (n + 1)
    | .inr choice => picks key n = some choice.toNat := by
  have byte {m : Nat} (small : m < 4) : (UInt8.ofNat m).toNat = m :=
    UInt8.toNat_ofNat_of_lt' (Nat.lt_trans small (by decide))
  have turn (m : Nat) : (UInt8.ofNat (m % 4)).toNat = m % 4 := byte (Nat.mod_lt m (by decide))
  rw [press_stroke, entered_succ]
  unfold picks
  cases hs : stroke (key n) with
  | digit item => exact congrArg some (byte (stroke_digit hs)).symm
  | up => exact ⟨rfl, (turn _).trans (by rw [h]; rfl)⟩
  | down => exact ⟨rfl, (turn _).trans (by rw [h]; rfl)⟩
  | enter => exact congrArg some h.symm
  | other => exact ⟨rfl, h⟩

/-! ## The screen -/

/-- The row of the first line of the menu. -/
def menuTop : Nat := 7

/-- Line `i` of the menu, when `marked` is the marked one. -/
def menuLine (marked i : Nat) : List Char :=
  (if i = marked then "> " else "  ").toList ++ (menuLabel i).toList

theorem menuLine_plain : ∀ marked < 4, ∀ i < 4, Display.Plain (menuLine marked i) := by decide

/-- A line begins with its mark and its number. -/
theorem menuLine_head : ∀ marked < 4, ∀ i < 4, (menuLine marked i).take 3 =
    [if i = marked then '>' else ' ', ' ', Nat.digitChar ((i + 1) % 4)] := by decide

/-- Exactly one line of the menu carries the mark. -/
structure MarkAt (d : Display) (l : Nat) : Prop where
  inside : l < 4
  only : ∀ i < 4, d.Begins (menuTop + i) "> ".toList ↔ i = l

/-- There is one mark. -/
theorem MarkAt.unique {d : Display} {l l' : Nat} (h : MarkAt d l) (h' : MarkAt d l') : l = l' :=
  (h'.only l h.inside).mp ((h.only l h.inside).mpr rfl)

/-- **The screen after the first `n` keys**, none of which selects: the menu with one line marked, the
one whose label starts with the number that Enter would return. -/
structure Redrawn (key : Nat → InputKey) (n : Nat) (d : Display) : Prop where
  unpicked : Unpicked key n
  lines : ∀ i < 4, d.Begins (menuTop + i) (menuLine (line key n) i)
  mark : MarkAt d (line key n)
  label : ∀ i < 4, d.cell 2 (menuTop + i) = Nat.digitChar (entered key n) ↔ i = line key n

/-- The screen above the menu. -/
def caption (flag : String) : Display :=
  ((((((⟨0, 0, fun _ _ => ' '⟩ : Display).print head0).print head1).print "\r\n").print
    "BD_PROCHOT: ").print flag).print "\r\n\r\nMenu : " |>.print "\r\n----------------------\r\n"

/-- The caption ends at the top of the menu. -/
theorem caption_cursor : ∀ flag ∈ ["1", "0"],
    (caption flag).column = 0 ∧ (caption flag).row = menuTop := by decide +kernel

/-- The screen with the menu. -/
def screen (flag : String) (marked : Nat) : Display :=
  ((List.range 4).map (menuLine marked)).foldl Display.printLine (caption flag)

/-- Each line of the menu begins with its mark and its label. -/
theorem screen_begins {flag : String} (h : flag ∈ ["1", "0"]) {marked i : Nat} (hm : marked < 4)
    (hi : i < 4) : (screen flag marked).Begins (menuTop + i) (menuLine marked i) := by
  obtain ⟨column, row⟩ := caption_cursor flag h
  have plain : ∀ cs ∈ (List.range 4).map (menuLine marked), Display.Plain cs := by
    intro cs hcs
    obtain ⟨j, hj, rfl⟩ := List.mem_map.mp hcs
    exact menuLine_plain marked hm j (List.mem_range.mp hj)
  have found : ((List.range 4).map (menuLine marked))[i]? = some (menuLine marked i) := by
    rw [List.getElem?_map, List.getElem?_range hi]
    rfl
  have begins := Display.printLines_begin plain column found
  rw [row] at begins
  exact begins

/-- The mark, the column behind it and the number. -/
theorem screen_cells {flag : String} (h : flag ∈ ["1", "0"]) {marked i : Nat} (hm : marked < 4)
    (hi : i < 4) :
    (screen flag marked).cell 0 (menuTop + i) = (if i = marked then '>' else ' ') ∧
      (screen flag marked).cell 1 (menuTop + i) = ' ' ∧
      (screen flag marked).cell 2 (menuTop + i) = Nat.digitChar ((i + 1) % 4) := by
  have head := menuLine_head marked hm i hi
  have cell {x : Nat} {c : Char} (hx : x < 3) (found : ((menuLine marked i).take 3)[x]? = some c) :
      (screen flag marked).cell x (menuTop + i) = c := by
    rw [List.getElem?_take_of_lt hx] at found
    exact screen_begins h hm hi x c found
  rw [head] at cell
  exact ⟨cell (by omega) rfl, cell (by omega) rfl, cell (by omega) rfl⟩

/-- The mark is where it was drawn. -/
theorem screen_mark {flag : String} (h : flag ∈ ["1", "0"]) {marked : Nat} (hm : marked < 4) :
    MarkAt (screen flag marked) marked := by
  refine ⟨hm, fun i hi => ?_⟩
  obtain ⟨mark, behind, _⟩ := screen_cells h hm hi
  constructor
  · intro begins
    by_contra other
    rw [if_neg other] at mark
    exact absurd (mark.symm.trans (begins 0 '>' rfl)) (by decide)
  · intro same
    rw [if_pos same] at mark
    intro x c found
    match x with
    | 0 => exact mark.trans (Option.some.inj found)
    | 1 => exact behind.trans (Option.some.inj found)
    | _ + 2 => cases found

/-- The labels stand in the order 1, 2, 3, 0. -/
theorem digitChar_line : ∀ i < 4, ∀ m < 4,
    Nat.digitChar ((i + 1) % 4) = Nat.digitChar m ↔ i = (m + 3) % 4 := by decide

/-- The screen of a round is the redraw of the keys so far. -/
theorem redrawn_screen (h : Unpicked key n) {flag : String} (hf : flag ∈ ["1", "0"]) :
    Redrawn key n (screen flag (line key n)) := by
  have marked : line key n < 4 := Nat.mod_lt _ (by decide)
  refine ⟨h, fun i hi => screen_begins hf marked hi, screen_mark hf marked, fun i hi => ?_⟩
  rw [(screen_cells hf marked hi).2.2]
  exact digitChar_line i hi (entered key n) entered_lt

/-! ## The environment -/

/-- Each `ReadKeyStroke` delivers the next of the keys; the other calls are answered in any way. The
world is the number of the keys read. -/
def typing (key : Nat → InputKey) : Env (firmware Point) Nat := fun n e n' =>
  match e with
  | ⟨.readKeyStroke, (r : ReadResult)⟩ => n' = n + 1 ∧ r.stored = some (key n)
  | _ => n' = n

/-- A machine on which the keys are typed: it answers every call, and reads deliver the keys. -/
structure Typist (key : Nat → InputKey) (W : Type) where
  env : Env (firmware Point) W
  read : W → Nat
  start : W
  fresh : read start = 0
  typed : ∀ w e w', env w e w' → typing key (read w) e (read w')
  answers : Answers env

/-- What a call leaves on the display. -/
def glance (d : Display) (e : Event (firmware Point)) : Display := d.draw e.call

/-- The display after the steps. -/
def shown {W : Type} (d : Display) (tr : List (Step (firmware Point) W)) : Display :=
  after glance d tr

/-- What is asked of every wait. -/
def Faithful (key : Nat → InputKey) : Env (firmware Point) (Nat × Display) := fun w e _ =>
  e.call = .waitForEvent → Redrawn key w.1 w.2

section Rules

variable {α β : Type} {d : Display}

/-- Every wait of every run from `w` finds its screen, and every result satisfies `Q`. -/
abbrev Draws (key : Nat → InputKey) (p : C α) (Q : α → Nat × Display → Prop) (w : Nat × Display) :
    Prop :=
  wp (observe (typing key) glance) (Faithful key) p Q w

theorem draws_bind (p : C α) (f : α → C β) {Q : β → Nat × Display → Prop} {w : Nat × Display}
    (h : Draws key p (fun a => Draws key (f a) Q) w) : Draws key (p >>= f) Q w :=
  (wp_bind p f Q w).mpr h

/-- A call that neither reads a key nor waits. -/
theorem draws_call (c : Call Point) (other : ∀ r n', typing key n ⟨c, r⟩ n' → n' = n)
    (plain : c ≠ .waitForEvent) {Q : Answer c → Nat × Display → Prop}
    (h : ∀ r, Q r (n, d.draw c)) : Draws key (invoke c) Q (n, d) := by
  refine wp_perform_observed.mpr fun r n' step => ⟨fun wait => absurd wait plain, ?_⟩
  obtain rfl := other r n' step
  exact h r

theorem draws_strOut (s : String) {Q : Unit → Nat × Display → Prop} (h : Q () (n, d.print s)) :
    Draws key (strOut s) Q (n, d) :=
  draws_call (.outputString s) (fun _ _ same => same) nofun fun _ => h

theorem draws_scrClear {Q : Unit → Nat × Display → Prop} (h : Q () (n, ⟨0, 0, fun _ _ => ' '⟩)) :
    Draws key scrClear Q (n, d) :=
  draws_call (.reset false) (fun _ _ same => same) nofun fun _ => h

theorem draws_mnu (choice : UInt8) {Q : Unit → Nat × Display → Prop} (h : Q () (n, d)) :
    Draws key (reach (.mnu choice)) Q (n, d) :=
  draws_call (.reach (.mnu choice)) (fun _ _ same => same) nofun fun _ => h

theorem draws_keyLocal {Q : InputKey → Nat × Display → Prop} (h : ∀ k, Q k (n, d)) :
    Draws key keyLocal Q (n, d) :=
  draws_call .keyLocal (fun _ _ same => same) nofun h

theorem draws_asmReadMsr64 (addr : UInt32) {Q : UInt64 → Nat × Display → Prop}
    (h : ∀ val, Q val (n, d)) : Draws key (asmReadMsr64 addr) Q (n, d) :=
  draws_bind _ _ (draws_call (.rdmsr addr) (fun _ _ same => same) nofun fun _ => h _)

/-- A wait needs the redraw of the keys so far. -/
theorem draws_wait {Q : Unit → Nat × Display → Prop} (redrawn : Redrawn key n d)
    (h : Q () (n, d)) : Draws key waitForEvent Q (n, d) := by
  refine wp_perform_observed.mpr fun _ n' step => ⟨fun _ => redrawn, ?_⟩
  obtain rfl : n' = n := step
  exact h

/-- A read is given the next key. -/
theorem draws_read (k : InputKey) {Q : InputKey → Nat × Display → Prop}
    (h : Q (key n) (n + 1, d)) : Draws key (readKeyStroke k) Q (n, d) := by
  refine draws_bind _ _ (wp_perform_observed.mpr fun (r : ReadResult) n' step => ⟨nofun, ?_⟩)
  obtain ⟨rfl, stored⟩ := step
  show Q (r.stored.getD k) (n + 1, d)
  rw [stored]
  exact h

end Rules

/-! ## The menu -/

/-- The menu is printed line by line. -/
theorem draws_menu (choice : UInt8) {Q : Unit → Nat × Display → Prop} {d : Display}
    (h : Q () (n, ((List.range 4).map (menuLine ((choice.toNat + 3) % 4))).foldl Display.printLine
      ((d.print "\r\n\r\nMenu : ").print "\r\n----------------------\r\n"))) :
    Draws key (menu choice) Q (n, d) := by
  rw [List.foldl_map] at h
  have joined (d : Display) (s s' : String) : (d.print s).print s' = d.puts (s.toList ++ s'.toList) :=
    List.foldl_append.symm
  unfold menu
  refine draws_bind _ _ (draws_strOut _ (draws_bind _ _ (draws_strOut _ ?_)))
  refine wp_forM_foldl (fun w i => (w.1, w.2.printLine (menuLine ((choice.toNat + 3) % 4) i)))
    (fun i w Q hQ => ?_) (Q := Q ()) ?_
  · obtain ⟨n, d⟩ := w
    unfold Display.printLine menuLine at hQ
    split
    · next marked =>
      rw [if_pos marked, ← joined] at hQ
      exact draws_bind _ _ (draws_strOut _ (draws_bind _ _ (draws_strOut _ (draws_strOut _ hQ))))
    · next other =>
      rw [if_neg other, ← joined] at hQ
      exact draws_bind _ _ (draws_strOut _ (draws_bind _ _ (draws_strOut _ (draws_strOut _ hQ))))
  · exact h

/-- What a round of `menuloop` leaves. -/
def RoundEnd (key : Nat → InputKey) (n : Nat) : (UInt8 × InputKey) ⊕ UInt8 → Nat × Display → Prop
  | .inl (choice, _), w =>
    w.1 = n + 1 ∧ picks key n = none ∧ choice.toNat = entered key (n + 1)
  | .inr choice, w => w.1 = n + 1 ∧ picks key n = some choice.toNat

/-- One round, with `n` keys read. -/
theorem draws_menuRound {x : UInt8 × InputKey} {d : Display} (aligned : x.1.toNat = entered key n)
    (unpicked : Unpicked key n) : Draws key (menuRound x) (RoundEnd key n) (n, d) := by
  obtain ⟨choice, k⟩ := x
  unfold menuRound
  refine draws_bind _ _ (draws_mnu choice (draws_bind _ _ (draws_scrClear ?_)))
  refine draws_bind _ _ (draws_strOut _ (draws_bind _ _ (draws_strOut _ ?_)))
  refine draws_bind _ _ (draws_strOut _ (draws_bind _ _ (draws_strOut _ ?_)))
  refine draws_bind _ _ (draws_asmReadMsr64 powerCtl fun val => ?_)
  refine draws_bind _ _ (draws_strOut _ (draws_bind _ _ (draws_menu choice ?_)))
  have flag : (if val &&& 1 ≠ 0 then "1" else "0") ∈ ["1", "0"] := by
    split <;> decide
  have redrawn := redrawn_screen unpicked flag
  unfold line at redrawn
  rw [← aligned] at redrawn
  refine draws_bind _ _ (draws_wait redrawn (draws_bind _ _ (draws_read k ?_)))
  have pressed := press_picks aligned
  cases h : press choice (key n) with
  | inl next =>
    rw [h] at pressed
    exact ⟨rfl, pressed⟩
  | inr choice =>
    rw [h] at pressed
    exact ⟨rfl, pressed⟩

/-- The choice is at all times the number that Enter would return. -/
theorem draws_menuloop (d : Display) :
    Draws key menuloop (fun choice w => ∃ n, w.1 = n + 1 ∧ Unpicked key n ∧
      picks key n = some choice.toNat) (0, d) := by
  unfold menuloop
  refine draws_bind _ _ (draws_keyLocal fun k => ?_)
  refine wp_iter (fun x w => x.1.toNat = entered key w.1 ∧ Unpicked key w.1) ⟨rfl, nofun⟩ ?_
  rintro x ⟨n, d⟩ ⟨aligned, unpicked⟩
  refine wp_mono ?_ (draws_menuRound aligned unpicked)
  rintro (⟨choice, k⟩ | choice) ⟨n', d'⟩ ended
  · obtain ⟨rfl, none, aligned'⟩ := ended
    exact ⟨aligned', unpicked_succ unpicked none⟩
  · obtain ⟨rfl, picked⟩ := ended
    exact ⟨n, rfl, unpicked, picked⟩

theorem straight_menu (choice : UInt8) : (menu choice).Straight := by
  unfold menu
  refine Prog.straight_bind (Prog.straight_perform _) fun _ => ?_
  refine Prog.straight_bind (Prog.straight_perform _) fun _ => ?_
  refine Prog.straight_forM fun i _ => ?_
  split
  all_goals
    refine Prog.straight_bind (Prog.straight_perform _) fun _ => ?_
    exact Prog.straight_bind (Prog.straight_perform _) fun _ => Prog.straight_perform _

theorem straight_asmReadMsr64 (addr : UInt32) : (asmReadMsr64 addr).Straight :=
  Prog.straight_bind (Prog.straight_perform _) fun _ => Prog.straight_pure _

/-- A round has no loop without a bound. -/
theorem straight_menuRound (x : UInt8 × InputKey) : (menuRound x).Straight := by
  obtain ⟨choice, k⟩ := x
  unfold menuRound
  iterate 6 refine Prog.straight_bind (Prog.straight_perform _) fun _ => ?_
  refine Prog.straight_bind (straight_asmReadMsr64 powerCtl) fun _ => ?_
  refine Prog.straight_bind (Prog.straight_perform _) fun _ => ?_
  refine Prog.straight_bind (straight_menu choice) fun _ => ?_
  refine Prog.straight_bind (Prog.straight_perform _) fun _ => ?_
  refine Prog.straight_bind (straight_readKeyStroke k) fun _ => ?_
  split <;> trivial

/-! ## On a machine -/

section Machine

variable {W : Type}

/-- What holds of the runs against the keys holds of the runs of the machine. -/
theorem Typist.observed (T : Typist key W) {α : Type} {p : C α} {Q : α → Nat × Display → Prop}
    {w w' : W} {d : Display} {tr : List (Step (firmware Point) W)} {out : Option α}
    (run : Run T.env w p tr w' out) (h : Draws key p Q (T.read w, d)) :
    (∀ pre st post, tr = pre ++ st :: post → st.event.call = .waitForEvent →
      Redrawn key (T.read st.before) (shown d pre)) ∧
    ∀ a, out = some a → Q a (T.read w', shown d tr) := by
  have same (tr : List (Step (firmware Point) W)) :
      after glance d (tr.map (Step.map T.read)) = shown d tr := by
    unfold shown after
    rw [events_map]
  obtain ⟨steps, result⟩ := (run.project T.read T.typed).observed h
  rw [same] at result
  refine ⟨fun pre st post cut wait => ?_, result⟩
  have mapped : tr.map (Step.map T.read) =
      pre.map (Step.map T.read) ++ st.map T.read :: post.map (Step.map T.read) := by
    rw [cut, List.map_append, List.map_cons]
  have drawn := steps _ _ _ mapped wait
  rw [same] at drawn
  exact drawn

/-- A round returns. -/
theorem Typist.returns_round (T : Typist key W) {w : W} {x : UInt8 × InputKey} (d : Display)
    (aligned : x.1.toNat = entered key (T.read w)) (unpicked : Unpicked key (T.read w)) :
    ∃ w' r, Returns T.env w (menuRound x) w' r ∧ ∃ d', RoundEnd key (T.read w) r (T.read w', d') := by
  obtain ⟨w', r, tr, run⟩ := (straight_menuRound x).returns T.answers w
  obtain ⟨_, ended⟩ := T.observed run (draws_menuRound (d := d) aligned unpicked)
  exact ⟨w', r, ⟨tr, run⟩, shown d tr, ended r rfl⟩

/-- By induction on the keys up to the one that selects. -/
theorem Typist.returns_rounds (T : Typist key W) (d : Display) {m choice : Nat}
    (unpicked : Unpicked key m) (picked : picks key m = some choice) {left : Nat} {w : W}
    (hm : T.read w + left = m) {x : UInt8 × InputKey}
    (aligned : x.1.toNat = entered key (T.read w)) :
    ∃ w', Returns T.env w (Prog.iter menuRound x) w' (.ofNat choice) ∧ T.read w' = m + 1 := by
  induction left generalizing w x with
  | zero =>
    obtain rfl : T.read w = m := hm
    obtain ⟨w', r, round, d', ended⟩ := T.returns_round d aligned unpicked
    cases r with
    | inl next =>
      rw [ended.2.1] at picked
      cases picked
    | inr c =>
      obtain ⟨read, found⟩ := ended
      rw [picked] at found
      obtain rfl : choice = c.toNat := Option.some.inj found
      rw [UInt8.ofNat_toNat]
      exact ⟨w', returns_iter_last round, read⟩
  | succ left ih =>
    have before : Unpicked key (T.read w) := fun i hi => unpicked i (by omega)
    obtain ⟨w', r, round, d', ended⟩ := T.returns_round d aligned before
    cases r with
    | inl next =>
      obtain ⟨read, _, aligned'⟩ := ended
      change T.read w' = T.read w + 1 at read
      rw [← read] at aligned'
      obtain ⟨w'', rest, last⟩ := ih (by omega) aligned'
      exact ⟨w'', returns_iter_next round rest, last⟩
    | inr c =>
      have found := ended.2
      rw [unpicked (T.read w) (by omega)] at found
      cases found

/-- **What `menuloop` does with the keys.** -/
structure Navigates (T : Typist key W) (d : Display) : Prop where
  /-- It returns what the first key that selects picks. -/
  returns : ∀ n choice, Unpicked key n → picks key n = some choice →
    ∃ w, Returns T.env T.start menuloop w (.ofNat choice) ∧ T.read w = n + 1
  /-- It returns nothing else, and at no other key. -/
  only : ∀ w choice, Returns T.env T.start menuloop w choice →
    ∃ n, T.read w = n + 1 ∧ Unpicked key n ∧ picks key n = some choice.toNat
  /-- Each wait for a key finds the menu drawn. -/
  redraws : ∀ tr w out, Run T.env T.start menuloop tr w out → ∀ pre st post,
    tr = pre ++ st :: post → st.event.call = .waitForEvent →
    Redrawn key (T.read st.before) (shown d pre)
  /-- From one wait to the next, the mark moves as the key between them says. -/
  moves : ∀ tr w out, Run T.env T.start menuloop tr w out → ∀ pre st post pre' st' post',
    tr = pre ++ st :: post → tr = pre' ++ st' :: post' →
    st.event.call = .waitForEvent → st'.event.call = .waitForEvent →
    T.read st'.before = T.read st.before + 1 →
    ∀ l l', MarkAt (shown d pre) l → MarkAt (shown d pre') l' →
      l' = (stroke (key (T.read st.before))).move l

/-- **The way through the menu.** -/
theorem menuloop_navigates (T : Typist key W) (d : Display) : Navigates T d := by
  have started : Draws key menuloop (fun choice w => ∃ n, w.1 = n + 1 ∧ Unpicked key n ∧
      picks key n = some choice.toNat) (T.read T.start, d) := by
    rw [T.fresh]
    exact draws_menuloop d
  have redraws : ∀ tr w out, Run T.env T.start menuloop tr w out → ∀ pre st post,
      tr = pre ++ st :: post → st.event.call = .waitForEvent →
      Redrawn key (T.read st.before) (shown d pre) :=
    fun tr w out run => (T.observed run started).1
  refine ⟨?_, ?_, redraws, ?_⟩
  · intro n choice unpicked picked
    have straight : (keyLocal : C InputKey).Straight := Prog.straight_perform _
    obtain ⟨w, k, tr, run⟩ := straight.returns T.answers T.start
    have none : T.read w = 0 :=
      (T.observed run (Q := fun _ w => w.1 = 0) (draws_keyLocal fun _ => T.fresh) (d := d)).2 k rfl
    obtain ⟨w', rounds, read⟩ := T.returns_rounds d unpicked picked (w := w) (x := (1, k))
      (by rw [none, Nat.zero_add]) (by rw [none]; rfl)
    exact ⟨w', Returns.bind ⟨tr, run⟩ rounds, read⟩
  · rintro w choice ⟨tr, run⟩
    exact (T.observed run started).2 choice rfl
  · intro tr w out run pre st post pre' st' post' cut cut' wait wait' next l l' hl hl'
    have mark := (redraws tr w out run pre st post cut wait).mark
    have mark' := (redraws tr w out run pre' st' post' cut' wait').mark
    rw [next, line_succ] at mark'
    rw [hl.unique mark]
    exact hl'.unique mark'

end Machine

/-- A machine with a register. -/
def typist (key : Nat → InputKey) (v : UInt64) : Typist key Nat where
  env n e n' :=
    typing key n e n' ∧
      match e with
      | ⟨.rdmsr _, (r : Halves)⟩ => r = halves v
      | _ => True
  read := id
  start := 0
  fresh := rfl
  typed _ _ _ step := step.1
  answers n c := by
    cases c with
    | readKeyStroke => exact ⟨(⟨.success, some (key n)⟩ : ReadResult), n + 1, ⟨rfl, rfl⟩, trivial⟩
    | rdmsr addr => exact ⟨halves v, n, rfl, rfl⟩
    | keyLocal => exact ⟨(⟨0, 0⟩ : InputKey), n, rfl, trivial⟩
    | _ => exact ⟨(), n, rfl, trivial⟩

/-- Up, twice Down, a space, and then Enter. -/
def wander : Nat → InputKey
  | 0 => ⟨scanUp, 0⟩
  | 1 | 2 => ⟨scanDown, 0⟩
  | 3 => ⟨0, chr ' '⟩
  | _ => ⟨0, charCarriageReturn⟩

/-- Enter returns 2, at the fifth key. -/
theorem menuloop_navigates_wander :
    ∃ n, Returns (typist wander 5).env 0 menuloop n 2 ∧ n = 5 := by
  have unpicked : Unpicked wander 4 := by
    unfold Unpicked
    decide
  have picked : picks wander 4 = some 2 := by decide
  exact (menuloop_navigates (typist wander 5) ⟨0, 0, fun _ _ => ' '⟩).returns 4 2 unpicked picked

end ZeroProcHot.Tmp
